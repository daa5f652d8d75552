import MapReduce.Library.Machine
import MapReduce.Master.LeastLoaded

/-!
# The ping thread of a job

`process` (`w7/src/master/requesthandler.h`) and `processReplicatedData` start a thread that runs
`start_ping`, which pings all clients and sleeps, round after round, while `m_hbcheck` is set
(`w7/src/master/masterimpl.cc`). The thread of the job chooses a client for each task with
`findMinReqHealthyClient`. Where it finds none, it clears `g_ready` and waits on `g_cond_` until a
round of pings is over. At the end of the job it calls `stop_ping` and joins the ping thread.

Read `find_returns_iff` first: a search for a client can return, in whatever state it is and
whatever rounds it has missed, exactly if there is a client. `ping_joins_iff` says when the join
returns: the ping thread sets `m_hbcheck` itself when it starts, so it must have got there before
`stop_ping` clears it.

A scan reads the clients one after the other, while the pings go on.
-/

namespace MapReduce

open Machine (Reachable run)

/-! ## The threads -/

/-- The program counter of `start_ping`. Of the clients in `pinging`, the first are still to be
pinged and the others have been; `receiving` has the calls that have not completed. -/
inductive PingPc where
  | spawned
  | testing
  | pinging (rest calls : List ClientId)
  | receiving (calls : List ClientId)
  | sleeping
  | ended
  deriving DecidableEq, Repr

/-- Where the thread of the job is: outside of `findMinReqHealthyClient`; in its loop over the
clients, with the best one so far; behind the loop without a client; waiting for `g_ready`; back
with a client; or behind `stop_ping` and behind the join. -/
inductive FinderPc where
  | working
  | scanning (bReduce : Bool) (rest : List ClientId) (minReqClient : Option ClientId)
  | unlucky (bReduce : Bool)
  | waiting (bReduce : Bool)
  | found (bReduce : Bool) (client : ClientId)
  | stopped
  | joined
  deriving DecidableEq, Repr

/-- The end of the loop over the clients. -/
def FinderPc.chosen (bReduce : Bool) : Option ClientId → FinderPc
  | none => .unlucky bReduce
  | some client => .found bReduce client

/-- The search for a client is under way. -/
def FinderPc.finding : FinderPc → Bool
  | .scanning _ _ _ | .unlucky _ | .waiting _ => true
  | .working | .found _ _ | .stopped | .joined => false

/-- The two threads, with `m_hbcheck` and `g_ready`. -/
structure PingSystem where
  registry : Registry
  hbcheck : Bool
  ready : Bool
  ping : PingPc
  finder : FinderPc

/-- The steps of the thread of the job and of the ping thread. -/
inductive PingLabel where
  | find (bReduce : Bool)
  | scan
  | wait
  | wake
  | send
  | stopPing
  | join
  | assign
  | test
  | pingClient
  | reply (client : ClientId) (status : ReturnStatus)
  | notify
  | wakeUp
  deriving DecidableEq, Repr

namespace PingSystem

/-- The job has started the ping thread. -/
def start (registry : Registry) (ready : Bool) : PingSystem :=
  ⟨registry, false, ready, .spawned, .working⟩

/-- One step. -/
def step (s : PingSystem) : PingLabel → Option PingSystem
  | .find bReduce =>
      if s.finder = .working then
        some { s with finder := .scanning bReduce s.registry.clients none }
      else none
  | .scan =>
      match s.finder with
      | .scanning bReduce [] minReqClient =>
          some { s with finder := .chosen bReduce minReqClient }
      | .scanning bReduce (client :: rest) minReqClient =>
          some { s with
            finder := .scanning bReduce rest (s.registry.scanClient bReduce minReqClient client) }
      | _ => none
  | .wait =>
      match s.finder with
      | .unlucky bReduce => some { s with ready := false, finder := .waiting bReduce }
      | _ => none
  | .wake =>
      match s.finder with
      | .waiting bReduce =>
          if s.ready then some { s with finder := .scanning bReduce s.registry.clients none }
          else none
      | _ => none
  | .send =>
      match s.finder with
      | .found bReduce client =>
          some { s with
            registry := s.registry.modify client fun object => object.startTask bReduce
            finder := .working }
      | _ => none
  | .stopPing =>
      if s.finder = .working then some { s with hbcheck := false, finder := .stopped } else none
  | .join =>
      if s.finder = .stopped ∧ s.ping = .ended then some { s with finder := .joined } else none
  | .assign =>
      if s.ping = .spawned then some { s with hbcheck := true, ping := .testing } else none
  | .test =>
      if s.ping = .testing then
        some { s with ping := if s.hbcheck then .pinging s.registry.clients [] else .ended }
      else none
  | .pingClient =>
      match s.ping with
      | .pinging [] calls => some { s with ping := .receiving calls }
      | .pinging (client :: rest) calls =>
          some { s with
            registry := s.registry.modify client fun object => object.ping none
            ping := .pinging rest (calls ++ [client]) }
      | _ => none
  | .reply client status =>
      match s.ping with
      | .receiving calls =>
          if client ∈ calls then
            some { s with
              registry := s.registry.modify client fun object => object.ping (some status)
              ping := .receiving (calls.erase client) }
          else none
      | _ => none
  | .notify =>
      if s.ping = .receiving [] then some { s with ready := true, ping := .sleeping } else none
  | .wakeUp => if s.ping = .sleeping then some { s with ping := .testing } else none

/-! ## What a step does -/

/-- The effect of one step, one case for each branch of the source. -/
inductive Effect (s : PingSystem) : PingLabel → PingSystem → Prop where
  | find (bReduce : Bool) :
      s.finder = .working →
      Effect s (.find bReduce) { s with finder := .scanning bReduce s.registry.clients none }
  | chosen (bReduce : Bool) (minReqClient : Option ClientId) :
      s.finder = .scanning bReduce [] minReqClient →
      Effect s .scan { s with finder := .chosen bReduce minReqClient }
  | scan (bReduce : Bool) (client : ClientId) (rest : List ClientId)
      (minReqClient : Option ClientId) :
      s.finder = .scanning bReduce (client :: rest) minReqClient →
      Effect s .scan { s with
        finder := .scanning bReduce rest (s.registry.scanClient bReduce minReqClient client) }
  | wait (bReduce : Bool) :
      s.finder = .unlucky bReduce →
      Effect s .wait { s with ready := false, finder := .waiting bReduce }
  | wake (bReduce : Bool) :
      s.finder = .waiting bReduce → s.ready = true →
      Effect s .wake { s with finder := .scanning bReduce s.registry.clients none }
  | send (bReduce : Bool) (client : ClientId) :
      s.finder = .found bReduce client →
      Effect s .send { s with
        registry := s.registry.modify client fun object => object.startTask bReduce
        finder := .working }
  | stopPing :
      s.finder = .working → Effect s .stopPing { s with hbcheck := false, finder := .stopped }
  | join : s.finder = .stopped → s.ping = .ended → Effect s .join { s with finder := .joined }
  | assign : s.ping = .spawned → Effect s .assign { s with hbcheck := true, ping := .testing }
  | again :
      s.ping = .testing → s.hbcheck = true →
      Effect s .test { s with ping := .pinging s.registry.clients [] }
  | finish : s.ping = .testing → s.hbcheck = false → Effect s .test { s with ping := .ended }
  | pinged (calls : List ClientId) :
      s.ping = .pinging [] calls → Effect s .pingClient { s with ping := .receiving calls }
  | pingClient (client : ClientId) (rest calls : List ClientId) :
      s.ping = .pinging (client :: rest) calls →
      Effect s .pingClient { s with
        registry := s.registry.modify client fun object => object.ping none
        ping := .pinging rest (calls ++ [client]) }
  | reply (client : ClientId) (status : ReturnStatus) (calls : List ClientId) :
      s.ping = .receiving calls → client ∈ calls →
      Effect s (.reply client status) { s with
        registry := s.registry.modify client fun object => object.ping (some status)
        ping := .receiving (calls.erase client) }
  | notify :
      s.ping = .receiving [] → Effect s .notify { s with ready := true, ping := .sleeping }
  | wakeUp : s.ping = .sleeping → Effect s .wakeUp { s with ping := .testing }

/-- Every step has one of the effects. -/
theorem step_effect {s t : PingSystem} {l : PingLabel} (h : s.step l = some t) :
    s.Effect l t := by
  cases l with
  | find bReduce =>
      simp only [step, Option.ite_none_right_eq_some, Option.some.injEq] at h
      obtain ⟨hfinder, rfl⟩ := h
      exact .find bReduce hfinder
  | scan =>
      simp only [step] at h
      split at h
      · next bReduce minReqClient hfinder =>
          cases h
          exact .chosen bReduce minReqClient hfinder
      · next bReduce client rest minReqClient hfinder =>
          cases h
          exact .scan bReduce client rest minReqClient hfinder
      · cases h
  | wait =>
      simp only [step] at h
      split at h
      · next bReduce hfinder =>
          cases h
          exact .wait bReduce hfinder
      · cases h
  | wake =>
      simp only [step] at h
      split at h
      · next bReduce hfinder =>
          simp only [Option.ite_none_right_eq_some, Option.some.injEq] at h
          obtain ⟨hready, rfl⟩ := h
          exact .wake bReduce hfinder hready
      · cases h
  | send =>
      simp only [step] at h
      split at h
      · next bReduce client hfinder =>
          cases h
          exact .send bReduce client hfinder
      · cases h
  | stopPing =>
      simp only [step, Option.ite_none_right_eq_some, Option.some.injEq] at h
      obtain ⟨hfinder, rfl⟩ := h
      exact .stopPing hfinder
  | join =>
      simp only [step, Option.ite_none_right_eq_some, Option.some.injEq] at h
      obtain ⟨⟨hfinder, hping⟩, rfl⟩ := h
      exact .join hfinder hping
  | assign =>
      simp only [step, Option.ite_none_right_eq_some, Option.some.injEq] at h
      obtain ⟨hping, rfl⟩ := h
      exact .assign hping
  | test =>
      simp only [step, Option.ite_none_right_eq_some, Option.some.injEq] at h
      obtain ⟨hping, rfl⟩ := h
      split
      · next hcheck => exact .again hping hcheck
      · next hcheck => exact .finish hping (by simpa using hcheck)
  | pingClient =>
      simp only [step] at h
      split at h
      · next calls hping =>
          cases h
          exact .pinged calls hping
      · next client rest calls hping =>
          cases h
          exact .pingClient client rest calls hping
      · cases h
  | reply client status =>
      simp only [step] at h
      split at h
      · next calls hping =>
          simp only [Option.ite_none_right_eq_some, Option.some.injEq] at h
          obtain ⟨hcall, rfl⟩ := h
          exact .reply client status calls hping hcall
      · cases h
  | notify =>
      simp only [step, Option.ite_none_right_eq_some, Option.some.injEq] at h
      obtain ⟨hping, rfl⟩ := h
      exact .notify hping
  | wakeUp =>
      simp only [step, Option.ite_none_right_eq_some, Option.some.injEq] at h
      obtain ⟨hping, rfl⟩ := h
      exact .wakeUp hping

/-! ## The search for a client -/

variable {s t : PingSystem}

/-- Until `stop_ping`, the ping thread does not end, and `m_hbcheck` is set once it has started. -/
def Pings (s : PingSystem) : Prop :=
  s.finder = .stopped ∨ s.finder = .joined ∨
    (s.ping ≠ .ended ∧ (s.ping ≠ .spawned → s.hbcheck = true))

/-- The ping thread goes on until `stop_ping`, and the clients are those the job started with. -/
theorem pings {r : Registry} {ready : Bool} (h : Reachable step (start r ready) s) :
    s.registry.clients = r.clients ∧ s.Pings := by
  refine h.invariant (motive := fun s => s.registry.clients = r.clients ∧ s.Pings)
    ⟨rfl, .inr (.inr ⟨by simp [start], by simp [start]⟩)⟩ ?_
  intro s l t hs hstep
  obtain ⟨hclients, hpings⟩ := hs
  unfold Pings at hpings ⊢
  cases step_effect hstep with
  | find _ hfinder | chosen _ _ hfinder | scan _ _ _ _ hfinder | wait _ hfinder | wake _ hfinder _
  | send _ _ hfinder =>
      rw [hfinder] at hpings
      exact ⟨hclients, .inr (.inr (by simpa using hpings))⟩
  | stopPing hfinder => exact ⟨hclients, .inl rfl⟩
  | join hfinder _ => exact ⟨hclients, .inr (.inl rfl)⟩
  | assign hping => exact ⟨hclients, hpings.imp_right fun h => h.imp_right fun _ => by simp⟩
  | finish hping hcheck =>
      refine ⟨hclients, hpings.imp_right fun h => h.imp_right fun h => ?_⟩
      have hset := h.2 (by simp [hping])
      simp [hcheck] at hset
  | again hping _ | pinged _ hping | pingClient _ _ _ hping | reply _ _ _ hping _ | notify hping
  | wakeUp hping =>
      refine ⟨hclients, hpings.imp_right fun h => h.imp_right fun h => ⟨by simp, fun _ => ?_⟩⟩
      exact h.2 (by simp [hping])

/-- The scan that is under way comes to its end, while nothing else moves. -/
theorem scan_all {bReduce : Bool} {rest : List ClientId} {minReqClient : Option ClientId}
    (h : s.finder = .scanning bReduce rest minReqClient) :
    Reachable step s { s with
      finder := .chosen bReduce (rest.foldl (s.registry.scanClient bReduce) minReqClient) } := by
  induction rest generalizing s minReqClient with
  | nil => exact .head (l := .scan) (by simp [step, h]) (.refl _)
  | cons client rest ih =>
      have hscan : s.step .scan = some { s with
          finder := .scanning bReduce rest
            (s.registry.scanClient bReduce minReqClient client) } := by simp [step, h]
      exact .head hscan (ih rfl)

/-- What the ping thread leaves alone. -/
structure Apart (s t : PingSystem) : Prop where
  reach : Reachable step s t
  finder : t.finder = s.finder
  clients : t.registry.clients = s.registry.clients
  hbcheck : t.hbcheck = s.hbcheck

/-- Steps of the ping thread compose. -/
theorem Apart.trans {u : PingSystem} (h : s.Apart t) (h' : t.Apart u) : s.Apart u :=
  ⟨h.reach.trans h'.reach, h'.finder.trans h.finder, h'.clients.trans h.clients,
    h'.hbcheck.trans h.hbcheck⟩

/-- All clients are pinged. -/
theorem ping_all {rest calls : List ClientId} (h : s.ping = .pinging rest calls) :
    ∃ t, s.Apart t ∧ t.ping = .receiving (calls ++ rest) := by
  induction rest generalizing s calls with
  | nil =>
      refine ⟨{ s with ping := .receiving calls }, ⟨?_, rfl, rfl, rfl⟩, by simp⟩
      exact .head (l := .pingClient) (by simp [step, h]) (.refl _)
  | cons client rest ih =>
      obtain ⟨t, hapart, hping⟩ := ih (s := { s with
        registry := s.registry.modify client fun object => object.ping none
        ping := .pinging rest (calls ++ [client]) }) rfl
      refine ⟨t, ⟨.head (l := .pingClient) (by simp [step, h]) hapart.reach, hapart.finder,
        hapart.clients, hapart.hbcheck⟩, ?_⟩
      rw [hping, List.append_assoc]
      rfl

/-- A client that answers is healthy. -/
theorem healthy_reply (r : Registry) (client other : ClientId)
    (h : other = client ∨ r.healthy other = true) :
    (r.modify client fun object => object.ping (some .success)).healthy other = true := by
  unfold Registry.healthy at h ⊢
  by_cases hsame : other = client
  · subst hsame
    simp [Registry.modify, MapReduceClient.ping, MapReduceClient.setPingStatus]
  · simpa [Registry.modify, Function.update_of_ne hsame] using h.resolve_left hsame

/-- All pings are answered. -/
theorem reply_all {calls : List ClientId} (h : s.ping = .receiving calls) :
    ∃ t, s.Apart t ∧ t.ping = .receiving [] ∧
      ∀ client, client ∈ calls ∨ s.registry.healthy client = true →
        t.registry.healthy client = true := by
  induction calls generalizing s with
  | nil =>
      exact ⟨s, ⟨.refl s, rfl, rfl, rfl⟩, h, fun client hclient => hclient.resolve_left (by simp)⟩
  | cons client calls ih =>
      obtain ⟨t, hapart, hping, hhealthy⟩ := ih (s := { s with
        registry := s.registry.modify client fun object => object.ping (some .success)
        ping := .receiving calls }) rfl
      refine ⟨t, ⟨.head (l := .reply client .success) (by simp [step, h]) hapart.reach,
        hapart.finder, hapart.clients, hapart.hbcheck⟩, hping, fun other hother => ?_⟩
      rw [List.mem_cons, or_assoc] at hother
      rcases hother with rfl | hmem | hother
      · exact hhealthy other (.inr (healthy_reply _ other other (.inl rfl)))
      · exact hhealthy other (.inl hmem)
      · exact hhealthy other (.inr (healthy_reply _ client other (.inr hother)))

/-- A round of pings that are all answered. -/
theorem answer_round {calls : List ClientId} (h : s.ping = .receiving calls) :
    ∃ t, s.Apart t ∧ t.ping = .sleeping ∧ t.ready = true ∧
      ∀ client ∈ calls, t.registry.healthy client = true := by
  obtain ⟨t, hapart, hping, hhealthy⟩ := reply_all h
  refine ⟨{ t with ready := true, ping := .sleeping }, hapart.trans ⟨?_, rfl, rfl, rfl⟩, rfl, rfl,
    fun client hclient => hhealthy client (.inl hclient)⟩
  exact .head (l := .notify) (if_pos hping) (.refl _)

/-- The ping thread can come to its next test of `m_hbcheck`. -/
theorem to_testing (hpings : s.ping ≠ .ended) (hset : s.ping ≠ .spawned → s.hbcheck = true) :
    ∃ t, Reachable step s t ∧ t.finder = s.finder ∧ t.registry.clients = s.registry.clients ∧
      t.hbcheck = true ∧ t.ping = .testing := by
  have hawake : ∀ {t : PingSystem}, s.Apart t → t.ping = .sleeping → s.hbcheck = true →
      ∃ t, Reachable step s t ∧ t.finder = s.finder ∧ t.registry.clients = s.registry.clients ∧
        t.hbcheck = true ∧ t.ping = .testing := by
    intro t hapart hping hset
    refine ⟨{ t with ping := .testing }, hapart.reach.trans ?_, hapart.finder, hapart.clients,
      hapart.hbcheck.trans hset, rfl⟩
    exact .head (l := .wakeUp) (if_pos hping) (.refl _)
  cases hping : s.ping with
  | spawned =>
      refine ⟨{ s with hbcheck := true, ping := .testing }, ?_, rfl, rfl, rfl, rfl⟩
      exact .head (l := .assign) (if_pos hping) (.refl _)
  | testing => exact ⟨s, .refl s, rfl, rfl, hset (by simp [hping]), hping⟩
  | pinging rest calls =>
      obtain ⟨t, hapart, hreceiving⟩ := ping_all hping
      obtain ⟨u, hround, hsleeping, -⟩ := answer_round hreceiving
      exact hawake (hapart.trans hround) hsleeping (hset (by simp [hping]))
  | receiving calls =>
      obtain ⟨u, hround, hsleeping, -⟩ := answer_round hping
      exact hawake hround hsleeping (hset (by simp [hping]))
  | sleeping => exact hawake ⟨.refl s, rfl, rfl, rfl⟩ hping (hset (by simp [hping]))
  | ended => exact absurd hping hpings

/-- A search that waits can return with a client, after a round of pings that are all answered. -/
theorem wait_returns {bReduce : Bool} (hpings : s.ping ≠ .ended)
    (hset : s.ping ≠ .spawned → s.hbcheck = true) (hfinder : s.finder = .waiting bReduce)
    (hclients : s.registry.clients ≠ []) :
    ∃ t client, Reachable step s t ∧ t.finder = .found bReduce client := by
  obtain ⟨t, hreach, htfinder, htclients, hcheck, hping⟩ := to_testing hpings hset
  obtain ⟨u, hapart, hreceiving⟩ :=
    ping_all (s := { t with ping := .pinging t.registry.clients [] }) rfl
  obtain ⟨v, hround, -, hready, hhealthy⟩ := answer_round hreceiving
  have hall := hapart.trans hround
  have hvfinder : v.finder = .waiting bReduce := by
    rw [hall.finder, ← hfinder]
    exact htfinder
  have hvclients : v.registry.clients = t.registry.clients := hall.clients
  have hreach : Reachable step s { v with
      finder := .chosen bReduce (v.registry.findMinReqHealthyClient bReduce) } := by
    refine hreach.trans (.head (l := .test) (by simp [step, hping, hcheck]) (hall.reach.trans ?_))
    refine .head (l := .wake) (m := { v with
      finder := .scanning bReduce v.registry.clients none }) ?_ (scan_all rfl)
    simp [step, hvfinder, hready]
  -- all clients are healthy, so the scan chooses one
  have hhealthy : v.registry.healthyClients = v.registry.clients := by
    refine List.filter_eq_self.mpr fun client hclient => hhealthy client ?_
    rw [List.nil_append, ← hvclients]
    exact hclient
  have hsome : v.registry.findMinReqHealthyClient bReduce ≠ none := by
    rw [ne_eq, Registry.find_min_eq_none_iff, hhealthy, hvclients, htclients]
    exact hclients
  obtain ⟨client, hclient⟩ := Option.ne_none_iff_exists'.mp hsome
  rw [hclient] at hreach
  exact ⟨_, client, hreach, rfl⟩

/-- Without a client, no search returns: a scan has nothing to read. -/
theorem never_found {r : Registry} {ready : Bool} (hclients : r.clients = [])
    (h : Reachable step (start r ready) s) (b : Bool) (client : ClientId) :
    s.finder ≠ .found b client := by
  refine (h.invariant (motive := fun s => s.registry.clients = [] ∧
    (∀ b rest best, s.finder = .scanning b rest best → rest = [] ∧ best = none) ∧
      ∀ b client, s.finder ≠ .found b client)
    ⟨hclients, fun _ _ _ h => (by cases h), fun _ _ h => by cases h⟩ ?_).2.2 b client
  intro s l t hs hstep
  obtain ⟨hclients, hfinder, hnone⟩ := hs
  cases step_effect hstep with
  | find b _ | wake b _ _ =>
      refine ⟨hclients, fun b rest best h => ?_, fun b client h => by cases h⟩
      cases h
      exact ⟨hclients, rfl⟩
  | chosen b best h =>
      obtain ⟨-, rfl⟩ := hfinder _ _ _ h
      exact ⟨hclients, fun b rest best h => (by cases h), fun b client h => by cases h⟩
  | scan b client rest best h =>
      obtain ⟨hrest, -⟩ := hfinder _ _ _ h
      cases hrest
  | send b client h => exact absurd h (hnone b client)
  | wait b _ | stopPing _ | join _ _ =>
      exact ⟨hclients, fun b rest best h => (by cases h), fun b client h => by cases h⟩
  | assign _ | again _ _ | finish _ _ | pinged _ _ | pingClient _ _ _ _ | reply _ _ _ _ _
  | notify _ | wakeUp _ => exact ⟨hclients, hfinder, hnone⟩

end PingSystem

/-- A search for a client can return exactly if there is a client. In every state of a job where
`findMinReqHealthyClient` is under way, in the middle of a scan, about to wait or waiting, whichever
clients have failed and whichever rounds of pings are over: there is a way on where it returns a
client if `m_Clients` is not empty, and none otherwise. -/
theorem find_returns_iff (r : Registry) (ready : Bool) (s : PingSystem)
    (hreach : Reachable PingSystem.step (.start r ready) s) (hfinding : s.finder.finding = true) :
    (∃ t bReduce client, Reachable PingSystem.step s t ∧ t.finder = .found bReduce client) ↔
      r.clients ≠ [] := by
  obtain ⟨hclients, hpings⟩ := PingSystem.pings hreach
  constructor
  · intro hfound hempty
    obtain ⟨t, b, client, ht, hfound⟩ := hfound
    exact PingSystem.never_found hempty (hreach.trans ht) b client hfound
  · intro hne
    rw [← hclients] at hne
    obtain ⟨hlive, hset⟩ : s.ping ≠ .ended ∧ (s.ping ≠ .spawned → s.hbcheck = true) := by
      rcases hpings with h | h | h
      · simp [h, FinderPc.finding] at hfinding
      · simp [h, FinderPc.finding] at hfinding
      · exact h
    -- behind a scan without a client, the search waits, and the next round wakes it up
    have hwaits : ∀ {b}, Reachable PingSystem.step s { s with finder := .unlucky b } →
        ∃ t bReduce client, Reachable PingSystem.step s t ∧ t.finder = .found bReduce client := by
      intro b hunlucky
      obtain ⟨t, client, ht, hfound⟩ := PingSystem.wait_returns
        (s := { s with ready := false, finder := .waiting b }) hlive hset rfl hne
      exact ⟨t, b, client, hunlucky.trans (.head (l := .wait) rfl ht), hfound⟩
    cases hfinder : s.finder with
    | scanning b rest best =>
        have hscan := PingSystem.scan_all hfinder
        cases hbest : rest.foldl (s.registry.scanClient b) best with
        | none =>
            rw [hbest] at hscan
            exact hwaits hscan
        | some client =>
            rw [hbest] at hscan
            exact ⟨_, b, client, hscan, rfl⟩
    | unlucky b => exact hwaits (b := b) (hfinder ▸ .refl s)
    | waiting b =>
        obtain ⟨t, client, ht, hfound⟩ := PingSystem.wait_returns hlive hset hfinder hne
        exact ⟨t, b, client, ht, hfound⟩
    | working | found b client | stopped | joined => simp [hfinder, FinderPc.finding] at hfinding

/-- One client, whose memory holds a failed ping. -/
def oneClient : Registry := { Registry.init (fun _ => .make .pingFail) with clients := [0] }

/-- The search starts before the ping thread does, and waits. -/
theorem find_returns_one_client :
    ∃ s, run PingSystem.step (.start oneClient true) [.find false, .scan, .scan, .wait] = some s ∧
      s.finder.finding = true ∧
      ∃ t bReduce client, Reachable PingSystem.step s t ∧ t.finder = .found bReduce client := by
  have hwaits : (run PingSystem.step (.start oneClient true)
      [.find false, .scan, .scan, .wait]).any (fun s => s.finder.finding) = true := by
    decide +kernel
  obtain ⟨s, hrun, hfinding⟩ := (Option.any_eq_true _ _).mp hwaits
  refine ⟨s, hrun, hfinding, ?_⟩
  exact (find_returns_iff oneClient true s ⟨_, hrun⟩ hfinding).mpr (by simp [oneClient])

/-! ## The join -/

namespace PingSystem

variable {s t : PingSystem}

/-- Every way on comes to the join: there are no runs longer than some bound, and a run that has not
come to the join can go on. -/
def Joins (s : PingSystem) : Prop :=
  ∃ n, ∀ ls t, run step s ls = some t →
    ls.length ≤ n ∧ (t.finder = .joined ∨ ∃ l u, t.step l = some u)

/-- The ping thread is at its start until it sets `m_hbcheck`. -/
theorem spawned_iff {r : Registry} {ready : Bool} {ls : List PingLabel}
    (h : run step (start r ready) ls = some s) : s.ping = .spawned ↔ .assign ∉ ls := by
  refine Machine.run_induction (motive := fun ls s => s.ping = .spawned ↔ .assign ∉ ls)
    (by simp [start]) ?_ h
  intro ls s l t _ hs hstep
  rw [List.mem_append, List.mem_singleton, not_or, ← hs]
  cases step_effect hstep with
  | assign hping => simp
  | again hping _ | finish hping _ | pinged _ hping | pingClient _ _ _ hping | reply _ _ _ hping _
  | notify hping | wakeUp hping => simp [hping]
  | find _ _ | chosen _ _ _ | scan _ _ _ _ _ | wait _ _ | wake _ _ _ | send _ _ _ | stopPing _
  | join _ _ => simp

/-- The steps until the join, behind `stop_ping`. -/
def remaining (s : PingSystem) : Nat :=
  (match s.ping with
    | .spawned => 0
    | .testing => 1
    | .pinging rest calls => 4 + calls.length + 2 * rest.length
    | .receiving calls => 3 + calls.length
    | .sleeping => 2
    | .ended => 0) + if s.finder = .stopped then 1 else 0

/-- Behind `stop_ping`, with `m_hbcheck` cleared for good. -/
structure Stopping (s : PingSystem) : Prop where
  finder : s.finder = .stopped ∨ s.finder = .joined
  hbcheck : s.hbcheck = false
  ping : s.ping ≠ .spawned
  joined : s.finder = .joined → s.ping = .ended

/-- Every step behind `stop_ping` comes closer to the join. -/
theorem Stopping.step {l : PingLabel} (hs : s.Stopping) (hstep : s.step l = some t) :
    t.Stopping ∧ t.remaining + 1 ≤ s.remaining := by
  obtain ⟨hfinder, hcheck, hping, hjoined⟩ := hs
  cases step_effect hstep with
  | find _ h | chosen _ _ h | scan _ _ _ _ h | wait _ h | wake _ h _ | send _ _ h | stopPing h =>
      simp [h] at hfinder
  | assign h => exact absurd h hping
  | again _ h => simp [hcheck] at h
  | join h hended =>
      refine ⟨⟨.inr rfl, hcheck, hping, fun _ => hended⟩, ?_⟩
      simp [remaining, h]
  | finish h _ =>
      refine ⟨⟨hfinder, hcheck, by simp, fun _ => rfl⟩, ?_⟩
      simp only [remaining, h]
      omega
  | pinged calls h =>
      refine ⟨⟨hfinder, hcheck, by simp, fun hj => ?_⟩, ?_⟩
      · cases h.symm.trans (hjoined hj)
      · simp only [remaining, h, List.length_nil]
        omega
  | pingClient client rest calls h =>
      refine ⟨⟨hfinder, hcheck, by simp, fun hj => ?_⟩, ?_⟩
      · cases h.symm.trans (hjoined hj)
      · simp only [remaining, h, List.length_append, List.length_cons, List.length_nil]
        omega
  | reply client status calls h hcall =>
      refine ⟨⟨hfinder, hcheck, by simp, fun hj => ?_⟩, ?_⟩
      · cases h.symm.trans (hjoined hj)
      · have hpos := List.length_pos_of_mem hcall
        simp only [remaining, h, List.length_erase_of_mem hcall]
        omega
  | notify h =>
      refine ⟨⟨hfinder, hcheck, by simp, fun hj => ?_⟩, ?_⟩
      · cases h.symm.trans (hjoined hj)
      · simp only [remaining, h, List.length_nil]
        omega
  | wakeUp h =>
      refine ⟨⟨hfinder, hcheck, by simp, fun hj => ?_⟩, ?_⟩
      · cases h.symm.trans (hjoined hj)
      · simp only [remaining, h]
        omega

/-- Until the join, some step is possible. -/
theorem Stopping.moves (hs : s.Stopping) : s.finder = .joined ∨ ∃ l u, s.step l = some u := by
  rcases hs.finder with hfinder | hfinder
  · right
    cases hping : s.ping with
    | spawned => exact absurd hping hs.ping
    | testing => exact ⟨.test, _, if_pos hping⟩
    | pinging rest calls =>
        cases rest with
        | nil =>
            exact ⟨.pingClient, { s with ping := .receiving calls }, by
              simp [PingSystem.step, hping]⟩
        | cons client rest =>
            refine ⟨.pingClient, { s with
              registry := s.registry.modify client fun object => object.ping none
              ping := .pinging rest (calls ++ [client]) }, ?_⟩
            simp [PingSystem.step, hping]
    | receiving calls =>
        cases calls with
        | nil => exact ⟨.notify, _, if_pos hping⟩
        | cons client calls =>
            refine ⟨.reply client .success, { s with
              registry := s.registry.modify client fun object => object.ping (some .success)
              ping := .receiving calls }, ?_⟩
            simp [PingSystem.step, hping]
    | sleeping => exact ⟨.wakeUp, _, if_pos hping⟩
    | ended => exact ⟨.join, _, if_pos ⟨hfinder, hping⟩⟩
  · exact .inl hfinder

/-- Behind `stop_ping`, with `m_hbcheck` cleared for good, every way on comes to the join. -/
theorem Stopping.joins (hs : s.Stopping) : s.Joins := by
  refine ⟨s.remaining, fun ls t hrun => ?_⟩
  have hrest : t.Stopping ∧ t.remaining + ls.length ≤ s.remaining := by
    refine Machine.run_induction (motive := fun ls t => t.Stopping ∧
      t.remaining + ls.length ≤ s.remaining) ⟨hs, Nat.le_refl _⟩ ?_ hrun
    intro ls t l u _ ht hstep
    obtain ⟨ht, hle⟩ := ht
    obtain ⟨hu, hless⟩ := ht.step hstep
    refine ⟨hu, ?_⟩
    rw [List.length_append, List.length_singleton]
    omega
  exact ⟨by omega, hrest.1.moves⟩

/-- Behind `stop_ping`, and the ping thread sets `m_hbcheck` afterwards or will. -/
structure Endless (s : PingSystem) : Prop where
  finder : s.finder = .stopped
  ping : s.ping = .spawned ∨ (s.hbcheck = true ∧ s.ping ≠ .ended)

/-- The ping thread never comes to an end. -/
theorem Endless.step {l : PingLabel} (hs : s.Endless) (hstep : s.step l = some t) :
    t.Endless := by
  obtain ⟨hfinder, hping⟩ := hs
  cases step_effect hstep with
  | find _ h | chosen _ _ h | scan _ _ _ _ h | wait _ h | wake _ h _ | send _ _ h | stopPing h =>
      simp [h] at hfinder
  | join _ h => simp [h] at hping
  | assign h => exact ⟨hfinder, .inr ⟨rfl, by simp⟩⟩
  | finish h hcheck => simp [h, hcheck] at hping
  | again h _ | pinged _ h | pingClient _ _ _ h | reply _ _ _ h _ | notify h | wakeUp h =>
      refine ⟨hfinder, .inr ⟨?_, by simp⟩⟩
      rcases hping with hping | hping
      · simp [h] at hping
      · exact hping.1

/-- Not every way on from there comes to the join. -/
theorem Endless.not_joins (hs : s.Endless) : ¬s.Joins := by
  intro hjoins
  obtain ⟨n, hn⟩ := hjoins
  have hnever : ∀ ls t, run PingSystem.step s ls = some t → t.Endless := fun ls t hrun =>
    Reachable.invariant ⟨ls, hrun⟩ hs fun _ _ _ hm hstep => hm.step hstep
  have hlong : ∀ k, ∃ ls t, run PingSystem.step s ls = some t ∧ ls.length = k := by
    intro k
    induction k with
    | zero => exact ⟨[], s, rfl, rfl⟩
    | succ k ih =>
        obtain ⟨ls, t, hrun, hlen⟩ := ih
        obtain ⟨-, hjoined | ⟨l, u, hstep⟩⟩ := hn ls t hrun
        · cases (hnever ls t hrun).finder.symm.trans hjoined
        · exact ⟨ls ++ [l], u, Machine.run_snoc.mpr ⟨t, hrun, hstep⟩, by simp [hlen]⟩
  obtain ⟨ls, t, hrun, hlen⟩ := hlong (n + 1)
  have hle := (hn ls t hrun).1
  omega

end PingSystem

/-- The join of the ping thread returns exactly if the thread had set `m_hbcheck` when `stop_ping`
cleared it. For every run of a job, with `before` the steps before its `stop_ping` and `after` those
behind it: all ways on come to the join if the assignment is one of the steps before, and otherwise
no way on does. -/
theorem ping_joins_iff (r : Registry) (ready : Bool) (before after : List PingLabel)
    (s : PingSystem)
    (hrun : run PingSystem.step (.start r ready) (before ++ .stopPing :: after) = some s) :
    (s.Joins ↔ .assign ∈ before) ∧
      (.assign ∉ before → ∀ t, Reachable PingSystem.step s t → t.finder ≠ .joined) := by
  rw [Machine.run_append] at hrun
  obtain ⟨u, hbefore, hrun⟩ := Option.bind_eq_some_iff.mp hrun
  obtain ⟨v, hstop, hafter⟩ := Option.bind_eq_some_iff.mp hrun
  have hspawned := PingSystem.spawned_iff hbefore
  obtain ⟨hworking, hv⟩ := Option.ite_none_right_eq_some.mp hstop
  cases hv
  by_cases hassign : .assign ∈ before
  · -- the thread has started, so nothing sets `m_hbcheck` again
    have hstopping : s.Stopping := by
      refine Reachable.invariant ⟨after, hafter⟩ (motive := PingSystem.Stopping)
        ⟨.inl rfl, rfl, ?_, fun h => by cases h⟩ fun _ _ _ hm hstep => (hm.step hstep).1
      exact fun h => hspawned.mp h hassign
    exact ⟨⟨fun _ => hassign, fun _ => hstopping.joins⟩, fun h => absurd hassign h⟩
  · have hendless : s.Endless := Reachable.invariant ⟨after, hafter⟩
      (motive := PingSystem.Endless) ⟨rfl, .inl (hspawned.mpr hassign)⟩
      fun _ _ _ hm hstep => hm.step hstep
    refine ⟨⟨fun h => absurd h hendless.not_joins, fun h => absurd h hassign⟩, fun _ t ht h => ?_⟩
    have ht := ht.invariant (motive := PingSystem.Endless) hendless
      fun _ _ _ hm hstep => hm.step hstep
    cases ht.finder.symm.trans h

/-- The ping thread starts before `stop_ping`, and the join returns; or it starts afterwards, and
the job never ends. -/
theorem ping_joins_late_start :
    (∃ s, run PingSystem.step (.start oneClient true) [.assign, .stopPing, .test] = some s ∧
      s.Joins) ∧
    ∃ s, run PingSystem.step (.start oneClient true) [.stopPing, .assign, .test] = some s ∧
      ∀ t, Reachable PingSystem.step s t → t.finder ≠ .joined := by
  have hearly : (run PingSystem.step (.start oneClient true)
      [.assign, .stopPing, .test]).isSome = true := by decide +kernel
  have hlate : (run PingSystem.step (.start oneClient true)
      [.stopPing, .assign, .test]).isSome = true := by decide +kernel
  obtain ⟨s, hs⟩ := Option.isSome_iff_exists.mp hearly
  obtain ⟨t, ht⟩ := Option.isSome_iff_exists.mp hlate
  exact ⟨⟨s, hs, (ping_joins_iff oneClient true [.assign] [.test] s hs).1.mpr (by simp)⟩,
    t, ht, (ping_joins_iff oneClient true [] [.assign, .test] t ht).2 (by simp)⟩

end MapReduce
