import Mathlib.Data.List.MinMax
import MapReduce.Master.Registry

/-!
# The least loaded worker

`Master::findMinReqHealthyClient` (`w7/src/master/masterimpl.cc`) takes, of the clients that
answered their last ping, the first one with the fewest requests, to balance the requests in
flight. The counters it compares are incremented when a task is sent (`invokeMapTaskAsync` and
`invokeReduceTaskAsync` of `w7/src/master/mrclient.h`) and by nothing else: they count the tasks
that were ever sent, also those that are done. Read `least_loaded` first, which says when that is
harmless, and `idle_client_ignored`.

The ping thread, the refreshes of the registry, the dispatchers and the completion threads of all
jobs share the client objects. A scan of the clients is one step; where a job begins or ends,
nothing happens to them.
-/

namespace MapReduce

/-! ## Client objects -/

namespace MapReduceClient

/-- `setStatus`. -/
def setStatus (client : MapReduceClient) (status : ClientStatus) : MapReduceClient :=
  { client with clientStatus := status }

/-- `setPingStatus`. -/
def setPingStatus (client : MapReduceClient) (status : PingStatus) : MapReduceClient :=
  { client with pingStatus := status }

/-- `getNumMapRequests` or `getNumReduceRequests`. -/
def getNumRequests (client : MapReduceClient) (bReduce : Bool) : Int :=
  if !bReduce then client.nMapRequests else client.nReduceRequests

/-- What `invokeMapTaskAsync` does to the client. -/
def invokeMapTaskAsync (client : MapReduceClient) : MapReduceClient :=
  { client with nMapRequests := client.nMapRequests + 1 }

/-- What `invokeReduceTaskAsync` does to the client. -/
def invokeReduceTaskAsync (client : MapReduceClient) : MapReduceClient :=
  { client with nReduceRequests := client.nReduceRequests + 1 }

/-- What a dispatcher does to the client it sends a task to. -/
def startTask (client : MapReduceClient) (bReduce : Bool) : MapReduceClient :=
  if !bReduce then (client.setStatus .mapRunning).invokeMapTaskAsync
  else (client.setStatus .reduceRunning).invokeReduceTaskAsync

/-- What `AsyncCompleteMapRpc` or `AsyncCompleteReduceRpc` does to the client of a call. -/
def completeTask (client : MapReduceClient) (bReduce : Bool) : ReturnStatus → MapReduceClient
  | .success => client.setStatus (if !bReduce then .mapDone else .reduceDone)
  | .timedout => client.setStatus .deadlineExceed
  | .failed => client.setStatus .broken

/-- What `ping_workers` does to a client before the call, where there is no answer, and what
`AsyncCompletePingRpc` and `AsyncCompleteExchangeRpc` do to it after the call. -/
def ping (client : MapReduceClient) : Option ReturnStatus → MapReduceClient
  | none => client.setPingStatus .pingCheck
  | some .success => client.setPingStatus .pingSuccess
  | some .timedout => (client.setPingStatus .pingFail).setStatus .deadlineExceed
  | some .failed => (client.setPingStatus .pingFail).setStatus .broken

variable (client : MapReduceClient) (bReduce : Bool)

@[simp] theorem get_num_requests_make (pingStatus : PingStatus) :
    (make pingStatus).getNumRequests bReduce = 0 := by
  cases bReduce <;> rfl

/-- Only the task itself is counted. -/
@[simp] theorem get_num_requests_start (bReduce' : Bool) :
    (client.startTask bReduce').getNumRequests bReduce =
      client.getNumRequests bReduce + if bReduce' = bReduce then 1 else 0 := by
  cases bReduce' <;> cases bReduce <;> simp [startTask, getNumRequests, setStatus,
    invokeMapTaskAsync, invokeReduceTaskAsync]

/-- A completion does not change the counters. -/
@[simp] theorem get_num_requests_complete (bReduce' : Bool) (status : ReturnStatus) :
    (client.completeTask bReduce' status).getNumRequests bReduce =
      client.getNumRequests bReduce := by
  cases status <;> rfl

/-- A ping does not change the counters. -/
@[simp] theorem get_num_requests_ping (answer : Option ReturnStatus) :
    (client.ping answer).getNumRequests bReduce = client.getNumRequests bReduce := by
  cases answer with
  | none => rfl
  | some status => cases status <;> rfl

end MapReduceClient

/-! ## The selection -/

namespace Registry

/-- The ping status of a client is `PING_SUCCESS`. -/
def healthy (r : Registry) (client : ClientId) : Bool :=
  (r.objects client).pingStatus = .pingSuccess

/-- The body of the loop of `findMinReqHealthyClient`. -/
def scanClient (r : Registry) (bReduce : Bool) (minReqClient : Option ClientId)
    (client : ClientId) : Option ClientId :=
  if r.healthy client then
    match minReqClient with
    | none => some client
    | some best =>
        let nCurRequest := (r.objects client).getNumRequests bReduce
        let nMinRequest := (r.objects best).getNumRequests bReduce
        if nCurRequest < nMinRequest then some client else some best
  else minReqClient

/-- `findMinReqHealthyClient`. With no healthy client it waits for the next ping and scans again. -/
def findMinReqHealthyClient (r : Registry) (bReduce : Bool) : Option ClientId :=
  r.clients.foldl (r.scanClient bReduce) none

/-- The clients with `PING_SUCCESS`, in the order of `m_Clients`. -/
def healthyClients (r : Registry) : List ClientId := r.clients.filter r.healthy

/-- The code prefers a client to another one: fewer requests were sent to it, or as many and it
comes first. -/
def Prefers (r : Registry) (bReduce : Bool) (client other : ClientId) : Prop :=
  (r.objects client).getNumRequests bReduce < (r.objects other).getNumRequests bReduce ∨
    (r.objects client).getNumRequests bReduce = (r.objects other).getNumRequests bReduce ∧
      r.healthyClients.idxOf client ≤ r.healthyClients.idxOf other

/-- The scan keeps the first of the healthy clients with the fewest requests. -/
theorem find_min_eq (r : Registry) (bReduce : Bool) :
    r.findMinReqHealthyClient bReduce =
      r.healthyClients.foldl (List.argAux fun client best =>
        (r.objects client).getNumRequests bReduce < (r.objects best).getNumRequests bReduce)
        none := by
  unfold findMinReqHealthyClient healthyClients
  rw [List.foldl_filter]
  congr 1
  funext minReqClient client
  unfold scanClient
  cases minReqClient <;> rfl

/-- A scan selects no client only if none is healthy. -/
theorem find_min_eq_none_iff (r : Registry) (bReduce : Bool) :
    r.findMinReqHealthyClient bReduce = none ↔ r.healthyClients = [] := by
  rw [find_min_eq, List.foldl_argAux_eq_none, and_iff_left rfl]

/-- The selection is healthy, and the code prefers it to every healthy client. -/
theorem find_min_prefers {r : Registry} {bReduce : Bool} {client : ClientId}
    (h : r.findMinReqHealthyClient bReduce = some client) :
    client ∈ r.healthyClients ∧ ∀ other ∈ r.healthyClients, r.Prefers bReduce client other := by
  rw [find_min_eq] at h
  have hmin : client ∈ r.healthyClients.argmin fun client =>
      (r.objects client).getNumRequests bReduce := h
  refine ⟨List.argmin_mem hmin, ?_⟩
  intro other hother
  have hle := List.le_of_mem_argmin hother hmin
  rcases hle.lt_or_eq with hlt | heq
  · exact Or.inl hlt
  · exact Or.inr ⟨heq, List.index_of_argmin hmin hother heq.ge⟩

/-! ## Joins and leaves -/

/-- What a refresh does to the client objects: those there were stay as they are, and the others
are new. -/
structure Grown (r r' : Registry) : Prop where
  next : r.next ≤ r'.next
  old : ∀ client < r.next, r'.objects client = r.objects client
  new : ∀ client, r.next ≤ client → client < r'.next → ∃ pingStatus,
    r'.objects client = .make pingStatus
  clients : ∀ client ∈ r'.clients, client ∈ r.clients ∨ client < r'.next

/-- Nothing changes. -/
theorem Grown.refl (r : Registry) : r.Grown r := by
  refine ⟨Nat.le_refl _, fun _ _ => rfl, ?_, fun _ hclient => Or.inl hclient⟩
  intro client hle hlt
  exact absurd hlt (Nat.not_lt.mpr hle)

/-- Changes compose. -/
theorem Grown.trans {r m r' : Registry} (h : r.Grown m) (h' : m.Grown r') : r.Grown r' := by
  refine ⟨Nat.le_trans h.next h'.next, ?_, ?_, ?_⟩
  · intro client hlt
    rw [h'.old client (Nat.lt_of_lt_of_le hlt h.next), h.old client hlt]
  · intro client hle hlt
    by_cases hm : client < m.next
    · rw [h'.old client hm]
      exact h.new client hle hm
    · exact h'.new client (Nat.not_lt.mp hm) hlt
  · intro client hclient
    rcases h'.clients client hclient with hclient | hlt
    · exact (h.clients client hclient).imp_right fun hlt => Nat.lt_of_lt_of_le hlt h'.next
    · exact Or.inr hlt

/-- A worker joins. -/
theorem grown_add_worker (w : ZkWorkers) (name : Str) (r : Registry) :
    r.Grown (r.addWorker w name) := by
  refine ⟨Nat.le_succ _, ?_, ?_, ?_⟩
  · intro client hlt
    exact Function.update_of_ne (Nat.ne_of_lt hlt) ..
  · intro client hle hlt
    obtain rfl : client = r.next := Nat.le_antisymm (Nat.le_of_lt_succ hlt) hle
    exact ⟨w.memory r.next, Function.update_self ..⟩
  · intro client hclient
    rcases List.mem_append.mp hclient with hclient | hclient
    · exact Or.inl hclient
    · rw [List.mem_singleton.mp hclient]
      exact Or.inr (Nat.lt_succ_self _)

/-- The loop that adds clients. -/
theorem grown_add_workers {w : ZkWorkers} {wrkrs : List Str} {r r' : Registry}
    (h : addWorkers w wrkrs r = some r') : r.Grown r' := by
  induction wrkrs generalizing r with
  | nil =>
      cases h
      exact .refl _
  | cons name wrkrs ih =>
      rw [addWorkers, Option.bind_eq_bind, Option.bind_eq_some_iff] at h
      obtain ⟨added, -, h⟩ := h
      cases added with
      | true => exact ih h
      | false => exact (grown_add_worker w name r).trans (ih h)

/-- The loop that removes clients. -/
theorem grown_remove_workers {wrkrs : List Str} {i : Nat} {r r' : Registry}
    (h : removeWorkers wrkrs i r = some r') : r.Grown r' := by
  fun_induction removeWorkers wrkrs i r with
  | case1 i r _ =>
      cases h
      exact .refl _
  | case2 => cases h
  | case3 i r client _ info _ suffix _ ih => exact ih h
  | case4 i r client _ info _ suffix _ ih =>
      have hdrop : r.Grown (r.dropClient i client) := by
        refine ⟨Nat.le_refl _, fun _ _ => rfl, (Grown.refl r).new, ?_⟩
        intro other hother
        exact Or.inl ((List.eraseIdx_sublist r.clients i).mem hother)
      exact hdrop.trans (ih h)

/-- A node that has no client gets one. -/
theorem add_workers_new {w : ZkWorkers} {name : Str} {wrkrs : List Str} {r : Registry}
    (h : r.workerClientAlreadyAdded (nodePath name) r.clients = some false) :
    addWorkers w (name :: wrkrs) r = addWorkers w wrkrs (r.addWorker w name) := by
  rw [addWorkers, h]
  rfl

/-- A client whose node is listed stays. -/
theorem remove_workers_listed {wrkrs : List Str} {i : Nat} {r : Registry} {client : ClientId}
    {info : ClientInfo} (hi : r.clients[i]? = some client)
    (hinfo : r.clientMap[client]? = some info)
    (hlisted : Fields.lastField '/' info.nodeid ∈ wrkrs) :
    removeWorkers wrkrs i r = removeWorkers wrkrs (i + 1) r := by
  rw [removeWorkers.eq_def wrkrs i]
  split
  · next hnone => simp [hi] at hnone
  · next client' hsome =>
      obtain rfl : client = client' := by simpa [hi] using hsome
      simp [hinfo, hlisted]

/-- A refresh of the registry. -/
theorem grown_update_workers {w : ZkWorkers} {r r' : Registry}
    (h : r.updateWorkers w = some r') : r.Grown r' := by
  unfold updateWorkers at h
  split at h
  · cases h
    exact .refl _
  · rw [Option.bind_eq_bind, Option.bind_eq_some_iff] at h
    obtain ⟨m, hadd, hremove⟩ := h
    exact (grown_add_workers hadd).trans (grown_remove_workers hremove)

/-- A member function is called on a client object. -/
def modify (r : Registry) (client : ClientId) (f : MapReduceClient → MapReduceClient) : Registry :=
  { r with objects := Function.update r.objects client (f (r.objects client)) }

/-- The counters of the objects after a call. -/
theorem modify_num_requests (r : Registry) (client other : ClientId)
    (f : MapReduceClient → MapReduceClient) (bReduce : Bool) :
    ((r.modify client f).objects other).getNumRequests bReduce = if other = client then
      (f (r.objects client)).getNumRequests bReduce
      else (r.objects other).getNumRequests bReduce := by
  show (Function.update r.objects client (f (r.objects client)) other).getNumRequests bReduce = _
  rw [Function.update_apply]
  split <;> rfl

end Registry

/-! ## The workload -/

/-- The registry, the tasks that are in flight, each with its kind and the client it was sent to,
and how many tasks have completed, which the program does not keep. -/
structure Workload where
  registry : Registry
  inFlight : List (Bool × ClientId)
  completed : Bool → ClientId → Nat

namespace Workload

/-- A new master. -/
def start (objects : ClientId → MapReduceClient) : Workload := ⟨.init objects, [], fun _ _ => 0⟩

/-- What happens to the clients: a refresh of the registry, a ping, a task that is sent, a task that
completes, and the end of the master. A completion has no answer if the thread that waits for it
has ended. -/
inductive Label where
  | refresh (w : ZkWorkers)
  | ping (client : ClientId) (answer : Option ReturnStatus)
  | dispatch (bReduce : Bool)
  | complete (bReduce : Bool) (client : ClientId) (answer : Option ReturnStatus)
  | fail

/-- A completion, as its thread handles it. -/
def answered (r : Registry) (bReduce : Bool) (client : ClientId) :
    Option ReturnStatus → Registry
  | none => r
  | some status => r.modify client fun object => object.completeTask bReduce status

/-- One step. -/
def step (s : Workload) : Label → Option Workload
  | .refresh w => do
      let r ← s.registry.updateWorkers w
      some { s with registry := r }
  | .ping client answer =>
      some { s with registry := s.registry.modify client fun object => object.ping answer }
  | .dispatch bReduce => do
      let client ← s.registry.findMinReqHealthyClient bReduce
      some { s with
        registry := s.registry.modify client fun object => object.startTask bReduce
        inFlight := s.inFlight ++ [(bReduce, client)] }
  | .complete bReduce client answer =>
      if (bReduce, client) ∈ s.inFlight then
        some {
          registry := answered s.registry bReduce client answer
          inFlight := s.inFlight.erase (bReduce, client)
          completed := fun b c => s.completed b c + if (bReduce, client) = (b, c) then 1 else 0 }
      else none
  | .fail => some { s with registry := { s.registry with hasFailed := true } }

/-- The requests of a kind that were sent to a client and have not completed. -/
def requestsInFlight (s : Workload) (bReduce : Bool) (client : ClientId) : Nat :=
  s.inFlight.count (bReduce, client)

/-- What the counters count: the requests in flight and the completed ones. -/
structure Counted (s : Workload) : Prop where
  sent : ∀ bReduce, ∀ client < s.registry.next,
    (s.registry.objects client).getNumRequests bReduce =
      s.requestsInFlight bReduce client + s.completed bReduce client
  unused : ∀ bReduce client, s.registry.next ≤ client →
    s.requestsInFlight bReduce client = 0 ∧ s.completed bReduce client = 0
  clients : ∀ client ∈ s.registry.clients, client < s.registry.next

/-- A change of the registry that keeps the counters. -/
theorem Counted.keep {s : Workload} (h : s.Counted) {r : Registry}
    (hnext : r.next = s.registry.next) (hclients : r.clients = s.registry.clients)
    (hnum : ∀ bReduce client, (r.objects client).getNumRequests bReduce =
      (s.registry.objects client).getNumRequests bReduce) :
    Counted { s with registry := r } := by
  refine ⟨?_, ?_, ?_⟩
  · intro bReduce client hlt
    rw [hnext] at hlt
    rw [hnum]
    exact h.sent bReduce client hlt
  · intro bReduce client hle
    rw [hnext] at hle
    exact h.unused bReduce client hle
  · intro client hclient
    rw [hclients] at hclient
    rw [hnext]
    exact h.clients client hclient

/-- Joins and leaves. -/
theorem Counted.grown {s : Workload} (h : s.Counted) {r : Registry} (hr : s.registry.Grown r) :
    Counted { s with registry := r } := by
  refine ⟨?_, ?_, ?_⟩
  · intro bReduce client hlt
    by_cases hold : client < s.registry.next
    · rw [hr.old client hold]
      exact h.sent bReduce client hold
    · obtain ⟨pingStatus, hmake⟩ := hr.new client (Nat.not_lt.mp hold) hlt
      obtain ⟨hflight, hcompleted⟩ := h.unused bReduce client (Nat.not_lt.mp hold)
      rw [hmake, MapReduceClient.get_num_requests_make]
      show (0 : Int) = s.requestsInFlight bReduce client + s.completed bReduce client
      rw [hflight, hcompleted]
      rfl
  · intro bReduce client hle
    exact h.unused bReduce client (Nat.le_trans hr.next hle)
  · intro client hclient
    rcases hr.clients client hclient with hclient | hlt
    · exact Nat.lt_of_lt_of_le (h.clients client hclient) hr.next
    · exact hlt

/-- A task is sent. -/
theorem Counted.dispatch {s : Workload} (h : s.Counted) {bReduce : Bool} {client : ClientId}
    (hfind : s.registry.findMinReqHealthyClient bReduce = some client) :
    Counted { s with
      registry := s.registry.modify client fun object => object.startTask bReduce
      inFlight := s.inFlight ++ [(bReduce, client)] } := by
  have hmem := (Registry.find_min_prefers hfind).1
  have hclient : client < s.registry.next := h.clients client (List.mem_of_mem_filter hmem)
  have hcount : ∀ b c, (s.inFlight ++ [(bReduce, client)]).count (b, c) =
      s.requestsInFlight b c + if (bReduce, client) = (b, c) then 1 else 0 := by
    intro b c
    rw [List.count_append, List.count_singleton]
    simp [requestsInFlight]
  refine ⟨?_, ?_, h.clients⟩
  · intro b c hlt
    have hsent := h.sent b c hlt
    show _ = (((s.inFlight ++ [(bReduce, client)]).count (b, c) : Nat) : Int) + s.completed b c
    rw [Registry.modify_num_requests, hcount]
    by_cases hc : c = client
    · subst hc
      rw [if_pos rfl, MapReduceClient.get_num_requests_start, hsent]
      by_cases hb : bReduce = b
      · simp only [hb, if_true]
        push_cast
        omega
      · simp [hb]
    · rw [if_neg hc, hsent]
      simp [Ne.symm hc]
  · intro b c hle
    obtain ⟨hflight, hcompleted⟩ := h.unused b c hle
    refine ⟨?_, hcompleted⟩
    show (s.inFlight ++ [(bReduce, client)]).count (b, c) = 0
    have hne : client ≠ c := fun heq => Nat.lt_irrefl _ (Nat.lt_of_lt_of_le hclient (heq ▸ hle))
    rw [hcount, hflight]
    simp [hne]

/-- A task completes. -/
theorem Counted.complete {s : Workload} (h : s.Counted) {bReduce : Bool} {client : ClientId}
    (hmem : (bReduce, client) ∈ s.inFlight) :
    Counted { s with
      inFlight := s.inFlight.erase (bReduce, client)
      completed := fun b c => s.completed b c + if (bReduce, client) = (b, c) then 1 else 0 } := by
  have hpos : 0 < s.requestsInFlight bReduce client := List.count_pos_iff.mpr hmem
  have hcount : ∀ b c, (s.inFlight.erase (bReduce, client)).count (b, c) =
      s.requestsInFlight b c - if (bReduce, client) = (b, c) then 1 else 0 := by
    intro b c
    rw [List.count_erase]
    simp [requestsInFlight]
  refine ⟨?_, ?_, h.clients⟩
  · intro b c hlt
    have hsent := h.sent b c hlt
    show _ = (((s.inFlight.erase (bReduce, client)).count (b, c) : Nat) : Int) +
      ((s.completed b c + if (bReduce, client) = (b, c) then 1 else 0 : Nat) : Int)
    rw [hcount]
    by_cases hsame : (bReduce, client) = (b, c)
    · obtain ⟨rfl, rfl⟩ := Prod.mk.inj hsame
      rw [if_pos rfl, hsent]
      omega
    · rw [if_neg hsame, hsent]
      omega
  · intro b c hle
    obtain ⟨hflight, hcompleted⟩ := h.unused b c hle
    have hne : (bReduce, client) ≠ (b, c) := by
      intro hsame
      obtain ⟨rfl, rfl⟩ := Prod.mk.inj hsame
      omega
    show (s.inFlight.erase (bReduce, client)).count (b, c) = 0 ∧
      s.completed b c + (if (bReduce, client) = (b, c) then 1 else 0) = 0
    rw [hcount, hflight, hcompleted, if_neg hne]
    exact ⟨rfl, rfl⟩

/-- Every step keeps the count. -/
theorem Counted.step {s t : Workload} {l : Label} (h : s.Counted) (hstep : s.step l = some t) :
    t.Counted := by
  cases l with
  | refresh w =>
      obtain ⟨r, hr, hstep⟩ := Option.bind_eq_some_iff.mp hstep
      cases hstep
      exact h.grown (Registry.grown_update_workers hr)
  | ping client answer =>
      cases hstep
      refine h.keep rfl rfl ?_
      intro bReduce other
      rw [Registry.modify_num_requests, MapReduceClient.get_num_requests_ping]
      split
      · next hother => rw [hother]
      · rfl
  | dispatch bReduce =>
      obtain ⟨client, hfind, hstep⟩ := Option.bind_eq_some_iff.mp hstep
      cases hstep
      exact h.dispatch hfind
  | complete bReduce client answer =>
      rw [Workload.step] at hstep
      split at hstep
      · next hmem =>
          cases hstep
          refine (h.complete hmem).keep ?_ ?_ ?_
          · cases answer <;> rfl
          · cases answer <;> rfl
          · intro b other
            cases answer with
            | none => rfl
            | some status =>
                show ((s.registry.modify client fun object =>
                  object.completeTask bReduce status).objects other).getNumRequests b = _
                rw [Registry.modify_num_requests, MapReduceClient.get_num_requests_complete]
                split
                · next hother => rw [hother]
                · rfl
      · cases hstep
  | fail =>
      cases hstep
      exact h.keep rfl rfl fun _ _ => rfl

/-- In every run the counters count the requests in flight and the completed ones. -/
theorem run_counted {objects : ClientId → MapReduceClient} {ls : List Label} {s : Workload}
    (hrun : Machine.run step (start objects) ls = some s) : s.Counted := by
  refine Machine.run_induction (motive := fun _ s => Counted s) ?_ ?_ hrun
  · refine ⟨?_, ?_, ?_⟩
    · intro bReduce client hlt
      exact absurd hlt (Nat.not_lt_zero _)
    · intro bReduce client hle
      exact ⟨rfl, rfl⟩
    · intro client hclient
      cases hclient
  · intro ls m l t hbefore hm hstep
    exact hm.step hstep

/-- No healthy client has completed more requests than another one that the code prefers to it. -/
def CompletionsFollow (s : Workload) (bReduce : Bool) : Prop :=
  ∀ client ∈ s.registry.healthyClients, ∀ other ∈ s.registry.healthyClients,
    s.registry.Prefers bReduce client other →
      s.completed bReduce other ≤ s.completed bReduce client

/-- In every run, the selected client has answered its last ping; and wherever no healthy client
has completed more requests than another one that the code prefers to it, the selected client has
the fewest requests in flight of all clients that have answered theirs. -/
theorem least_loaded {objects : ClientId → MapReduceClient} {ls : List Label} {s : Workload}
    (hrun : Machine.run step (start objects) ls = some s) {bReduce : Bool} {client : ClientId}
    (hfind : s.registry.findMinReqHealthyClient bReduce = some client) :
    (s.registry.objects client).pingStatus = .pingSuccess ∧
      (s.CompletionsFollow bReduce → ∀ other ∈ s.registry.clients,
        (s.registry.objects other).pingStatus = .pingSuccess →
          s.requestsInFlight bReduce client ≤ s.requestsInFlight bReduce other) := by
  have hcounted := run_counted hrun
  obtain ⟨hmem, hprefers⟩ := Registry.find_min_prefers hfind
  obtain ⟨hclient, hhealthy⟩ := List.mem_filter.mp hmem
  refine ⟨by simpa [Registry.healthy] using hhealthy, ?_⟩
  intro hfollow other hother hping
  have hotherHealthy : other ∈ s.registry.healthyClients :=
    List.mem_filter.mpr ⟨hother, by simpa [Registry.healthy] using hping⟩
  have hpref := hprefers other hotherHealthy
  have hcompleted := hfollow client hmem other hotherHealthy hpref
  have hsent := hcounted.sent bReduce client (hcounted.clients client hclient)
  have hsentOther := hcounted.sent bReduce other (hcounted.clients other hother)
  have hle : (s.registry.objects client).getNumRequests bReduce ≤
      (s.registry.objects other).getNumRequests bReduce := by
    rcases hpref with hlt | ⟨heq, -⟩
    · exact hlt.le
    · exact heq.le
  omega


/-- Two workers. -/
def twoWorkers : ZkWorkers where
  names := ["w1".toList, "w2".toList]
  plain := by decide
  data := fun _ => []
  memory := fun _ => .pingCheck

/-- A new registry, without pings. -/
def newRegistry : Registry := .init fun _ => .make .pingCheck

/-- The registry after the first refresh. -/
def twoClients : Registry :=
  (newRegistry.addWorker twoWorkers "w1".toList).addWorker twoWorkers "w2".toList

/-- The two workers join. -/
theorem refresh_two_workers : newRegistry.updateWorkers twoWorkers = some twoClients := by
  have hnone : newRegistry.workerClientAlreadyAdded (nodePath "w1".toList) newRegistry.clients =
      some false := rfl
  have hother : (newRegistry.addWorker twoWorkers "w1".toList).workerClientAlreadyAdded
      (nodePath "w2".toList) (newRegistry.addWorker twoWorkers "w1".toList).clients =
      some false := by decide +kernel
  have hadd : Registry.addWorkers twoWorkers twoWorkers.names newRegistry = some twoClients := by
    show Registry.addWorkers twoWorkers ["w1".toList, "w2".toList] newRegistry = _
    rw [Registry.add_workers_new hnone, Registry.add_workers_new hother]
    rfl
  have hfirst : twoClients.clientMap[0]? = some ⟨[], "/workers/w1".toList⟩ := by decide +kernel
  have hsecond : twoClients.clientMap[1]? = some ⟨[], "/workers/w2".toList⟩ := by decide +kernel
  have hremove : Registry.removeWorkers twoWorkers.names 0 twoClients = some twoClients := by
    rw [Registry.remove_workers_listed rfl hfirst (by decide),
      Registry.remove_workers_listed rfl hsecond (by decide), Registry.removeWorkers]
    rfl
  unfold Registry.updateWorkers
  rw [if_neg (by decide), hadd]
  exact hremove

/-- A run of a new master that begins with the refresh. -/
theorem run_two_workers (ls : List Label) :
    Machine.run step (start fun _ => .make .pingCheck) (.refresh twoWorkers :: ls) =
      Machine.run step ⟨twoClients, [], fun _ _ => 0⟩ ls := by
  have hstep : (start fun _ => .make .pingCheck).step (.refresh twoWorkers) =
      some ⟨twoClients, [], fun _ _ => 0⟩ := by
    show (newRegistry.updateWorkers twoWorkers).bind _ = _
    rw [refresh_two_workers]
    rfl
  rw [Machine.run, hstep, Option.bind_some]

/-- Two workers answer their pings, and a map task is sent to the first: the next one goes to the
second. -/
theorem least_loaded_second_client :
    ∃ s, Machine.run step (start fun _ => .make .pingCheck) [.refresh twoWorkers,
        .ping 0 (some .success), .ping 1 (some .success), .dispatch false] = some s ∧
      s.registry.findMinReqHealthyClient false = some 1 ∧
      (s.registry.objects 1).pingStatus = .pingSuccess ∧
      ∀ other ∈ s.registry.clients, (s.registry.objects other).pingStatus = .pingSuccess →
        s.requestsInFlight false 1 ≤ s.requestsInFlight false other := by
  obtain ⟨s, hrest, hfind, hcompleted⟩ : ∃ s,
      Machine.run step ⟨twoClients, [], fun _ _ => 0⟩ [.ping 0 (some .success),
        .ping 1 (some .success), .dispatch false] = some s ∧
      s.registry.findMinReqHealthyClient false = some 1 ∧ s.completed = fun _ _ => 0 :=
    ⟨_, rfl, rfl, rfl⟩
  have hrun := (run_two_workers _).trans hrest
  obtain ⟨hping, hleast⟩ := least_loaded hrun hfind
  refine ⟨s, hrun, hfind, hping, hleast ?_⟩
  intro client hclient other hother hprefers
  rw [hcompleted]

/-- Two workers are sent a map task each, and the second completes its task: the next task goes to
the first, which is still busy, and not to the second, which is idle. -/
theorem idle_client_ignored :
    ∃ s, Machine.run step (start fun _ => .make .pingCheck) [.refresh twoWorkers,
        .ping 0 (some .success), .ping 1 (some .success), .dispatch false, .dispatch false,
        .complete false 1 (some .success)] = some s ∧
      s.registry.findMinReqHealthyClient false = some 0 ∧
      1 ∈ s.registry.clients ∧ (s.registry.objects 1).pingStatus = .pingSuccess ∧
      s.requestsInFlight false 1 < s.requestsInFlight false 0 := by
  obtain ⟨s, hrest, hfacts⟩ : ∃ s,
      Machine.run step ⟨twoClients, [], fun _ _ => 0⟩ [.ping 0 (some .success),
        .ping 1 (some .success), .dispatch false, .dispatch false,
        .complete false 1 (some .success)] = some s ∧
      s.registry.findMinReqHealthyClient false = some 0 ∧
      1 ∈ s.registry.clients ∧ (s.registry.objects 1).pingStatus = .pingSuccess ∧
      s.requestsInFlight false 1 < s.requestsInFlight false 0 :=
    ⟨_, rfl, rfl, by decide, rfl, by decide⟩
  exact ⟨s, (run_two_workers _).trans hrest, hfacts⟩

end Workload

end MapReduce
