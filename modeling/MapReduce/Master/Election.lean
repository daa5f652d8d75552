import Mathlib.Logic.Function.Basic
import MapReduce.Library.History
import MapReduce.Library.Machine
import MapReduce.Master.Children

/-!
# Electing a leader

`Master::register_with_zk`, `Master::wait_until_leader`, `Master::elect_leader` and
`exists_watcher_fn` (`w7/src/master/masterimpl.cc`), for any number of masters that share a
ZooKeeper service.

The service is a history of transactions. A session sees a prefix of it, which includes what the
session wrote itself and everything before; its reads are answered from what it sees. Children of
`/masters` are named by their sequence numbers, and a master, its session and its child go by the
same number. A watch on `/leader` fires once, when the session sees `/leader` created, deleted or
changed.

Read `one_leader` first: no two masters with live sessions have won an election.
-/

namespace MapReduce

/-! ## ZooKeeper -/

/-- The node `/leader`: the session that created it and its data, the name of a child of `/masters`.
It is created without data. -/
structure LeaderNode where
  owner : Nat
  data : Option Nat
  deriving DecidableEq, Repr

/-- What the service holds: the next sequence number, the children of `/masters`, and `/leader`. -/
structure Zk where
  next : Nat
  masters : List Nat
  leader : Option LeaderNode
  deriving DecidableEq, Repr

/-- The transactions. A session that ends takes its ephemeral nodes with it. -/
inductive Txn where
  | register
  | expire (n : Nat)
  | createLeader (n : Nat)
  | setLeader (n : Nat)
  deriving DecidableEq, Repr

namespace Zk

/-- No master has registered. -/
def init : Zk := ⟨0, [], none⟩

/-- The effect of a transaction. Creating a node that exists and setting the data of one that does
not have no effect. -/
def apply (zk : Zk) : Txn → Zk
  | .register => { zk with next := zk.next + 1, masters := zk.masters ++ [zk.next] }
  | .expire n => { zk with
      masters := zk.masters.filter (· ≠ n)
      leader := zk.leader.filter (·.owner ≠ n) }
  | .createLeader n => { zk with leader := zk.leader.or (some ⟨n, none⟩) }
  | .setLeader n => { zk with leader := zk.leader.map fun node => { node with data := some n } }

/-- The transaction creates, deletes or changes `/leader`. -/
def touches (zk : Zk) : Txn → Bool
  | .register => false
  | .expire n => zk.leader.any (·.owner = n)
  | .createLeader _ => zk.leader.isNone
  | .setLeader _ => zk.leader.isSome

/-- The state after a history. -/
def replay (log : List Txn) : Zk := History.replay apply init log

/-- The state after the first `k` transactions of a history. -/
def view (log : List Txn) (k : Nat) : Zk := History.view apply init log k

section View

variable {log : List Txn} {i j k n : Nat} {t : Txn}

/-- One more transaction. -/
theorem replay_snoc : replay (log ++ [t]) = (replay log).apply t := History.replay_snoc t

/-- The view of everything. -/
theorem view_length : view log log.length = replay log := History.view_length

/-- A view with one more transaction. -/
theorem view_succ (h : log[k]? = some t) : view log (k + 1) = (view log k).apply t :=
  History.view_succ h

/-- Transactions to come do not change what was seen. -/
theorem view_append (h : k ≤ log.length) : view (log ++ [t]) k = view log k :=
  History.view_append h [t]

/-- A later state has no smaller sequence number to give, and its masters were there before or have
registered since. -/
structure Grows (zk zk' : Zk) : Prop where
  next : zk.next ≤ zk'.next
  masters : ∀ n ∈ zk'.masters, n ∈ zk.masters ∨ zk.next ≤ n

/-- A transaction leads to a later state. -/
theorem grows_apply (zk : Zk) (t : Txn) : Grows zk (zk.apply t) := by
  cases t with
  | register =>
      refine ⟨Nat.le_succ _, fun n hn => ?_⟩
      rcases List.mem_append.mp hn with hold | hnew
      · exact Or.inl hold
      · exact Or.inr (Nat.le_of_eq (List.mem_singleton.mp hnew).symm)
  | expire m => exact ⟨Nat.le_refl _, fun n hn => Or.inl (List.mem_filter.mp hn).1⟩
  | createLeader m | setLeader m => exact ⟨Nat.le_refl _, fun n hn => Or.inl hn⟩

/-- A later view is a later state. -/
theorem view_grows (h : i ≤ j) : Grows (view log i) (view log j) := by
  refine History.view_rel (fun zk => ⟨Nat.le_refl _, fun n hn => Or.inl hn⟩) ?_ grows_apply h
  intro zk zk' zk'' h₁ h₂
  refine ⟨h₁.next.trans h₂.next, fun n hn => ?_⟩
  rcases h₂.masters n hn with hmem | hle
  · exact h₁.masters n hmem
  · exact Or.inr (h₁.next.trans hle)

/-- A master that is registered in one view and live in a later one is live in the first. -/
theorem live_in_view (h : i ≤ j) (hn : n < (view log i).next) (hlive : n ∈ (view log j).masters) :
    n ∈ (view log i).masters :=
  ((view_grows h).masters n hlive).resolve_right (Nat.not_le.mpr hn)

end View

/-- The children of `/masters` have been given their numbers. -/
theorem masters_lt_next (log : List Txn) : ∀ n ∈ (replay log).masters, n < (replay log).next := by
  induction log using List.reverseRecOn with
  | nil => exact nofun
  | append_singleton log t ih =>
      rw [replay_snoc]
      intro n hn
      cases t with
      | register =>
          rcases List.mem_append.mp hn with hold | hnew
          · exact Nat.lt_succ_of_lt (ih n hold)
          · rw [List.mem_singleton.mp hnew]
            exact Nat.lt_succ_self _
      | expire m => exact ih n (List.mem_filter.mp hn).1
      | createLeader m | setLeader m => exact ih n hn

end Zk

/-! ## A master before its election -/

/-- The points of `wait_until_leader`. In `listing` the master is in `elect_leader`, before
`getChildren`; `again` tells the call in the wait loop from the first one. In `retrying` it sleeps
for two seconds, in `waiting` it is in the wait loop, and in `elected` a call of `elect_leader` has
returned true. -/
inductive ElectPc where
  | starting
  | tryAgain
  | listing (again : Bool)
  | creating
  | setting
  | elected
  | reading
  | retrying
  | waiting
  deriving DecidableEq, Repr

/-- A master and its session: the number of transactions the session has seen, whether a watch is
set, whether its notification is still to be handled, and whether `exists_watcher_fn` is between its
two calls of `checkExists`. -/
structure Candidate where
  pc : ElectPc
  existLeader : Bool
  watchTriggered : Bool
  seen : Nat
  watch : Bool
  pending : Bool
  checked : Bool
  deriving DecidableEq, Repr

/-- The steps of a master that write nothing. `getChildren` returns the children in any order. -/
inductive CandidateLabel where
  | advance
  | checkExists
  | tryAgain
  | getChildren (children : List Nat)
  | getData
  | retry
  | wake
  | notify
  | rewatch
  deriving DecidableEq, Repr

namespace Candidate

/-- A master on entry to `wait_until_leader`. -/
def start (seen : Nat) : Candidate where
  pc := .starting
  existLeader := false
  watchTriggered := false
  seen := seen
  watch := false
  pending := false
  checked := false

/-- What the session sees. -/
def view (p : Candidate) (log : List Txn) : Zk := Zk.view log p.seen

/-- The session sees one more transaction. -/
def pass (p : Candidate) (zk : Zk) (t : Txn) : Candidate :=
  { p with
    seen := p.seen + 1
    watch := p.watch && !zk.touches t
    pending := p.pending || (p.watch && zk.touches t) }

/-- One step of the master `n` that writes nothing. -/
def step (log : List Txn) (n : Nat) (p : Candidate) : CandidateLabel → Option Candidate
  | .advance => log[p.seen]?.map fun t => p.pass (p.view log) t
  | .checkExists =>
      if p.pc = .starting then
        some { p with
          pc := .tryAgain
          existLeader := (p.view log).leader.isSome
          watch := true }
      else none
  | .tryAgain =>
      if p.pc = .tryAgain then
        some (if p.existLeader then { p with pc := .reading }
          else { p with pc := .listing false, watchTriggered := false })
      else none
  | .getChildren children =>
      match p.pc with
      | .listing again =>
          if children.Perm (p.view log).masters then do
            let child ← electedChild children
            some { p with
              pc := if child = n then .creating else if again then .waiting else .reading }
          else none
      | _ => none
  | .getData =>
      if p.pc = .reading then
        some { p with
          pc := if ((p.view log).leader.bind LeaderNode.data).isSome then .waiting
            else .retrying }
      else none
  | .retry =>
      if p.pc = .retrying then
        -- the code `ZOK` is zero, so the assignment to a `bool` inverts the answer
        some { p with pc := .tryAgain, existLeader := (p.view log).leader.isNone }
      else none
  | .wake =>
      if p.pc = .waiting ∧ p.watchTriggered = true then
        some { p with pc := .listing true, watchTriggered := false }
      else none
  | .notify =>
      if p.pending = true then
        some { p with
          pending := false
          checked := true
          watchTriggered := p.watchTriggered || (p.view log).leader.isNone }
      else none
  | .rewatch =>
      if p.checked = true then some { p with checked := false, watch := true } else none

/-- The effect of one step that writes nothing, one case for each branch of the source. -/
inductive Effect (log : List Txn) (n : Nat) (p : Candidate) : CandidateLabel → Candidate → Prop
    where
  | advance (t : Txn) :
      log[p.seen]? = some t → Effect log n p .advance (p.pass (p.view log) t)
  | checkExists :
      p.pc = .starting →
      Effect log n p .checkExists { p with
        pc := .tryAgain
        existLeader := (p.view log).leader.isSome
        watch := true }
  | skip :
      p.pc = .tryAgain → p.existLeader = true →
      Effect log n p .tryAgain { p with pc := .reading }
  | elect :
      p.pc = .tryAgain → p.existLeader = false →
      Effect log n p .tryAgain { p with pc := .listing false, watchTriggered := false }
  | win (children : List Nat) (again : Bool) :
      p.pc = .listing again → children.Perm (p.view log).masters →
      electedChild children = some n →
      Effect log n p (.getChildren children) { p with pc := .creating }
  | defer (children : List Nat) (child : Nat) (again : Bool) :
      p.pc = .listing again → children.Perm (p.view log).masters →
      electedChild children = some child → child ≠ n →
      Effect log n p (.getChildren children) { p with
        pc := if again then .waiting else .reading }
  | follow :
      p.pc = .reading → ((p.view log).leader.bind LeaderNode.data).isSome = true →
      Effect log n p .getData { p with pc := .waiting }
  | sleep :
      p.pc = .reading → ¬((p.view log).leader.bind LeaderNode.data).isSome = true →
      Effect log n p .getData { p with pc := .retrying }
  | retry :
      p.pc = .retrying →
      Effect log n p .retry { p with
        pc := .tryAgain
        existLeader := (p.view log).leader.isNone }
  | wake :
      p.pc = .waiting → p.watchTriggered = true →
      Effect log n p .wake { p with pc := .listing true, watchTriggered := false }
  | notify :
      p.pending = true →
      Effect log n p .notify { p with
        pending := false
        checked := true
        watchTriggered := p.watchTriggered || (p.view log).leader.isNone }
  | rewatch :
      p.checked = true → Effect log n p .rewatch { p with checked := false, watch := true }

/-- Every step has one of the effects. -/
theorem step_effect {log : List Txn} {n : Nat} {p q : Candidate} {l : CandidateLabel}
    (h : p.step log n l = some q) : p.Effect log n l q := by
  cases l with
  | advance =>
      obtain ⟨t, ht, rfl⟩ := Option.map_eq_some_iff.mp h
      exact .advance t ht
  | checkExists =>
      obtain ⟨hpc, h⟩ := Option.ite_none_right_eq_some.mp h
      cases h
      exact .checkExists hpc
  | tryAgain =>
      obtain ⟨hpc, h⟩ := Option.ite_none_right_eq_some.mp h
      cases h
      split
      · exact .skip hpc ‹_›
      · exact .elect hpc (Bool.eq_false_iff.mpr ‹_›)
  | getChildren children =>
      simp only [step] at h
      split at h
      · next again hpc =>
        obtain ⟨hperm, h⟩ := Option.ite_none_right_eq_some.mp h
        obtain ⟨child, hchild, h⟩ := Option.bind_eq_some_iff.mp h
        cases h
        split
        · next hself =>
          exact .win children again hpc hperm (hself ▸ hchild)
        · next hother =>
          exact .defer children child again hpc hperm hchild hother
      · cases h
  | getData =>
      obtain ⟨hpc, h⟩ := Option.ite_none_right_eq_some.mp h
      cases h
      split
      · exact .follow hpc ‹_›
      · exact .sleep hpc ‹_›
  | retry =>
      obtain ⟨hpc, h⟩ := Option.ite_none_right_eq_some.mp h
      cases h
      exact .retry hpc
  | wake =>
      obtain ⟨⟨hpc, htriggered⟩, h⟩ := Option.ite_none_right_eq_some.mp h
      cases h
      exact .wake hpc htriggered
  | notify =>
      obtain ⟨hpending, h⟩ := Option.ite_none_right_eq_some.mp h
      cases h
      exact .notify hpending
  | rewatch =>
      obtain ⟨hchecked, h⟩ := Option.ite_none_right_eq_some.mp h
      cases h
      exact .rewatch hchecked

end Candidate

/-! ## All masters -/

/-- The history of the service and the masters, by sequence number. -/
structure Cluster where
  log : List Txn
  proc : Nat → Candidate

/-- A master registers, a session is lost, a master writes in `elect_leader`, or a master takes
another step. -/
inductive ClusterLabel where
  | register
  | lose (n : Nat)
  | create (n : Nat)
  | setData (n : Nat)
  | candidate (n : Nat) (l : CandidateLabel)
  deriving DecidableEq, Repr

namespace Cluster

/-- Before the first master. -/
def init : Cluster := ⟨[], fun _ => .start 0⟩

/-- What the service holds. -/
def zk (s : Cluster) : Zk := Zk.replay s.log

/-- The master `n` has registered and its session is live. -/
def Live (s : Cluster) (n : Nat) : Prop := n ∈ s.zk.masters

instance (s : Cluster) (n : Nat) : Decidable (s.Live n) :=
  inferInstanceAs (Decidable (n ∈ s.zk.masters))

/-- A write of the master `n`: the session has seen everything before it, and sees it. -/
def write (s : Cluster) (n : Nat) (t : Txn) (pc pc' : ElectPc) : Option Cluster :=
  if s.Live n ∧ (s.proc n).pc = pc ∧ (s.proc n).seen = s.log.length then
    some
      { log := s.log ++ [t]
        proc := Function.update s.proc n { (s.proc n).pass s.zk t with pc := pc' } }
  else none

/-- One step. A master whose session is lost does nothing more. -/
def step (s : Cluster) : ClusterLabel → Option Cluster
  | .register =>
      some
        { log := s.log ++ [.register]
          proc := Function.update s.proc s.zk.next (.start (s.log.length + 1)) }
  | .lose n => if s.Live n then some { s with log := s.log ++ [.expire n] } else none
  | .create n => s.write n (.createLeader n) .creating .setting
  | .setData n => s.write n (.setLeader n) .setting .elected
  | .candidate n l =>
      if s.Live n then
        ((s.proc n).step s.log n l).map fun p => { s with proc := Function.update s.proc n p }
      else none

/-- The effect of one step. -/
inductive Effect (s : Cluster) : ClusterLabel → Cluster → Prop where
  | register :
      Effect s .register
        { log := s.log ++ [.register]
          proc := Function.update s.proc s.zk.next (.start (s.log.length + 1)) }
  | lose (n : Nat) : s.Live n → Effect s (.lose n) { s with log := s.log ++ [.expire n] }
  | create (n : Nat) :
      s.Live n → (s.proc n).pc = .creating → (s.proc n).seen = s.log.length →
      Effect s (.create n)
        { log := s.log ++ [.createLeader n]
          proc := Function.update s.proc n
            { (s.proc n).pass s.zk (.createLeader n) with pc := .setting } }
  | setData (n : Nat) :
      s.Live n → (s.proc n).pc = .setting → (s.proc n).seen = s.log.length →
      Effect s (.setData n)
        { log := s.log ++ [.setLeader n]
          proc := Function.update s.proc n
            { (s.proc n).pass s.zk (.setLeader n) with pc := .elected } }
  | candidate (n : Nat) (l : CandidateLabel) (p : Candidate) :
      s.Live n → (s.proc n).step s.log n l = some p →
      Effect s (.candidate n l) { s with proc := Function.update s.proc n p }

/-- Every step has one of the effects. -/
theorem step_effect {s t : Cluster} {l : ClusterLabel} (h : s.step l = some t) :
    s.Effect l t := by
  cases l with
  | register =>
      cases h
      exact .register
  | lose n =>
      simp only [step, Option.ite_none_right_eq_some, Option.some.injEq] at h
      obtain ⟨hlive, rfl⟩ := h
      exact .lose n hlive
  | create n =>
      simp only [step, write, Option.ite_none_right_eq_some, Option.some.injEq] at h
      obtain ⟨⟨hlive, hpc, hseen⟩, rfl⟩ := h
      exact .create n hlive hpc hseen
  | setData n =>
      simp only [step, write, Option.ite_none_right_eq_some, Option.some.injEq] at h
      obtain ⟨⟨hlive, hpc, hseen⟩, rfl⟩ := h
      exact .setData n hlive hpc hseen
  | candidate n l =>
      simp only [step, Option.ite_none_right_eq_some, Option.map_eq_some_iff] at h
      obtain ⟨hlive, p, hp, rfl⟩ := h
      exact .candidate n l p hlive hp

end Cluster

/-! ## Safety -/

/-- What holds of a registered master `n`: its session sees a prefix of the history that includes
its registration, and if it is about to win or has won an election, it was the smallest child of
`/masters` in some view. -/
structure CandidateInv (log : List Txn) (n : Nat) (p : Candidate) : Prop where
  seen_le : p.seen ≤ log.length
  own : n < (p.view log).next
  won : p.pc = .creating ∨ p.pc = .setting ∨ p.pc = .elected →
    ∃ k ≤ log.length, n ∈ (Zk.view log k).masters ∧ ∀ m ∈ (Zk.view log k).masters, n ≤ m

namespace CandidateInv

variable {log : List Txn} {n : Nat} {p q : Candidate}

/-- A transaction does not concern what was seen before it. -/
theorem append (h : CandidateInv log n p) (t : Txn) : CandidateInv (log ++ [t]) n p := by
  refine ⟨?_, ?_, fun hpc => ?_⟩
  · rw [List.length_append]
    exact Nat.le_add_right_of_le h.seen_le
  · rw [Candidate.view, Zk.view_append h.seen_le]
    exact h.own
  · obtain ⟨k, hk, hfirst⟩ := h.won hpc
    refine ⟨k, ?_, ?_⟩
    · rw [List.length_append]
      exact Nat.le_add_right_of_le hk
    · rw [Zk.view_append hk]
      exact hfirst

/-- A master that is live sees itself. -/
theorem live_in_own_view (h : CandidateInv log n p) (hlive : n ∈ (Zk.replay log).masters) :
    n ∈ (p.view log).masters := by
  rw [← Zk.view_length] at hlive
  exact Zk.live_in_view h.seen_le h.own hlive

/-- A write leaves the session with a view of everything. -/
theorem write (h : CandidateInv log n p) (hseen : p.seen = log.length) (t : Txn) (pc : ElectPc)
    (hpc : p.pc = .creating ∨ p.pc = .setting) :
    CandidateInv (log ++ [t]) n { p.pass (Zk.replay log) t with pc := pc } := by
  have happend := h.append t
  refine ⟨?_, ?_, fun _ => happend.won (hpc.imp_right Or.inl)⟩
  · simp [Candidate.pass, hseen]
  · have hgrows : Zk.Grows (Zk.view (log ++ [t]) p.seen) (Zk.view (log ++ [t]) (p.seen + 1)) :=
      Zk.view_grows (Nat.le_succ p.seen)
    exact Nat.lt_of_lt_of_le happend.own hgrows.next

/-- A step that writes nothing. Only `getChildren` can lead to a victory. -/
theorem step (h : CandidateInv log n p) (hlive : n ∈ (Zk.replay log).masters)
    {l : CandidateLabel} (hstep : p.step log n l = some q) : CandidateInv log n q := by
  cases Candidate.step_effect hstep with
  | advance t ht =>
      refine ⟨(List.getElem?_eq_some_iff.mp ht).1, ?_, h.won⟩
      exact Nat.lt_of_lt_of_le h.own (Zk.view_grows (Nat.le_succ p.seen)).next
  | win children again _ hperm hchild =>
      refine ⟨h.seen_le, h.own, fun _ => ?_⟩
      obtain ⟨-, hleast⟩ := elected_child_iff.mp hchild
      refine ⟨p.seen, h.seen_le, h.live_in_own_view hlive, fun m hm => ?_⟩
      exact hleast m (hperm.mem_iff.mpr hm)
  | defer children child again =>
      refine ⟨h.seen_le, h.own, ?_⟩
      cases again <;> simp
  | checkExists | skip | elect | follow | sleep | retry | wake =>
      exact ⟨h.seen_le, h.own, by simp⟩
  | notify | rewatch => exact ⟨h.seen_le, h.own, h.won⟩

end CandidateInv

namespace Cluster

/-- Every registered master meets the invariant. -/
def Inv (s : Cluster) : Prop := ∀ n < s.zk.next, CandidateInv s.log n (s.proc n)

/-- A live master is registered. -/
theorem Live.lt_next {s : Cluster} {n : Nat} (h : s.Live n) : n < s.zk.next :=
  Zk.masters_lt_next s.log n h

/-- A transaction that registers no master. -/
theorem lt_next_of_snoc {s : Cluster} {t : Txn} (hnext : (s.zk.apply t).next = s.zk.next) {m : Nat}
    (hm : m < (Zk.replay (s.log ++ [t])).next) : m < s.zk.next := by
  rw [Zk.replay_snoc] at hm
  exact hm.trans_eq hnext

/-- A write of one master leaves the others as they are. -/
theorem Inv.write {s : Cluster} (hs : s.Inv) {n : Nat} {t : Txn} {pc : ElectPc}
    (hseen : (s.proc n).seen = s.log.length)
    (hpc : (s.proc n).pc = .creating ∨ (s.proc n).pc = .setting)
    (hnext : (s.zk.apply t).next = s.zk.next) :
    Inv
      { log := s.log ++ [t]
        proc := Function.update s.proc n { (s.proc n).pass s.zk t with pc := pc } } := by
  refine (Function.forall_update_iff s.proc fun m p =>
    m < (Zk.replay (s.log ++ [t])).next → CandidateInv (s.log ++ [t]) m p).mpr ⟨?_, ?_⟩
  · intro hn
    exact (hs n (lt_next_of_snoc hnext hn)).write hseen t pc hpc
  · intro m _ hm
    exact (hs m (lt_next_of_snoc hnext hm)).append t

/-- A step keeps the invariant. -/
theorem Inv.step {s t : Cluster} {l : ClusterLabel} (hs : s.Inv) (h : s.step l = some t) :
    t.Inv := by
  cases step_effect h with
  | register =>
      refine (Function.forall_update_iff s.proc fun m p =>
        m < (Zk.replay (s.log ++ [.register])).next →
          CandidateInv (s.log ++ [.register]) m p).mpr ⟨?_, ?_⟩
      · intro hn
        refine ⟨by simp [Candidate.start], ?_, by simp [Candidate.start]⟩
        show s.zk.next < (Zk.view (s.log ++ [.register]) (s.log.length + 1)).next
        have hall : Zk.view (s.log ++ [.register]) (s.log.length + 1) =
            Zk.replay (s.log ++ [.register]) := by
          rw [← Zk.view_length, List.length_append, List.length_singleton]
        rw [hall]
        exact hn
      · intro m hne hm
        rw [Zk.replay_snoc] at hm
        have hold : m < s.zk.next := Nat.lt_of_le_of_ne (Nat.le_of_lt_succ hm) hne
        exact (hs m hold).append _
  | lose n hlive =>
      intro m hm
      have hold : m < ((Zk.replay s.log).apply (.expire n)).next := Zk.replay_snoc ▸ hm
      exact (hs m hold).append _
  | create n hlive hpc hseen => exact hs.write hseen (Or.inl hpc) rfl
  | setData n hlive hpc hseen => exact hs.write hseen (Or.inr hpc) rfl
  | candidate n l p hlive hp =>
      refine (Function.forall_update_iff s.proc fun m p =>
        m < s.zk.next → CandidateInv s.log m p).mpr ⟨?_, ?_⟩
      · intro hn
        exact (hs n hn).step hlive hp
      · intro m _ hm
        exact hs m hm

/-- Every run meets the invariant. -/
theorem Inv.of_run {ls : List ClusterLabel} {s : Cluster}
    (hrun : Machine.run Cluster.step init ls = some s) : s.Inv :=
  Machine.Reachable.invariant ⟨ls, hrun⟩ (motive := Inv) nofun fun _ _ _ hm hstep => hm.step hstep

/-- At most one leader among live masters: in every run, whatever the order of registrations,
session losses and the steps of the masters, two masters with live sessions for which
`elect_leader` has returned true are the same. -/
theorem one_leader (ls : List ClusterLabel) (s : Cluster)
    (hrun : Machine.run Cluster.step init ls = some s) (a b : Nat)
    (halive : s.Live a) (helected : (s.proc a).pc = .elected)
    (hblive : s.Live b) (hbelected : (s.proc b).pc = .elected) : a = b := by
  have hle : ∀ a b, s.Live a → s.Live b → (s.proc b).pc = .elected → b ≤ a := by
    intro a b halive hblive hbelected
    obtain ⟨k, hk, hmem, hleast⟩ :=
      (Inv.of_run hrun b hblive.lt_next).won (Or.inr (Or.inr hbelected))
    by_contra hlt
    -- the smaller master registered first, so the larger one saw it when it won
    refine hlt (hleast a (Zk.live_in_view hk ?_ ?_))
    · have hb : b < (Zk.view s.log k).next := Zk.masters_lt_next _ b hmem
      omega
    · rw [Zk.view_length]
      exact halive
  exact Nat.le_antisymm (hle b a hblive halive helected) (hle a b halive hblive hbelected)

/-- The first leader dies, and the second master, which followed it, takes over. -/
def takeOver : List ClusterLabel :=
  [.register, .register, .candidate 0 .advance, .candidate 0 .checkExists,
    .candidate 0 .tryAgain, .candidate 0 (.getChildren [1, 0]), .create 0, .setData 0,
    .candidate 1 .advance, .candidate 1 .advance, .candidate 1 .checkExists,
    .candidate 1 .tryAgain, .candidate 1 .getData, .lose 0, .candidate 1 .advance,
    .candidate 1 .notify, .candidate 1 .wake, .candidate 1 (.getChildren [1]), .create 1,
    .setData 1]

/-- Both masters of this run have won an election, and only the second is live. -/
theorem one_leader_take_over :
    ∃ s, Machine.run Cluster.step init takeOver = some s ∧
      (s.proc 0).pc = .elected ∧ (s.proc 1).pc = .elected ∧ s.Live 1 ∧
      ∀ a, s.Live a → (s.proc a).pc = .elected → a = 1 := by
  have hrun : Machine.run Cluster.step init takeOver = some _ := rfl
  refine ⟨_, hrun, rfl, rfl, by decide, fun a halive helected => ?_⟩
  exact one_leader _ _ hrun a 1 halive helected (by decide) rfl

end Cluster

end MapReduce
