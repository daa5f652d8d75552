import Mathlib.Logic.Function.Basic
import MapReduce.Library.Machine

/-!
# The loop of a worker

`MapReduceServiceImpl::handleRpcs` and `CommonCallData::Proceed` (`w7/src/worker/mrservice.h`). A
call object waits for a request of its kind; when one arrives it creates the next object of the
kind, handles the request and starts to send the reply; when the reply is confirmed it is deleted.
The tag of an event is the address of the object it is about.

The loop returns at the first event with `ok` false, and such an event need not mean a shutdown:
the reply to a call that the client gave up is confirmed so. `serves_iff` says that the worker
serves on exactly if no event was of this kind.
-/

namespace MapReduce

/-- The RPCs of `MapReduceService` a worker serves. -/
inductive CallKind where
  | exchangeInfo
  | ping
  | mapTask
  | reduceTask
  deriving DecidableEq, Repr

/-- `CallStatus`. -/
inductive CallStatus where
  | create
  | process
  | finish
  deriving DecidableEq, Repr

/-- A `CommonCallData` object. -/
structure CallData where
  kind : CallKind
  status : CallStatus
  deriving DecidableEq, Repr

/-- An event that `cq_->Next` returns with `true`. -/
structure RpcEvent where
  tag : Nat
  ok : Bool
  deriving DecidableEq, Repr

/-- The call objects by their address, the next free address, and whether `handleRpcs` has
returned. -/
structure RpcLoop where
  objects : Nat → Option CallData
  next : Nat
  returned : Bool

namespace RpcLoop

/-- `new` of a call object. The constructor calls `Proceed`, which waits for a request. -/
def construct (s : RpcLoop) (kind : CallKind) : RpcLoop :=
  { s with objects := Function.update s.objects s.next (some ⟨kind, .process⟩), next := s.next + 1 }

/-- `handleRpcs` before its loop. -/
def start : RpcLoop :=
  let s : RpcLoop := ⟨fun _ => none, 0, false⟩
  let s := s.construct .exchangeInfo
  let s := s.construct .ping
  let s := s.construct .mapTask
  s.construct .reduceTask

/-- `Proceed` of the object at an address. -/
def proceed (s : RpcLoop) (tag : Nat) : Option RpcLoop := do
  let call ← s.objects tag
  match call.status with
  | .create =>
      some { s with
        objects := Function.update s.objects tag (some { call with status := .process }) }
  | .process =>
      let s := s.construct call.kind
      some { s with
        objects := Function.update s.objects tag (some { call with status := .finish }) }
  | .finish => some { s with objects := Function.update s.objects tag none }

/-- One pass of the loop. An event is about an object that waits for it. -/
def step (s : RpcLoop) (e : RpcEvent) : Option RpcLoop :=
  if s.returned ∨ s.objects e.tag = none then none
  else if e.ok = false then some { s with returned := true }
  else s.proceed e.tag

/-- An object waits for the next request of a kind. -/
def Waiting (s : RpcLoop) (kind : CallKind) : Prop :=
  ∃ tag, s.objects tag = some ⟨kind, .process⟩

/-- What the loop keeps: addresses are not reused, and an object of each kind waits. -/
structure Inv (s : RpcLoop) : Prop where
  fresh : ∀ tag ≥ s.next, s.objects tag = none
  waiting : ∀ kind, s.Waiting kind

/-- Creating an object. -/
theorem construct_spec {s : RpcLoop} (hfresh : ∀ tag ≥ s.next, s.objects tag = none)
    (kind : CallKind) :
    (∀ tag ≥ (s.construct kind).next, (s.construct kind).objects tag = none) ∧
      (s.construct kind).Waiting kind ∧
      ∀ tag call, s.objects tag = some call → (s.construct kind).objects tag = some call := by
  refine ⟨fun tag htag => ?_, ⟨s.next, Function.update_self ..⟩, fun tag call hcall => ?_⟩
  · have hne : tag ≠ s.next := Nat.ne_of_gt (Nat.lt_of_succ_le htag)
    exact (Function.update_of_ne hne ..).trans (hfresh tag (Nat.le_of_succ_le htag))
  · have hne : tag ≠ s.next := by
      rintro rfl
      rw [hfresh s.next (Nat.le_refl _)] at hcall
      cases hcall
    exact (Function.update_of_ne hne ..).trans hcall

/-- An object for each kind waits before the loop. -/
theorem start_inv : start.Inv := by
  refine ⟨?_, ?_⟩
  · intro tag htag
    have htag : 4 ≤ tag := htag
    have h0 : tag ≠ 0 := by omega
    have h1 : tag ≠ 1 := by omega
    have h2 : tag ≠ 2 := by omega
    have h3 : tag ≠ 3 := by omega
    simp [start, construct, h0, h1, h2, h3]
  · intro kind
    cases kind with
    | exchangeInfo => exact ⟨0, rfl⟩
    | ping => exact ⟨1, rfl⟩
    | mapTask => exact ⟨2, rfl⟩
    | reduceTask => exact ⟨3, rfl⟩

/-- Changing an object that does not wait, and is not new, keeps the others. -/
theorem Inv.update {s : RpcLoop} (hs : s.Inv) {tag : Nat} {call : Option CallData}
    (hold : tag < s.next)
    (hwait : ∀ kind, s.objects tag ≠ some ⟨kind, .process⟩ ∨ ∃ tag' ≠ tag,
      s.objects tag' = some ⟨kind, .process⟩) :
    Inv { s with objects := Function.update s.objects tag call } := by
  refine ⟨fun tag' htag' => ?_, fun kind => ?_⟩
  · have hne : tag' ≠ tag := Nat.ne_of_gt (Nat.lt_of_lt_of_le hold htag')
    exact (Function.update_of_ne hne ..).trans (hs.fresh tag' htag')
  · rcases hwait kind with hnot | ⟨tag', hne, htag'⟩
    · obtain ⟨tag', htag'⟩ := hs.waiting kind
      have hne : tag' ≠ tag := by
        rintro rfl
        exact hnot htag'
      exact ⟨tag', (Function.update_of_ne hne ..).trans htag'⟩
    · exact ⟨tag', (Function.update_of_ne hne ..).trans htag'⟩

/-- `Proceed` keeps an object of each kind waiting. -/
theorem Inv.proceed {s t : RpcLoop} {tag : Nat} (hs : s.Inv) (h : s.proceed tag = some t) :
    t.Inv ∧ t.returned = s.returned := by
  obtain ⟨call, hcall, h⟩ := Option.bind_eq_some_iff.mp h
  have hold : tag < s.next := by
    by_contra hnew
    rw [hs.fresh tag (Nat.not_lt.mp hnew)] at hcall
    cases hcall
  obtain ⟨kind, status⟩ := call
  cases status with
  | create =>
      cases h
      exact ⟨hs.update hold fun kind' => .inl (by simp [hcall]), rfl⟩
  | process =>
      cases h
      obtain ⟨hfresh, hwaits, hkept⟩ := construct_spec hs.fresh kind
      have hnew : (s.construct kind).Inv := by
        refine ⟨hfresh, fun kind' => ?_⟩
        obtain ⟨tag', htag'⟩ := hs.waiting kind'
        exact ⟨tag', hkept _ _ htag'⟩
      refine ⟨hnew.update (Nat.lt_succ_of_lt hold) fun kind' => ?_, rfl⟩
      by_cases hkind : kind' = kind
      · subst hkind
        exact .inr ⟨s.next, Nat.ne_of_gt hold, Function.update_self ..⟩
      · refine .inl ?_
        rw [hkept tag _ hcall]
        simp [Ne.symm hkind]
  | finish =>
      cases h
      exact ⟨hs.update hold fun kind' => .inl (by simp [hcall]), rfl⟩

/-- One pass of the loop. -/
theorem Inv.step {s t : RpcLoop} {e : RpcEvent} (hs : s.Inv) (h : s.step e = some t) :
    t.Inv ∧ s.returned = false ∧ (t.returned = false ↔ e.ok = true) := by
  unfold RpcLoop.step at h
  split at h
  · cases h
  · next hlive =>
    rw [not_or, Bool.not_eq_true] at hlive
    split at h
    · next hok =>
      cases h
      exact ⟨⟨hs.fresh, hs.waiting⟩, hlive.1, by simp [hok]⟩
    · next hok =>
      obtain ⟨ht, hreturned⟩ := hs.proceed h
      exact ⟨ht, hlive.1, by simpa [hreturned, hlive.1] using hok⟩

/-- An event about an object is always processed while the loop runs. -/
theorem step_is_some {s : RpcLoop} {e : RpcEvent} (hrunning : s.returned = false)
    (hlive : s.objects e.tag ≠ none) : (s.step e).isSome = true := by
  obtain ⟨call, hcall⟩ := Option.ne_none_iff_exists'.mp hlive
  unfold RpcLoop.step RpcLoop.proceed
  rw [if_neg (by simp [hrunning, hlive])]
  split
  · rfl
  · obtain ⟨kind, status⟩ := call
    cases status <;> simp [hcall]

/-- A worker serves on exactly as long as no event has `ok` false. For every sequence of events:
`handleRpcs` processes whatever event comes next and has an object waiting for each of the four RPCs
exactly if every event so far had `ok` true. -/
theorem serves_iff {es : List RpcEvent} {s : RpcLoop}
    (hrun : Machine.run RpcLoop.step start es = some s) :
    ((∀ e, s.objects e.tag ≠ none → (s.step e).isSome = true) ∧ ∀ kind, s.Waiting kind) ↔
      ∀ e ∈ es, e.ok = true := by
  have hinv : s.Inv ∧ (s.returned = false ↔ ∀ e ∈ es, e.ok = true) := by
    refine Machine.run_induction (motive := fun es s =>
      s.Inv ∧ (s.returned = false ↔ ∀ e ∈ es, e.ok = true)) ⟨start_inv, by simp [start, construct]⟩
      ?_ hrun
    intro es m e t _ hpair hstep
    obtain ⟨hm, hiff⟩ := hpair
    obtain ⟨ht, hrunning, hok⟩ := hm.step hstep
    refine ⟨ht, hok.trans ?_⟩
    rw [List.forall_mem_append, ← hiff]
    simp [hrunning]
  rw [← hinv.2]
  constructor
  · intro hboth
    obtain ⟨hnext, hwaiting⟩ := hboth
    obtain ⟨tag, htag⟩ := hwaiting .ping
    have hstep := hnext ⟨tag, true⟩ (by simp [htag])
    by_contra hreturned
    rw [Bool.not_eq_false] at hreturned
    simp [step, hreturned] at hstep
  · intro hrunning
    exact ⟨fun e he => step_is_some hrunning he, hinv.1.waiting⟩

/-- A map request arrives and its reply is confirmed: the worker serves on. -/
theorem serves_after_map :
    ∃ s, Machine.run RpcLoop.step start [⟨2, true⟩, ⟨2, true⟩] = some s ∧
      (∀ e, s.objects e.tag ≠ none → (s.step e).isSome = true) ∧ ∀ kind, s.Waiting kind := by
  have hrun : Machine.run RpcLoop.step start [⟨2, true⟩, ⟨2, true⟩] = some _ := rfl
  exact ⟨_, hrun, (serves_iff hrun).mpr (by decide)⟩

/-- A map request arrives, and its client has given up when the reply is sent: the worker processes
no event any more. -/
theorem expired_call_stops_worker :
    ∃ s, Machine.run RpcLoop.step start [⟨2, true⟩, ⟨2, false⟩] = some s ∧ s.returned = true ∧
      ∀ e, s.step e = none := by
  refine ⟨_, rfl, rfl, fun e => ?_⟩
  exact if_pos (Or.inl rfl)

end RpcLoop

end MapReduce
