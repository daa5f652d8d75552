import Mathlib.Data.Finset.Basic
import MapReduce.Library.Machine

/-!
# A work pool with retries

Tasks wait to be sent, are in flight at a worker, come back as answers, and an answered task is
either settled for good or queued again. `WorkPool` records where the tasks are. The main result
is `reachable_occupancy`: from a pool that holds every task at most once, no run changes the
number of places that hold a task. So tasks are neither lost nor duplicated, whatever the order
of sends, answers and retries.
-/

/-- The places a task can be in. -/
structure WorkPool (ι : Type*) where
  queued : Multiset ι
  inFlight : Multiset ι
  answered : Multiset ι
  settled : Finset ι

namespace WorkPool

variable {ι : Type*} [DecidableEq ι]

/-- What can happen to a task. -/
inductive Label (ι : Type*) where
  | send (i : ι)
  | answer (i : ι)
  | requeue (i : ι)
  | settle (i : ι)

/-- One step of a pool: the task of the label moves from one place to the next. -/
def step (p : WorkPool ι) : Label ι → Option (WorkPool ι)
  | .send i =>
      if i ∈ p.queued then
        some { p with queued := p.queued.erase i, inFlight := i ::ₘ p.inFlight }
      else none
  | .answer i =>
      if i ∈ p.inFlight then
        some { p with inFlight := p.inFlight.erase i, answered := i ::ₘ p.answered }
      else none
  | .requeue i =>
      if i ∈ p.answered then
        some { p with answered := p.answered.erase i, queued := i ::ₘ p.queued }
      else none
  | .settle i =>
      if i ∈ p.answered then
        some { p with answered := p.answered.erase i, settled := insert i p.settled }
      else none

/-- The number of places that hold the task `i`, with multiplicity. -/
def occupancy (p : WorkPool ι) (i : ι) : Nat :=
  p.queued.count i + p.inFlight.count i + p.answered.count i + if i ∈ p.settled then 1 else 0

/-- Every task is held at most once. -/
def Balanced (p : WorkPool ι) : Prop := ∀ i, p.occupancy i ≤ 1

/-- As a multiset, an element appended is an element added. -/
theorem coe_snoc {α : Type*} (l : List α) (a : α) : ((l ++ [a] : List α) : Multiset α) = a ::ₘ l :=
  Multiset.coe_eq_coe.mpr (List.perm_append_singleton a l)

/-- The tasks of the calls that are left after one call. -/
theorem coe_map_erase {α : Type*} [DecidableEq α] (task : α → ι) {calls : List α} {call : α}
    (h : call ∈ calls) :
    ((calls.erase call).map task : Multiset ι) = ((calls.map task).erase (task call) : List ι) := by
  have herase := Multiset.map_erase_of_mem task (calls : Multiset α) (Multiset.mem_coe.mpr h)
  simpa only [Multiset.coe_erase, Multiset.map_coe] using herase

/-- Taking a task out of a place lowers its own count by one and no other. -/
theorem count_erase_add {s : Multiset ι} {a : ι} (h : a ∈ s) (i : ι) :
    s.count i = (s.erase a).count i + if i = a then 1 else 0 := by
  conv_lhs => rw [← Multiset.cons_erase h]
  rw [Multiset.count_cons]

/-- One step keeps the occupancy of every task, provided no task is held twice. The proviso is
used by `settle` only: settling a task a second time would merge its two places. -/
theorem step_occupancy {p q : WorkPool ι} {l : Label ι} (hp : p.Balanced)
    (h : p.step l = some q) (i : ι) : q.occupancy i = p.occupancy i := by
  cases l with
  | send a | answer a | requeue a =>
      simp only [step, Option.ite_none_right_eq_some, Option.some.injEq] at h
      obtain ⟨ha, rfl⟩ := h
      simp only [occupancy, count_erase_add ha i, Multiset.count_cons]
      omega
  | settle a =>
      simp only [step, Option.ite_none_right_eq_some, Option.some.injEq] at h
      obtain ⟨ha, rfl⟩ := h
      have hsingle := hp a
      simp only [occupancy, count_erase_add ha, if_true] at hsingle ⊢
      have hnot : a ∉ p.settled := fun hmem => by simp [hmem] at hsingle
      by_cases hai : i = a
      · subst hai
        simp only [Finset.mem_insert_self, if_true, hnot, if_false]
        omega
      · simp [hai]

/-- No run from a balanced pool changes the occupancy of a task. -/
theorem reachable_occupancy {p q : WorkPool ι} (hp : p.Balanced)
    (h : Machine.Reachable step p q) (i : ι) : q.occupancy i = p.occupancy i := by
  refine (h.invariant (motive := fun q => ∀ i, q.occupancy i = p.occupancy i) (fun _ => rfl) ?_) i
  intro m l t hm hstep i
  have hbal : m.Balanced := fun j => (hm j).trans_le (hp j)
  exact (step_occupancy hbal hstep i).trans (hm i)

end WorkPool
