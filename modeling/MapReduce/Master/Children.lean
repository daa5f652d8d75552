import Mathlib.Data.Char
import Mathlib.Data.List.Lex
import Mathlib.Data.List.Sort
import MapReduce.Master.Helpers

/-!
# Choosing a master from a listing

Two functions of `w7/src/master/masterimpl.cc` pick a child of `/masters`. `elect_leader` sorts the
listing and takes the first name; `start_repl_client` takes the second name as listed. ZooKeeper
promises no order, so the two need not fit: `repl_child_takes_over_iff` says when the master that
receives the checkpoints is the one that takes over.
-/

namespace MapReduce

section Children

variable {Name : Type*} [LinearOrder Name]

/-- The child that `elect_leader` compares with its own node: the listing is sorted if it has more
than one element, and the first element is taken. -/
def electedChild (children : List Name) : Option Name :=
  (if children.length > 1 then children.insertionSort (· ≤ ·) else children)[0]?

/-- The child whose address `start_repl_client` reads: `children.at(1)`. -/
def replChild (children : List Name) : Option Name := children[1]?

/-- The elected child is the smallest one. -/
theorem elected_child_iff {children : List Name} {a : Name} :
    electedChild children = some a ↔ a ∈ children ∧ ∀ b ∈ children, a ≤ b := by
  have hleast : ∀ l : List Name, l.Pairwise (· ≤ ·) →
      (l[0]? = some a ↔ a ∈ l ∧ ∀ b ∈ l, a ≤ b) := by
    intro l hl
    cases l with
    | nil => simp
    | cons c l =>
        have hc : ∀ b ∈ l, c ≤ b := fun b hb => List.rel_of_pairwise_cons hl hb
        simp only [List.getElem?_cons_zero, Option.some.injEq, List.forall_mem_cons]
        constructor
        · rintro rfl
          exact ⟨List.mem_cons_self, le_refl c, hc⟩
        · intro hboth
          obtain ⟨hmem, hle, -⟩ := hboth
          rcases List.mem_cons.mp hmem with rfl | hrest
          · rfl
          · exact le_antisymm (hc a hrest) hle
  unfold electedChild
  split
  · rw [hleast _ (List.pairwise_insertionSort (· ≤ ·) children)]
    simp
  · next hshort =>
    refine hleast children ?_
    cases children with
    | nil => exact List.Pairwise.nil
    | cons c rest =>
        obtain rfl : rest = [] := List.eq_nil_of_length_eq_zero (by simpa using hshort)
        exact List.pairwise_singleton _ c

/-- A listing that is not empty elects a child. -/
theorem elected_child_exists (child : Name) (rest : List Name) :
    ∃ leader, electedChild (child :: rest) = some leader := by
  cases h : electedChild (child :: rest) with
  | some leader => exact ⟨leader, rfl⟩
  | none =>
      unfold electedChild at h
      split at h
      · have hlength := List.length_insertionSort (· ≤ ·) (child :: rest)
        rw [List.getElem?_eq_none_iff, hlength] at h
        simp at h
      · simp at h

/-- Exactly one name of a listing is smaller than `r` if its least name is and no other one. -/
theorem one_smaller_iff {children : List Name} {leader r : Name}
    (hleader : electedChild children = some leader) :
    children.countP (· < r) = 1 ↔ leader < r ∧ ∀ b ∈ children.erase leader, r ≤ b := by
  obtain ⟨hmem, hleast⟩ := elected_child_iff.mp hleader
  have hcount := (List.perm_cons_erase hmem).countP_eq fun b => decide (b < r)
  rw [List.countP_cons] at hcount
  have hothers : (children.erase leader).countP (fun b => decide (b < r)) = 0 ↔
      ∀ b ∈ children.erase leader, r ≤ b := by
    simp [List.countP_eq_zero]
  rw [hcount, ← hothers]
  by_cases hlt : leader < r
  · simp [hlt]
  · have hnone : (children.erase leader).countP (fun b => decide (b < r)) = 0 := by
      rw [hothers]
      intro b hb
      exact (not_lt.mp hlt).trans (hleast b (List.mem_of_mem_erase hb))
    simp [hlt, hnone]

/-- Checkpoints go to the master that will take over, for a listing with at least two names, exactly
if one listed name is smaller than the second one. The master whose address is read is then not the
leader, and is elected from the same listing once the leader is removed. -/
theorem repl_child_takes_over_iff (first second : Name) (rest : List Name) :
    (∀ leader, electedChild (first :: second :: rest) = some leader →
      ∃ r, replChild (first :: second :: rest) = some r ∧ r ≠ leader ∧
        electedChild ((first :: second :: rest).erase leader) = some r) ↔
      (first :: second :: rest).countP (· < second) = 1 := by
  obtain ⟨leader, hleader⟩ := elected_child_exists first (second :: rest)
  obtain ⟨hmem, hleast⟩ := elected_child_iff.mp hleader
  have hsecond : second ∈ first :: second :: rest := by simp
  rw [one_smaller_iff hleader]
  constructor
  · intro htakes
    obtain ⟨r, hr, hne, helected⟩ := htakes leader hleader
    obtain rfl : second = r := by simpa [replChild] using hr
    exact ⟨lt_of_le_of_ne (hleast _ hsecond) hne.symm, (elected_child_iff.mp helected).2⟩
  · intro hboth leader' hleader'
    obtain ⟨hlt, hothers⟩ := hboth
    obtain rfl : leader = leader' := by simpa [hleader] using hleader'
    refine ⟨second, rfl, hlt.ne', elected_child_iff.mpr ⟨?_, hothers⟩⟩
    exact (List.mem_erase_of_ne hlt.ne').mpr hsecond

end Children

/-- Two masters, the later one listed first. -/
def laterFirst : List Str := ["master_0000000001".toList, "master_0000000000".toList]

/-- The leader is in second place, so it is the leader itself that receives the checkpoints. -/
theorem repl_child_is_leader :
    electedChild laterFirst = some "master_0000000000".toList ∧
      replChild laterFirst = some "master_0000000000".toList ∧
      ¬∀ leader, electedChild laterFirst = some leader →
        ∃ r, replChild laterFirst = some r ∧ r ≠ leader ∧
          electedChild (laterFirst.erase leader) = some r := by
  have helected : electedChild laterFirst = some "master_0000000000".toList := by decide
  refine ⟨helected, rfl, fun htakes => ?_⟩
  obtain ⟨r, hr, hne, -⟩ := htakes _ helected
  exact hne (Option.some.inj hr).symm

end MapReduce
