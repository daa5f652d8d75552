import Mathlib.Algebra.GroupWithZero.Nat
import Mathlib.Data.List.Basic

/-!
# Consecutive half-open ranges

`Tiles a rs b` says that the ranges `rs`, read in order, start at `a`, begin each where the
previous one ended, and end at `b`. A tiling of `[0, n)` is what cutting `n` bytes into pieces
produces.
-/

/-- `Tiles a rs b`: the half-open ranges `rs` lead from `a` to `b` without gap or overlap. -/
def Tiles : Nat → List (Nat × Nat) → Nat → Prop
  | a, [], b => a = b
  | a, r :: rs, b => r.1 = a ∧ r.1 ≤ r.2 ∧ Tiles r.2 rs b

namespace Tiles

variable {a b c : Nat} {rs qs : List (Nat × Nat)}

/-- A tiling never runs backwards. -/
theorem le (h : Tiles a rs b) : a ≤ b := by
  induction rs generalizing a with
  | nil => exact Nat.le_of_eq h
  | cons r rs ih =>
      obtain ⟨rfl, hle, hrest⟩ := h
      exact Nat.le_trans hle (ih hrest)

/-- Two tilings that meet join. -/
theorem append (h : Tiles a rs b) (h' : Tiles b qs c) : Tiles a (rs ++ qs) c := by
  induction rs generalizing a with
  | nil =>
      cases h
      exact h'
  | cons r rs ih =>
      obtain ⟨rfl, hle, hrest⟩ := h
      exact ⟨rfl, hle, ih hrest⟩

/-- One range is a tiling. -/
theorem single (h : a ≤ b) : Tiles a [(a, b)] b := ⟨rfl, h, rfl⟩

/-- The lengths of the ranges of a tiling add up. -/
theorem sum_eq (h : Tiles a rs b) : a + (rs.map fun r => r.2 - r.1).sum = b := by
  induction rs generalizing a with
  | nil => simpa [Tiles] using h
  | cons r rs ih =>
      obtain ⟨rfl, hle, hrest⟩ := h
      have := ih hrest
      simp only [List.map_cons, List.sum_cons]
      omega

/-- No range of a tiling reaches behind its end. -/
theorem mem_le (h : Tiles a rs b) {r : Nat × Nat} (hr : r ∈ rs) : r.1 ≤ b ∧ r.2 ≤ b := by
  induction rs generalizing a with
  | nil => cases hr
  | cons q rs ih =>
      obtain ⟨rfl, hle, hrest⟩ := h
      rcases List.mem_cons.mp hr with rfl | hr
      · exact ⟨Nat.le_trans hle hrest.le, hrest.le⟩
      · exact ih hrest hr

/-- No range of a tiling begins in front of it. -/
theorem le_mem (h : Tiles a rs b) {r : Nat × Nat} (hr : r ∈ rs) : a ≤ r.1 := by
  induction rs generalizing a with
  | nil => cases hr
  | cons q rs ih =>
      obtain ⟨rfl, hle, hrest⟩ := h
      rcases List.mem_cons.mp hr with rfl | hr
      · exact Nat.le_refl _
      · exact Nat.le_trans hle (ih hrest hr)

/-- Two ranges of a tiling are the same or apart. -/
theorem apart (h : Tiles a rs b) {r q : Nat × Nat} (hr : r ∈ rs) (hq : q ∈ rs) :
    r = q ∨ r.2 ≤ q.1 ∨ q.2 ≤ r.1 := by
  induction rs generalizing a with
  | nil => cases hr
  | cons s rs ih =>
      obtain ⟨rfl, hle, hrest⟩ := h
      rcases List.mem_cons.mp hr with rfl | hr' <;> rcases List.mem_cons.mp hq with rfl | hq'
      · exact .inl rfl
      · exact .inr (.inl (hrest.le_mem hq'))
      · exact .inr (.inr (hrest.le_mem hr'))
      · exact ih hrest hr' hq'

end Tiles
