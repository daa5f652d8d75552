import Mathlib.Data.List.DropRight

/-!
# Fields behind a separator

A name built as `s ++ sep :: t`, where the field `t` does not hold the separator, is read back
from the right: `lastField` returns `t`, and the two parts are determined by the whole. Where `s`
does not hold the separator, its first occurrence is behind `s` (`find_sep_append`), and the two
parts are determined by the whole as well (`sep_append_inj`).
-/

namespace Fields

variable {α : Type*} [DecidableEq α] {sep : α}

/-- The part of a list after its last separator, or the whole list if there is none. -/
def lastField (sep : α) (s : List α) : List α := s.rtakeWhile (· ≠ sep)

/-- The last field of a name is what was put behind the last separator. -/
theorem last_field_append {s t : List α} (ht : sep ∉ t) : lastField sep (s ++ sep :: t) = t := by
  have hall : ∀ c ∈ t.reverse, decide (c ≠ sep) = true := by
    intro c hc
    have hne : c ≠ sep := fun h => ht (h ▸ List.mem_reverse.mp hc)
    simpa using hne
  rw [lastField, List.rtakeWhile, List.reverse_append, List.reverse_cons, List.append_assoc,
    List.takeWhile_append_of_pos hall]
  simp

/-- A name determines its last field and what stands before it. -/
theorem append_sep_inj {s s' t t' : List α} (ht : sep ∉ t) (ht' : sep ∉ t')
    (h : s ++ sep :: t = s' ++ sep :: t') : s = s' ∧ t = t' := by
  have hfield : t = t' := by
    rw [← last_field_append (s := s) ht, h, last_field_append ht']
  subst hfield
  exact ⟨List.append_cancel_right h, rfl⟩

/-- A list without the separator. -/
theorem find_sep_none {s : List α} (hs : sep ∉ s) : s.findIdx? (· = sep) = none := by
  rw [List.findIdx?_eq_none_iff]
  intro c hc
  simpa using fun heq : c = sep => hs (heq ▸ hc)

/-- The first separator stands behind what does not hold it. -/
theorem find_sep_append {s : List α} (hs : sep ∉ s) (t : List α) :
    (s ++ sep :: t).findIdx? (· = sep) = some s.length := by
  simp [List.findIdx?_append, find_sep_none hs, List.findIdx?_cons]

/-- A name determines its first field and what stands behind it. -/
theorem sep_append_inj {s s' t t' : List α} (hs : sep ∉ s) (hs' : sep ∉ s')
    (h : s ++ sep :: t = s' ++ sep :: t') : s = s' ∧ t = t' := by
  have hlength : s.length = s'.length := by
    have hfind := find_sep_append hs t
    rw [h, find_sep_append hs'] at hfind
    exact (Option.some.inj hfind).symm
  obtain ⟨rfl, htail⟩ := List.append_inj h hlength
  exact ⟨rfl, (List.cons.inj htail).2⟩

end Fields
