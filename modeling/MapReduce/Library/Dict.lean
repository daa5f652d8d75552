import Mathlib.Algebra.BigOperators.Group.List.Basic
import Mathlib.Data.List.Nodup

/-!
# Counting dictionaries

A dictionary that keeps its keys in insertion order, with values that can be added. The only
update is `add`, which adds to the value of a key and starts a new key at the value given. What a
sequence of additions leaves does not depend on their order (`get_add_all`): a key is present if
it was added at all, and its value is the sum of what was added.
-/

/-- A dictionary in insertion order. -/
structure Dict (α β : Type*) where
  entries : List (α × β)
  nodup : (entries.map Prod.fst).Nodup

namespace Dict

variable {α β : Type*} [DecidableEq α] [AddCommMonoid β]

/-- The sum of the values that `l` gives to a key. -/
def total (l : List (α × β)) (a : α) : β := ((l.filter (·.1 = a)).map Prod.snd).sum

@[simp] theorem total_nil (a : α) : total ([] : List (α × β)) a = 0 := rfl

@[simp] theorem total_cons (e : α × β) (l : List (α × β)) (a : α) :
    total (e :: l) a = (if e.1 = a then e.2 else 0) + total l a := by
  by_cases h : e.1 = a <;> simp [total, h]

@[simp] theorem total_append (l l' : List (α × β)) (a : α) :
    total (l ++ l') a = total l a + total l' a := by
  simp [total]

/-- The order of the values does not matter. -/
theorem total_perm {l l' : List (α × β)} (h : l.Perm l') (a : α) : total l a = total l' a :=
  ((h.filter _).map _).sum_eq

/-- The sums of a list of lists add up. -/
theorem total_flatten (ls : List (List (α × β))) (a : α) :
    total ls.flatten a = (ls.map fun l => total l a).sum := by
  induction ls with
  | nil => rfl
  | cons l ls ih => simp [ih]

/-- The empty dictionary. -/
def empty : Dict α β := ⟨[], List.nodup_nil⟩

/-- The keys, in insertion order. -/
def keys (d : Dict α β) : List α := d.entries.map Prod.fst

/-- The value of a key, zero if the key is absent. -/
def get (d : Dict α β) (a : α) : β := total d.entries a

/-- The sum of the values of a key that has one value. -/
theorem total_of_mem {l : List (α × β)} (hnodup : (l.map Prod.fst).Nodup) {e : α × β}
    (he : e ∈ l) : total l e.1 = e.2 := by
  induction l with
  | nil => cases he
  | cons e' l ih =>
      rw [List.map_cons, List.nodup_cons] at hnodup
      rw [total_cons]
      rcases List.mem_cons.mp he with rfl | he
      · have hnone : total l e.1 = 0 := by
          rw [total, List.filter_eq_nil_iff.mpr]
          · rfl
          · intro e' he' heq
            exact hnodup.1 (of_decide_eq_true heq ▸ List.mem_map_of_mem he')
        rw [if_pos rfl, hnone, add_zero]
      · have hne : e'.1 ≠ e.1 := fun heq => hnodup.1 (heq ▸ List.mem_map_of_mem he)
        rw [if_neg hne, zero_add, ih hnodup.2 he]

/-- The value of an entry is that of its key. -/
theorem get_of_mem (d : Dict α β) {e : α × β} (he : e ∈ d.entries) : d.get e.1 = e.2 :=
  total_of_mem d.nodup he

/-- A key that is absent has the value zero. -/
theorem get_of_not_mem (d : Dict α β) {a : α} (h : a ∉ d.keys) : d.get a = 0 := by
  have hnone : d.entries.filter (·.1 = a) = [] := by
    rw [List.filter_eq_nil_iff]
    intro e he heq
    exact h (of_decide_eq_true heq ▸ List.mem_map_of_mem he)
  rw [get, total, hnone]
  rfl

/-- The entries with `n` added to the value of the key `a`. -/
def bump (a : α) (n : β) (l : List (α × β)) : List (α × β) :=
  l.map fun e => if e.1 = a then (e.1, e.2 + n) else e

/-- A value changes, the keys do not. -/
theorem bump_keys (a : α) (n : β) (l : List (α × β)) :
    (bump a n l).map Prod.fst = l.map Prod.fst := by
  rw [bump, List.map_map]
  refine List.map_congr_left fun e _ => ?_
  by_cases h : e.1 = a <;> simp [h]

/-- Add `n` to the value of a key, or start the key at `n`. -/
def add (d : Dict α β) (a : α) (n : β) : Dict α β :=
  if h : a ∈ d.keys then
    ⟨bump a n d.entries, by rw [bump_keys]; exact d.nodup⟩
  else
    ⟨d.entries ++ [(a, n)], by
      rw [List.map_append]
      exact d.nodup.append (List.nodup_singleton a) (List.disjoint_singleton.mpr h)⟩

/-- The keys after an addition. -/
theorem mem_keys_add {d : Dict α β} {a b : α} {n : β} :
    b ∈ (d.add a n).keys ↔ b = a ∨ b ∈ d.keys := by
  unfold add
  split
  · next h =>
    simp only [keys, bump_keys]
    constructor
    · exact Or.inr
    · rintro (rfl | hb)
      · exact h
      · exact hb
  · simp [keys, or_comm]

/-- The sums after a change of one value. -/
theorem total_bump {a b : α} {n : β} {l : List (α × β)} (hnodup : (l.map Prod.fst).Nodup)
    (h : a ∈ l.map Prod.fst) : total (bump a n l) b = total l b + if a = b then n else 0 := by
  induction l with
  | nil => cases h
  | cons e l ih =>
      rw [List.map_cons, List.nodup_cons] at hnodup
      rw [bump, List.map_cons, ← bump, total_cons, total_cons]
      by_cases he : e.1 = a
      · subst he
        have hrest : bump e.1 n l = l := by
          refine (List.map_congr_left fun e' he' => ?_).trans (List.map_id l)
          have hne : e'.1 ≠ e.1 := fun heq => hnodup.1 (heq ▸ List.mem_map_of_mem he')
          rw [if_neg hne, id]
        rw [hrest, if_pos rfl]
        by_cases hb : e.1 = b
        · simp only [hb, if_true]
          rw [add_right_comm]
        · simp [hb]
      · have hmem : a ∈ l.map Prod.fst := (List.mem_cons.mp h).resolve_left fun heq => he heq.symm
        rw [ih hnodup.2 hmem, add_assoc, if_neg he]

/-- The values after an addition. -/
theorem get_add {d : Dict α β} {a b : α} {n : β} :
    (d.add a n).get b = d.get b + if a = b then n else 0 := by
  unfold add
  split
  · next h =>
    exact total_bump d.nodup h
  · simp [get]

/-- `d` is the sum of the dictionaries `ds`: it has their keys, and each key has the sum of its
values. -/
def IsSum (ds : List (Dict α β)) (d : Dict α β) : Prop :=
  ∀ a, (a ∈ d.keys ↔ ∃ e ∈ ds, a ∈ e.keys) ∧ d.get a = (ds.map fun e => e.get a).sum

/-- The additions of a list, in order. -/
def addAll (d : Dict α β) (l : List (α × β)) : Dict α β := l.foldl (fun d e => d.add e.1 e.2) d

/-- Lists of additions compose. -/
theorem add_all_append (d : Dict α β) (l l' : List (α × β)) :
    d.addAll (l ++ l') = (d.addAll l).addAll l' :=
  List.foldl_append

/-- The keys after a list of additions. -/
theorem mem_keys_add_all {d : Dict α β} {l : List (α × β)} {b : α} :
    b ∈ (d.addAll l).keys ↔ b ∈ d.keys ∨ b ∈ l.map Prod.fst := by
  induction l generalizing d with
  | nil => simp [addAll]
  | cons e l ih =>
      rw [addAll, List.foldl_cons, ← addAll, ih, mem_keys_add, List.map_cons, List.mem_cons]
      rw [or_comm (a := b = e.1), or_assoc]

/-- The values after a list of additions. -/
theorem get_add_all {d : Dict α β} {l : List (α × β)} {b : α} :
    (d.addAll l).get b = d.get b + total l b := by
  induction l generalizing d with
  | nil => simp [addAll]
  | cons e l ih =>
      rw [addAll, List.foldl_cons, ← addAll, ih, get_add, total_cons, add_assoc]

end Dict
