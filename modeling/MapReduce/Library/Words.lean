import Mathlib.Data.List.DropRight
import Mathlib.Data.List.Induction

/-!
# The words of a text

`words p s` are the maximal non-empty runs of `s` without separators, where `p` tells the
separators. Read `words_append` and `length_words_of_splits` first: a text may be cut without
changing its words, unless the cut is inside a word, where it makes one word more. The letters of
the words are those of the text (`flatten_words`), which is what a lost or doubled letter is found
by.
-/

namespace Words

variable {α β : Type*} {p q : α → Bool}

/-- The maximal runs without separators. -/
def words (p : α → Bool) (s : List α) : List (List α) := (s.splitOnP p).filter fun w => !w.isEmpty

@[simp] theorem words_nil : words p [] = [] := rfl

/-- A separator splits the words. -/
theorem words_append_sep {c : α} (hc : p c = true) (xs ys : List α) :
    words p (xs ++ c :: ys) = words p xs ++ words p ys := by
  rw [words, List.splitOnP_append_cons xs ys hc, List.filter_append, words, words]

/-- A separator at the front belongs to no word. -/
theorem words_cons_sep {c : α} (hc : p c = true) (s : List α) : words p (c :: s) = words p s :=
  words_append_sep hc [] s

/-- The cut between `xs` and `ys` is inside a word. -/
def Splits (p : α → Bool) (xs ys : List α) : Prop :=
  ∃ c d, xs.getLast? = some c ∧ ys.head? = some d ∧ p c = false ∧ p d = false

/-- A text may be cut anywhere but inside a word. -/
theorem words_append {xs ys : List α} (h : ¬Splits p xs ys) :
    words p (xs ++ ys) = words p xs ++ words p ys := by
  cases ys with
  | nil => simp
  | cons d ys =>
      cases hd : p d with
      | true => rw [words_append_sep hd, words_cons_sep hd]
      | false =>
          induction xs using List.reverseRecOn with
          | nil => rfl
          | append_singleton xs c _ =>
              cases hc : p c with
              | true =>
                  rw [List.append_assoc, List.singleton_append, words_append_sep hc,
                    words_append_sep hc, words_nil, List.append_nil]
              | false => exact absurd ⟨c, d, by simp, rfl, hc, hd⟩ h

/-- The last letter of a word counts it. -/
theorem length_words_cons (c : α) (s : List α) :
    (words p (c :: s)).length =
      (words p s).length + if !p c && s.head?.all p then 1 else 0 := by
  cases hc : p c with
  | true => simp [words_cons_sep hc]
  | false =>
      cases s with
      | nil => simp [words, List.splitOnP_cons_eq_if_modifyHead, hc]
      | cons d s =>
          cases hd : p d with
          | true => simp [words, List.splitOnP_cons_eq_if_modifyHead, hc, hd]
          | false =>
              obtain ⟨w, ws, hw⟩ := List.exists_cons_of_ne_nil (List.splitOnP_ne_nil p s)
              simp [words, List.splitOnP_cons_eq_if_modifyHead, hc, hd, hw]

/-- A cut inside a word makes two words of it. -/
theorem length_words_of_splits {xs ys : List α} (h : Splits p xs ys) :
    (words p xs).length + (words p ys).length = (words p (xs ++ ys)).length + 1 := by
  obtain ⟨c, d, hlast, hhead, hc, hd⟩ := h
  obtain ⟨ys, rfl⟩ := List.head?_eq_some_iff.mp hhead
  clear hhead
  induction xs with
  | nil => simp at hlast
  | cons x xs ih =>
      rw [List.cons_append, length_words_cons x xs, length_words_cons x]
      cases xs with
      | nil =>
          obtain rfl : x = c := by simpa using hlast
          simp [hc, hd, Nat.add_comm]
      | cons y xs =>
          have hrest := ih (by simpa using hlast)
          rw [List.cons_append] at hrest ⊢
          rw [List.head?_cons, List.head?_cons]
          omega

/-- When the cut of a text at `j`, behind the slice from `i`, is inside a word. -/
theorem splits_slice_iff {s : List α} {i j : Nat} (h : i < j) :
    Splits p ((s.drop i).take (j - i)) (s.drop j) ↔
      ∃ c d, s[j - 1]? = some c ∧ s[j]? = some d ∧ p c = false ∧ p d = false := by
  unfold Splits
  rw [List.head?_drop]
  by_cases hj : j < s.length
  · have hlast : ((s.drop i).take (j - i)).getLast? = s[j - 1]? := by
      have hindex : i + (j - i - 1) = j - 1 := by omega
      rw [List.getLast?_take, if_neg (by omega), List.getElem?_drop, hindex,
        List.getElem?_eq_getElem (by omega), Option.some_or]
    rw [hlast]
  · rw [List.getElem?_eq_none (by omega)]
    simp

/-- Separators alone are no words. -/
theorem words_eq_nil {s : List α} (h : ∀ c ∈ s, p c = true) : words p s = [] := by
  induction s with
  | nil => rfl
  | cons c s ih =>
      rw [List.forall_mem_cons] at h
      rw [words_cons_sep h.1, ih h.2]

/-- Separators in front of a text do not change its words. -/
theorem words_append_of_seps {xs : List α} (h : ∀ c ∈ xs, p c = true) (ys : List α) :
    words p (xs ++ ys) = words p ys := by
  induction xs with
  | nil => rfl
  | cons c xs ih =>
      rw [List.forall_mem_cons] at h
      rw [List.cons_append, words_cons_sep h.1, ih h.2]

/-- Separators behind a text do not change its words. -/
theorem words_append_seps {ys : List α} (h : ∀ c ∈ ys, p c = true) (xs : List α) :
    words p (xs ++ ys) = words p xs := by
  cases ys with
  | nil => rw [List.append_nil]
  | cons c ys =>
      rw [List.forall_mem_cons] at h
      rw [words_append_sep h.1, words_eq_nil h.2, List.append_nil]

/-- Only the separators of the text itself matter. -/
theorem words_congr {s : List α} (h : ∀ c ∈ s, p c = q c) : words p s = words q s := by
  have hsplit : s.splitOnP p = s.splitOnP q := by
    induction s with
    | nil => rfl
    | cons c s ih =>
        rw [List.forall_mem_cons] at h
        rw [List.splitOnP_cons_eq_if_modifyHead, List.splitOnP_cons_eq_if_modifyHead, h.1, ih h.2]
  rw [words, hsplit, words]

/-- The words of a text that is changed letter by letter. -/
theorem words_map (f : β → α) (s : List β) :
    words p (s.map f) = (words (fun c => p (f c)) s).map (List.map f) := by
  have hsplit : (s.map f).splitOnP p = (s.splitOnP fun c => p (f c)).map (List.map f) := by
    induction s with
    | nil => rfl
    | cons c s ih =>
        rw [List.map_cons, List.splitOnP_cons_eq_if_modifyHead, List.splitOnP_cons_eq_if_modifyHead,
          ih]
        split
        · rfl
        · cases s.splitOnP fun c => p (f c) <;> simp
  rw [words, hsplit, words, List.filter_map]
  simp [Function.comp_def]

/-- Dropping separators from the front does not change the words. -/
theorem words_drop_while {r : α → Bool} {s : List α} (h : ∀ c ∈ s, r c = true → p c = true) :
    words p (s.dropWhile r) = words p s := by
  induction s with
  | nil => rfl
  | cons c s ih =>
      rw [List.forall_mem_cons] at h
      by_cases hc : r c = true
      · rw [List.dropWhile_cons_of_pos hc, ih h.2, words_cons_sep (h.1 hc)]
      · rw [List.dropWhile_cons_of_neg hc]

/-- Dropping separators from the end does not change the words. -/
theorem words_rdrop_while {r : α → Bool} {s : List α} (h : ∀ c ∈ s, r c = true → p c = true) :
    words p (s.rdropWhile r) = words p s := by
  induction s using List.reverseRecOn with
  | nil => rfl
  | append_singleton s c ih =>
      by_cases hc : r c = true
      · have hsep : p c = true := h c (by simp) hc
        rw [List.rdropWhile_concat_pos _ _ _ hc, words_append_sep hsep,
          ih fun d hd => h d (List.mem_append_left _ hd)]
        simp
      · rw [List.rdropWhile_concat_neg _ _ _ hc]

/-- Letters in front of a text lengthen its first word. -/
theorem split_on_append {w : List α} (hw : ∀ c ∈ w, p c = false) (s : List α) :
    (w ++ s).splitOnP p = (s.splitOnP p).modifyHead (w ++ ·) := by
  induction w with
  | nil =>
      rw [List.nil_append]
      cases s.splitOnP p <;> rfl
  | cons c w ih =>
      rw [List.forall_mem_cons] at hw
      rw [List.cons_append, List.splitOnP_cons_eq_if_modifyHead, hw.1, ih hw.2]
      cases s.splitOnP p <;> simp

/-- A text without separators is one word. -/
theorem words_run {w : List α} (hne : w ≠ []) (hw : ∀ c ∈ w, p c = false) : words p w = [w] := by
  have hsplit : w.splitOnP p = [w] := by
    have happend := split_on_append hw []
    rw [List.append_nil] at happend
    rw [happend, List.splitOnP_nil]
    simp
  rw [words, hsplit]
  simp [hne]

/-- A run without separators inside a text is no longer than some word of it. -/
theorem exists_word_of_run {w : List α} (hw : ∀ c ∈ w, p c = false) (hne : w ≠ [])
    (xs ys : List α) : ∃ v ∈ words p (xs ++ (w ++ ys)), w.length ≤ v.length := by
  have hpiece : ∃ v ∈ (xs ++ (w ++ ys)).splitOnP p, w.length ≤ v.length := by
    induction xs with
    | nil =>
        obtain ⟨v, vs, hv⟩ := List.exists_cons_of_ne_nil (List.splitOnP_ne_nil p ys)
        refine ⟨w ++ v, ?_, by simp⟩
        rw [List.nil_append, split_on_append hw, hv]
        simp
    | cons x xs ih =>
        obtain ⟨v, hv, hle⟩ := ih
        rw [List.cons_append, List.splitOnP_cons_eq_if_modifyHead]
        cases hx : p x with
        | true => exact ⟨v, List.mem_cons_of_mem _ hv, hle⟩
        | false =>
            obtain ⟨u, us, hu⟩ := List.exists_cons_of_ne_nil
              (List.splitOnP_ne_nil p (xs ++ (w ++ ys)))
            rw [hu] at hv ⊢
            -- the first word gets longer by `x`, the others stay
            rcases List.mem_cons.mp hv with rfl | hv
            · exact ⟨x :: v, by simp, Nat.le_succ_of_le hle⟩
            · exact ⟨v, by simp [hv], hle⟩
  obtain ⟨v, hv, hle⟩ := hpiece
  have hpos : 0 < w.length := List.length_pos_of_ne_nil hne
  refine ⟨v, List.mem_filter.mpr ⟨hv, ?_⟩, hle⟩
  cases v with
  | nil => exact absurd hle (Nat.not_le.mpr hpos)
  | cons c v => rfl

/-- The letters of the words are the letters of the text. -/
theorem flatten_words (s : List α) : (words p s).flatten = s.filter fun c => !p c := by
  have hflat : (s.splitOnP p).flatten = s.filter fun c => !p c := by
    induction s with
    | nil => rfl
    | cons c s ih =>
        rw [List.splitOnP_cons_eq_if_modifyHead, List.filter_cons, ← ih]
        cases hc : p c with
        | true => simp
        | false =>
            obtain ⟨w, ws, hw⟩ := List.exists_cons_of_ne_nil (List.splitOnP_ne_nil p s)
            simp [hw]
  rw [← hflat, words]
  induction s.splitOnP p with
  | nil => rfl
  | cons w ws ih => cases w <;> simp [ih]

/-- The letters of a word are no separators. -/
theorem sep_of_mem_word {s w : List α} (hw : w ∈ words p s) {c : α} (hc : c ∈ w) :
    c ∈ s ∧ p c = false := by
  have hletter : c ∈ (words p s).flatten := List.mem_flatten.mpr ⟨w, hw, hc⟩
  rw [flatten_words] at hletter
  simpa using List.mem_filter.mp hletter

/-- A text without words has separators only. -/
theorem words_eq_nil_iff {s : List α} : words p s = [] ↔ ∀ c ∈ s, p c = true := by
  refine ⟨fun h c hc => ?_, words_eq_nil⟩
  have hletters : s.filter (fun c => !p c) = [] := by rw [← flatten_words, h]; rfl
  simpa using List.filter_eq_nil_iff.mp hletters c hc

end Words
