import MapReduce.Library.Words
import MapReduce.Worker.Scripts

/-!
# The words of the map function

`mapfunc` reads a file by lines, strips each line, makes it lower case, turns punctuation into
spaces and splits it at spaces. On a plain text none of this moves a word boundary: the words it
counts are the maximal runs of letters and digits of the text, in lower case (`map_words_eq`).
-/

namespace MapReduce

open Words

/-! ## Plain text -/

/-- The characters of a plain text: letters and digits, spaces, line ends and punctuation. -/
def isPlain (c : Char) : Bool :=
  c.toNat < 128 &&
    (c.isAlphanum || c = ' ' || c = '\n' || c = '\r' || PyText.isPunctuation c)

/-- ASCII text of words that only spaces, line ends and punctuation separate. -/
def PlainText (s : Str) : Prop := ∀ c ∈ s, isPlain c = true

instance (s : Str) : Decidable (PlainText s) := List.decidableBAll (fun c => isPlain c = true) s

/-- What is neither a letter nor a digit ends a word. -/
def endsWord (c : Char) : Bool := !c.isAlphanum

/-- What `mapfunc` makes of a character of a line. -/
def normalize (c : Char) : Char :=
  if PyText.isPunctuation c.toLower then ' ' else c.toLower

/-- Line ends apart, `mapfunc` splits a plain text where a word ends. -/
theorem normalize_eq_space {c : Char} (hc : isPlain c = true) (hn : c ≠ '\n') (hr : c ≠ '\r') :
    (normalize c == ' ') = endsWord c := by
  have hlt : c.toNat < 128 := by
    simp only [isPlain, Bool.and_eq_true, decide_eq_true_eq] at hc
    exact hc.1
  refine PyText.forall_ascii (P := fun c => isPlain c = true → c ≠ '\n' → c ≠ '\r' →
    (normalize c == ' ') = endsWord c) ?_ hlt hc hn hr
  decide

/-- The codes of the letters and digits. -/
theorem alphanum_codes {c : Char} (h : c.isAlphanum = true) :
    (65 ≤ c.toNat ∧ c.toNat ≤ 90) ∨ (97 ≤ c.toNat ∧ c.toNat ≤ 122) ∨
      (48 ≤ c.toNat ∧ c.toNat ≤ 57) := by
  have hcodes : (decide (c.val ≥ 65 ∧ c.val ≤ 90) || (c.val ≥ 97 && c.val ≤ 122) ||
      (c.val ≥ 48 && c.val ≤ 57)) = true := h
  simp only [Bool.or_eq_true, Bool.and_eq_true, decide_eq_true_eq, ge_iff_le,
    UInt32.le_iff_toNat_le] at hcodes
  exact or_assoc.mp hcodes

/-- White space ends a word. -/
theorem ends_word_of_space {c : Char} (h : PyText.isSpace c = true) : endsWord c = true := by
  by_contra hletter
  rw [endsWord, Bool.not_eq_true', Bool.not_eq_false] at hletter
  have hcodes := alphanum_codes hletter
  simp only [PyText.isSpace, Bool.or_eq_true, Bool.and_eq_true, decide_eq_true_eq] at h
  omega

/-! ## Lines -/

/-- The words of a line, whose newline is stripped. -/
theorem line_words_newline (line : Str) : lineWords (line ++ ['\n']) = lineWords line := by
  unfold lineWords
  rw [PyText.strip_append_newline]

/-- The words of a line are those of its normalized characters, which spaces separate. -/
theorem line_words_normalize (line : Str) :
    lineWords line = words (· == ' ') ((PyText.strip line).map normalize) := by
  simp only [lineWords, words, PyText.lower, List.map_map, List.splitOn]
  congr 1
  funext w
  cases w <;> simp

/-- The words of a plain line. -/
theorem line_words_eq {line : Str} (h : PlainText line) (hn : '\n' ∉ line) (hr : '\r' ∉ line) :
    lineWords line = (words endsWord line).map (List.map normalize) := by
  have hends : words (fun c => normalize c == ' ') (PyText.strip line) =
      words endsWord (PyText.strip line) := by
    refine words_congr fun c hc => ?_
    have hline := PyText.mem_of_mem_strip hc
    exact normalize_eq_space (h c hline) (fun heq => hn (heq ▸ hline)) fun heq => hr (heq ▸ hline)
  rw [line_words_normalize, words_map, hends, PyText.strip,
    words_rdrop_while fun c _ => ends_word_of_space,
    words_drop_while fun c _ => ends_word_of_space]

/-- The words of the lines of a plain text. -/
theorem lines_words_eq (n : Nat) {s : Str} (hlen : s.length ≤ n) (h : PlainText s)
    (hr : '\r' ∉ s) :
    (PyText.lines s).flatMap lineWords = (words endsWord s).map (List.map normalize) := by
  induction n generalizing s with
  | zero =>
      rw [List.eq_nil_of_length_eq_zero (Nat.le_zero.mp hlen)]
      rfl
  | succ n ih =>
      by_cases hn : '\n' ∈ s
      · obtain ⟨line, rest, rfl, hline⟩ := List.eq_append_cons_of_mem hn
        simp only [PlainText, List.forall_mem_append, List.forall_mem_cons] at h
        simp only [List.mem_append, List.mem_cons, not_or] at hr
        simp only [List.length_append, List.length_cons] at hlen
        rw [PyText.lines_append hline, List.flatMap_cons, line_words_newline,
          line_words_eq h.1 hline hr.1, ih (by omega) h.2.2 hr.2.2,
          words_append_sep (by decide), List.map_append]
      · by_cases hne : s = []
        · rw [hne]
          rfl
        · rw [PyText.lines_eq_singleton hn hne, List.flatMap_singleton, line_words_eq h hn hr]

/-- Reading line ends as newlines keeps the words. -/
theorem words_universal_newlines (xs s : Str) :
    words endsWord (xs ++ PyText.universalNewlines s) = words endsWord (xs ++ s) := by
  have hn : endsWord '\n' = true := by decide
  have hr : endsWord '\r' = true := by decide
  fun_induction PyText.universalNewlines s generalizing xs with
  | case1 => rfl
  | case2 cs ih =>
      rw [words_append_sep hn, words_append_sep hr, words_cons_sep hn]
      exact congrArg (words endsWord xs ++ ·) (ih [])
  | case3 cs _ ih =>
      rw [words_append_sep hn, words_append_sep hr]
      exact congrArg (words endsWord xs ++ ·) (ih [])
  | case4 c cs _ _ ih =>
      rw [← List.singleton_append, ← List.append_assoc, ih, List.append_assoc,
        List.singleton_append]

/-! ## Counting -/

/-- The words `mapfunc` counts. -/
def mapWords (content : Str) : List Str := (PyText.readlines content).flatMap lineWords

/-- The words `mapfunc` counts in a plain text. -/
theorem map_words_eq {s : Str} (h : PlainText s) :
    mapWords s = (words endsWord s).map (List.map normalize) := by
  have hplain : PlainText (PyText.universalNewlines s) := by
    intro c hc
    rcases (PyText.mem_universal_newlines hc).1 with rfl | hmem
    · decide
    · exact h c hmem
  have hr : '\r' ∉ PyText.universalNewlines s := fun hc => (PyText.mem_universal_newlines hc).2 rfl
  have hwords : words endsWord (PyText.universalNewlines s) = words endsWord s :=
    words_universal_newlines [] s
  rw [mapWords, PyText.readlines, lines_words_eq _ le_rfl hplain hr, hwords]

/-- The sum of ones. -/
theorem total_ones (ws : List Str) (w : Str) :
    Dict.total (ws.map fun w => (w, (1 : Int))) w = ws.count w := by
  induction ws with
  | nil => rfl
  | cons v ws ih =>
      rw [List.map_cons, Dict.total_cons, ih, List.count_cons]
      by_cases hv : v = w <;> simp [hv, add_comm]

/-- `mapfunc` counts the words. -/
theorem get_mapfunc (content w : Str) : (mapfunc content).get w = (mapWords content).count w := by
  rw [mapfunc_eq, Dict.get_add_all, ← mapWords, total_ones]
  exact zero_add _

/-- The keys of `mapfunc` are the words. -/
theorem mem_keys_mapfunc {content w : Str} : w ∈ (mapfunc content).keys ↔ w ∈ mapWords content := by
  rw [mapfunc_eq, Dict.mem_keys_add_all, ← mapWords]
  simp [Dict.keys, Dict.empty]

/-- The counts of texts add up to those of another exactly if they have its words, in some order. -/
theorem is_sum_mapfunc_iff {texts : List Str} {content : Str} :
    Dict.IsSum (texts.map mapfunc) (mapfunc content) ↔
      (texts.flatMap mapWords).Perm (mapWords content) := by
  have hcount : ∀ w, ((texts.map mapfunc).map fun d => d.get w).sum =
      ((texts.flatMap mapWords).count w : Int) := by
    intro w
    induction texts with
    | nil => rfl
    | cons text texts ih =>
        rw [List.map_cons, List.map_cons, List.sum_cons, ih, List.flatMap_cons, List.count_append,
          get_mapfunc, Int.natCast_add]
  rw [List.perm_iff_count]
  constructor
  · intro hsum w
    have hget := (hsum w).2
    rw [hcount, get_mapfunc] at hget
    exact_mod_cast hget.symm
  · intro hsame w
    refine ⟨?_, by rw [hcount, get_mapfunc, hsame w]⟩
    rw [mem_keys_mapfunc, ← List.count_pos_iff, ← hsame w, List.count_pos_iff, List.mem_flatMap]
    simp [mem_keys_mapfunc]

end MapReduce
