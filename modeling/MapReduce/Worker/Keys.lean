import MapReduce.Worker.MapWords
import MapReduce.Worker.Streams

/-!
# Keys between map and reduce

`stream_to_file` writes the `repr` of a key, and `reducefunc` deletes the punctuation of what it
reads. That takes the quotes away again, but of an escaped character it leaves the letters and
digits of the escape: the key of a word with a tab is read back as another word
(`tab_merges_keys`). Read `keys_kept_iff` first: on ASCII text the keys come back exactly if no
line has a control character between its first and last character that is no white space.
-/

namespace MapReduce

open Words

/-- The control characters of ASCII, which `repr` escapes. -/
def isControl (c : Char) : Bool := c.toNat < 32 || c.toNat = 127

/-- The key `reducefunc` reads from the line that is written for an entry. -/
def recoveredKey (unicodePrintable : Char → Bool) (e : Str × Int) : Option Str :=
  (parseLine (entryLine unicodePrintable e)).map Prod.fst

section Keys

variable {unicodePrintable : Char → Bool}

/-! ## Characters -/

/-- `mapfunc` leaves a control character as it is. -/
theorem normalize_control {c : Char} (h : isControl c = true) : normalize c = c := by
  have hlt : c.toNat < 128 := by
    simp only [isControl, Bool.or_eq_true, decide_eq_true_eq] at h
    omega
  refine PyText.forall_ascii (P := fun c => isControl c = true → normalize c = c) ?_ hlt h
  decide

/-- A control character is not printable. -/
theorem printable_control {c : Char} (h : isControl c = true) :
    PyText.isPrintable unicodePrintable c = false := by
  simp only [isControl, Bool.or_eq_true, decide_eq_true_eq] at h
  rw [PyText.isPrintable, if_pos (by omega)]
  simp only [Bool.and_eq_false_iff, decide_eq_false_iff_not]
  omega

/-- What `mapfunc` makes of the other characters of ASCII is printable and no punctuation. -/
theorem normalize_plain (unicodePrintable : Char → Bool) {c : Char} (hlt : c.toNat < 128)
    (h : isControl c = false) :
    PyText.isPrintable unicodePrintable (normalize c) = true ∧
      PyText.isPunctuation (normalize c) = false := by
  have hcodes : (normalize c).toNat < 128 ∧ 32 ≤ (normalize c).toNat ∧
      (normalize c).toNat < 127 ∧ PyText.isPunctuation (normalize c) = false := by
    refine PyText.forall_ascii (P := fun c => isControl c = false → (normalize c).toNat < 128 ∧
      32 ≤ (normalize c).toNat ∧ (normalize c).toNat < 127 ∧
      PyText.isPunctuation (normalize c) = false) ?_ hlt h
    decide
  obtain ⟨hascii, hlow, hhigh, hpunct⟩ := hcodes
  refine ⟨?_, hpunct⟩
  rw [PyText.isPrintable, if_pos hascii]
  simp [hlow, hhigh]

/-! ## Words -/

/-- A control character inside a line is in a word of it. -/
theorem control_in_word {line : Str} {c : Char} (hc : c ∈ PyText.strip line)
    (h : isControl c = true) : ∃ w ∈ lineWords line, c ∈ w := by
  have hspace : (c == ' ') = false := by
    rw [beq_eq_false_iff_ne]
    intro heq
    rw [heq] at h
    exact absurd h (by decide)
  have hmem : c ∈ (PyText.strip line).map normalize :=
    List.mem_map.mpr ⟨c, hc, normalize_control h⟩
  have hletter : c ∈ (lineWords line).flatten := by
    rw [line_words_normalize, flatten_words]
    exact List.mem_filter.mpr ⟨hmem, by simp [hspace]⟩
  exact List.mem_flatten.mp hletter

/-- The words of a line of ASCII text without control characters inside it are plain keys. -/
theorem plain_key_of_line {line w : Str} (hascii : ∀ c ∈ line, c.toNat < 128)
    (h : ∀ c ∈ PyText.strip line, isControl c = false) (hw : w ∈ lineWords line) :
    PlainKey unicodePrintable w := by
  rw [line_words_normalize] at hw
  have hne : w ≠ [] := by
    have hfilter := (List.mem_filter.mp hw).2
    simpa using hfilter
  refine ⟨hne, ?_⟩
  intro d hd
  obtain ⟨hmem, hspace⟩ := sep_of_mem_word hw hd
  obtain ⟨c, hc, rfl⟩ := List.mem_map.mp hmem
  obtain ⟨hprintable, hpunct⟩ := normalize_plain unicodePrintable
    (hascii c (PyText.mem_of_mem_strip hc)) (h c hc)
  exact ⟨hprintable, by simpa using hspace, hpunct⟩

/-- The words `mapfunc` counts have no punctuation. -/
theorem punctuation_not_in_word {content w : Str} (hw : w ∈ mapWords content) {c : Char}
    (hc : c ∈ w) : PyText.isPunctuation c = false := by
  obtain ⟨line, -, hw⟩ := List.mem_flatMap.mp hw
  rw [line_words_normalize] at hw
  obtain ⟨d, -, rfl⟩ := List.mem_map.mp (sep_of_mem_word hw hc).1
  unfold normalize
  split
  · rfl
  · next hpunct => simpa using hpunct

/-! ## Reading keys back -/

/-- The entries of `mapfunc` are those of its words. -/
theorem exists_entry_iff {content w : Str} :
    (∃ e ∈ (mapfunc content).entries, e.1 = w) ↔ w ∈ mapWords content := by
  rw [← mem_keys_mapfunc]
  exact List.mem_map.symm

/-- `reducefunc` reads printable characters only. -/
theorem recovered_key_printable {e : Str × Int} {k : Str} (hcolon : ':' ∉ e.1)
    (h : recoveredKey unicodePrintable e = some k) {c : Char} (hc : c ∈ k) :
    PyText.isPrintable unicodePrintable c = true := by
  rw [recoveredKey, parse_entry_line hcolon, Option.map_some, Option.some_inj] at h
  rw [← h] at hc
  have hmem := (List.mem_filter.mp hc).1
  rcases PyText.mem_repr hmem with rfl | rfl | ⟨-, hprintable⟩ | hescape
  · rfl
  · rfl
  · exact hprintable
  · have hcodes : ∀ d ∈ PyText.escapeChars, d.toNat < 128 ∧ 32 ≤ d.toNat ∧ d.toNat < 127 :=
      List.forall_mem_iff_forall_getElem.mpr (by decide)
    obtain ⟨hascii, hlow, hhigh⟩ := hcodes c hescape
    rw [PyText.isPrintable, if_pos hascii]
    simp [hlow, hhigh]

/-- Every key `mapfunc` returns for an ASCII text is read back as itself, and two keys as two keys,
exactly if the text has no control characters inside its lines. -/
theorem keys_kept_iff (unicodePrintable : Char → Bool) {content : Str}
    (hascii : ∀ c ∈ content, c.toNat < 128) :
    (∀ e ∈ (mapfunc content).entries, recoveredKey unicodePrintable e = some e.1 ∧
      ∀ e' ∈ (mapfunc content).entries, e'.1 ≠ e.1 →
        recoveredKey unicodePrintable e' ≠ recoveredKey unicodePrintable e) ↔
      ∀ line ∈ PyText.readlines content, ∀ c ∈ PyText.strip line, isControl c = false := by
  constructor
  · intro hkept line hline c hc
    by_contra hcontrol
    rw [Bool.not_eq_false] at hcontrol
    -- the character is in a key, which cannot come back, since only printable characters do
    obtain ⟨w, hw, hcw⟩ := control_in_word hc hcontrol
    have hword : w ∈ mapWords content := List.mem_flatMap.mpr ⟨line, hline, hw⟩
    obtain ⟨e, he, rfl⟩ := exists_entry_iff.mpr hword
    have hcolon : ':' ∉ e.1 := by
      intro hmem
      exact absurd (punctuation_not_in_word hword hmem) (by decide)
    have hprintable := recovered_key_printable hcolon (hkept e he).1 hcw
    rw [printable_control hcontrol] at hprintable
    cases hprintable
  · intro hplain
    have hrecovered : ∀ e ∈ (mapfunc content).entries,
        recoveredKey unicodePrintable e = some e.1 := by
      intro e he
      have hword : e.1 ∈ mapWords content := exists_entry_iff.mp ⟨e, he, rfl⟩
      obtain ⟨line, hline, hw⟩ := List.mem_flatMap.mp hword
      have hcodes : ∀ c ∈ line, c.toNat < 128 := by
        intro c hc
        rcases PyText.mem_of_mem_readlines hline hc with rfl | hmem
        · decide
        · exact hascii c hmem
      have hkey : PlainKey unicodePrintable e.1 :=
        plain_key_of_line hcodes (hplain line hline) hw
      rw [recoveredKey, hkey.parse_line, Option.map_some]
    intro e he
    refine ⟨hrecovered e he, ?_⟩
    intro e' he' hne heq
    rw [hrecovered e he, hrecovered e' he', Option.some_inj] at heq
    exact hne heq

/-- Two words and a line end. -/
theorem keys_kept_two_words :
    (∀ c ∈ "Map, reduce\n".toList, c.toNat < 128) ∧
      ∀ e ∈ (mapfunc "Map, reduce\n".toList).entries,
        recoveredKey (fun _ => true) e = some e.1 ∧
        ∀ e' ∈ (mapfunc "Map, reduce\n".toList).entries, e'.1 ≠ e.1 →
          recoveredKey (fun _ => true) e' ≠ recoveredKey (fun _ => true) e := by
  have hascii : ∀ c ∈ "Map, reduce\n".toList, c.toNat < 128 := by simp
  have hplain : (PyText.readlines "Map, reduce\n".toList).all
      (fun line => (PyText.strip line).all fun c => !isControl c) = true := by
    decide
  refine ⟨hascii, (keys_kept_iff _ hascii).mpr ?_⟩
  intro line hline c hc
  have hc' := List.all_eq_true.mp (List.all_eq_true.mp hplain line hline) c hc
  simpa using hc'

/-- A word with a tab and the word `atb` are two keys of `mapfunc`, and `reducefunc` reads both as
`atb`. -/
theorem tab_merges_keys :
    (∀ c ∈ "a\tb atb".toList, c.toNat < 128) ∧
      ∃ e ∈ (mapfunc "a\tb atb".toList).entries, ∃ e' ∈ (mapfunc "a\tb atb".toList).entries,
        e'.1 ≠ e.1 ∧ recoveredKey (fun _ => true) e ≠ some e.1 ∧
        recoveredKey (fun _ => true) e' = recoveredKey (fun _ => true) e := by
  refine ⟨by simp, ("a\tb".toList, 1), ?_, ("atb".toList, 1), ?_, ?_, ?_, ?_⟩
  · decide
  · decide
  · decide
  · decide +kernel
  · decide +kernel

end Keys

end MapReduce
