import Mathlib.Algebra.Group.Nat.Defs
import Mathlib.Data.Char
import Mathlib.Data.List.DropRight
import Mathlib.Data.List.Lex
import Mathlib.Data.List.Sort
import MapReduce.Library.Decimal

/-!
# Python text

The string and text file operations of Python that a script on ASCII text uses, on lists of
characters: `str.strip`, `str.lower`, `str.split`, `string.punctuation`, `repr`, `int`, and
reading a file by lines with universal newlines. Lower case is that of ASCII; which characters
outside ASCII are printable is a parameter of `repr`.
-/

namespace PyText

/-! ## Characters -/

/-- `str.isspace`, for one character. -/
def isSpace (c : Char) : Bool :=
  let n := c.toNat
  (9 ≤ n && n ≤ 13) || (28 ≤ n && n ≤ 32) || n = 0x85 || n = 0xa0 || n = 0x1680 ||
    (0x2000 ≤ n && n ≤ 0x200a) || n = 0x2028 || n = 0x2029 || n = 0x202f || n = 0x205f ||
    n = 0x3000

/-- The characters of `string.punctuation`. -/
def isPunctuation (c : Char) : Bool :=
  let n := c.toNat
  (33 ≤ n && n ≤ 47) || (58 ≤ n && n ≤ 64) || (91 ≤ n && n ≤ 96) || (123 ≤ n && n ≤ 126)

/-- `str.isprintable`, for one character. -/
def isPrintable (unicodePrintable : Char → Bool) (c : Char) : Bool :=
  if c.toNat < 128 then 32 ≤ c.toNat && c.toNat < 127 else unicodePrintable c

/-! ## Strings -/

/-- `str.strip`. -/
def strip (s : List Char) : List Char := (s.dropWhile isSpace).rdropWhile isSpace

/-- `str.lower` on ASCII text. -/
def lower (s : List Char) : List Char := s.map Char.toLower

/-- `int`: white space around the number is ignored, and single underscores between digits are
allowed. It raises on any other text. -/
def int (s : List Char) : Option Int :=
  let (negative, cs) := Decimal.splitSign (strip s)
  if (cs.splitOn '_').all fun ds => !ds.isEmpty && ds.all Char.isDigit then
    some (Decimal.ofDigits negative (cs.filter (· ≠ '_')))
  else none

/-- The `width` last hexadecimal digits of a number. -/
def hex (width n : Nat) : List Char :=
  ((List.range width).map fun i => Nat.digitChar (n / 16 ^ i % 16)).reverse

/-- A character as `repr` writes it between quotes. -/
def reprChar (unicodePrintable : Char → Bool) (quote c : Char) : List Char :=
  if c = quote ∨ c = '\\' then ['\\', c]
  else if c = '\t' then ['\\', 't']
  else if c = '\n' then ['\\', 'n']
  else if c = '\r' then ['\\', 'r']
  else if isPrintable unicodePrintable c then [c]
  else if c.toNat ≤ 0xff then '\\' :: 'x' :: hex 2 c.toNat
  else if c.toNat ≤ 0xffff then '\\' :: 'u' :: hex 4 c.toNat
  else '\\' :: 'U' :: hex 8 c.toNat

/-- `repr` of a string: in single quotes, unless it holds a single quote and no double one. -/
def repr (unicodePrintable : Char → Bool) (s : List Char) : List Char :=
  let quote := if '\'' ∈ s ∧ '"' ∉ s then '"' else '\''
  quote :: s.flatMap (reprChar unicodePrintable quote) ++ [quote]

/-! ## Files -/

/-- Universal newlines: `\r\n` and `\r` are read as `\n`. -/
def universalNewlines : List Char → List Char
  | [] => []
  | '\r' :: '\n' :: cs => '\n' :: universalNewlines cs
  | '\r' :: cs => '\n' :: universalNewlines cs
  | c :: cs => c :: universalNewlines cs

/-- The lines of a text, each with the newline that ends it. -/
def lines : List Char → List (List Char)
  | [] => []
  | c :: cs =>
      if c = '\n' then ['\n'] :: lines cs
      else match lines cs with
        | [] => [[c]]
        | l :: ls => (c :: l) :: ls

/-- `readlines` of a file opened in text mode. -/
def readlines (content : List Char) : List (List Char) := lines (universalNewlines content)

/-- `sorted` of a list of strings. -/
def sorted (ls : List (List Char)) : List (List Char) := ls.insertionSort (· ≤ ·)

/-- What holds of all codes below 128 holds of the ASCII characters. -/
theorem forall_ascii {P : Char → Prop} (h : ∀ n < 128, P (Char.ofNat n)) {c : Char}
    (hc : c.toNat < 128) : P c := by
  rw [← Char.ofNat_toNat c]
  exact h c.toNat hc

/-! ## Lines -/

/-- A text without carriage returns is read as it is. -/
theorem universal_newlines_eq {s : List Char} (h : '\r' ∉ s) : universalNewlines s = s := by
  fun_induction universalNewlines s with
  | case1 => rfl
  | case2 cs ih => simp at h
  | case3 cs _ ih => simp at h
  | case4 c cs _ _ ih => rw [ih fun hmem => h (List.mem_cons_of_mem c hmem)]

/-- A carriage return is never read, and nothing but newlines is new. -/
theorem mem_universal_newlines {s : List Char} {c : Char} (h : c ∈ universalNewlines s) :
    (c = '\n' ∨ c ∈ s) ∧ c ≠ '\r' := by
  fun_induction universalNewlines s with
  | case1 => cases h
  | case2 cs ih =>
      rcases List.mem_cons.mp h with rfl | h
      · simp
      · exact ⟨(ih h).1.imp_right fun hmem => by simp [hmem], (ih h).2⟩
  | case3 cs _ ih =>
      rcases List.mem_cons.mp h with rfl | h
      · simp
      · exact ⟨(ih h).1.imp_right (List.mem_cons_of_mem _), (ih h).2⟩
  | case4 d cs _ hd ih =>
      rcases List.mem_cons.mp h with rfl | h
      · exact ⟨.inr List.mem_cons_self, hd⟩
      · exact ⟨(ih h).1.imp_right (List.mem_cons_of_mem _), (ih h).2⟩

/-- A newline ends the first line. -/
theorem lines_append {l s : List Char} (h : '\n' ∉ l) :
    lines (l ++ '\n' :: s) = (l ++ ['\n']) :: lines s := by
  induction l with
  | nil => simp [lines]
  | cons c l ih =>
      have hc : c ≠ '\n' := fun heq => h (heq ▸ List.mem_cons_self)
      rw [List.cons_append, lines, if_neg hc, ih fun hmem => h (List.mem_cons_of_mem c hmem)]
      rfl

/-- A text without newlines is one line, unless it is empty. -/
theorem lines_eq_singleton {s : List Char} (h : '\n' ∉ s) (hne : s ≠ []) : lines s = [s] := by
  induction s with
  | nil => exact absurd rfl hne
  | cons c s ih =>
      have hc : c ≠ '\n' := fun heq => h (heq ▸ List.mem_cons_self)
      rw [lines, if_neg hc]
      cases s with
      | nil => rfl
      | cons d s => rw [ih (fun hmem => h (List.mem_cons_of_mem c hmem)) (by simp)]

/-- Lines written one after the other are read back. -/
theorem lines_flatten {ls : List (List Char)} (h : ∀ l ∈ ls, '\n' ∉ l) :
    lines (ls.flatMap fun l => l ++ ['\n']) = ls.map fun l => l ++ ['\n'] := by
  induction ls with
  | nil => rfl
  | cons l ls ih =>
      rw [List.forall_mem_cons] at h
      rw [List.flatMap_cons, List.append_assoc, List.singleton_append, lines_append h.1, ih h.2,
        List.map_cons]

/-- Lines only have characters of the text. -/
theorem mem_of_mem_lines {s l : List Char} (hl : l ∈ lines s) {c : Char} (hc : c ∈ l) : c ∈ s := by
  have hflat : (lines s).flatten = s := by
    clear hl
    induction s with
    | nil => rfl
    | cons d s ih =>
        rw [lines]
        split
        · next hd => rw [List.flatten_cons, ih, hd, List.singleton_append]
        · cases hs : lines s with
          | nil =>
              rw [hs] at ih
              rw [← ih]
              rfl
          | cons l ls =>
              rw [hs] at ih
              exact congrArg (d :: ·) ih
  rw [← hflat]
  exact List.mem_flatten.mpr ⟨l, hl, hc⟩

/-- The lines that are read have characters of the text, and newlines. -/
theorem mem_of_mem_readlines {s l : List Char} (hl : l ∈ readlines s) {c : Char} (hc : c ∈ l) :
    c = '\n' ∨ c ∈ s :=
  (mem_universal_newlines (mem_of_mem_lines hl hc)).1

/-! ## Stripping and numbers -/

/-- Digits are no white space. -/
theorem is_space_of_digit {c : Char} (h : c.isDigit = true) : isSpace c = false := by
  have hrange : 48 ≤ c.toNat ∧ c.toNat ≤ 57 := by
    simpa using Char.isDigit_iff_toNat.mp h
  simp only [isSpace, Bool.or_eq_false_iff, Bool.and_eq_false_iff, decide_eq_false_iff_not]
  omega

/-- Stripping only takes characters away. -/
theorem mem_of_mem_strip {s : List Char} {c : Char} (h : c ∈ strip s) : c ∈ s :=
  (List.dropWhile_sublist _).mem ((List.rdropWhile_prefix _ _).mem h)

/-- A newline at the end is stripped. -/
theorem strip_append_newline (s : List Char) : strip (s ++ ['\n']) = strip s := by
  have hnewline : isSpace '\n' = true := by decide
  unfold strip
  rw [List.dropWhile_append]
  split
  · next hempty =>
    rw [List.isEmpty_iff.mp hempty]
    rfl
  · rw [List.rdropWhile_concat_pos _ _ _ hnewline]

/-- A text without white space, before a newline. -/
theorem strip_newline {s : List Char} (h : ∀ c ∈ s, isSpace c = false) :
    strip (s ++ ['\n']) = s := by
  have hfront : s.dropWhile isSpace = s := List.dropWhile_eq_self_iff.mpr (by simp +contextual [h])
  rw [strip_append_newline, strip, hfront, List.rdropWhile_eq_self_iff]
  intro hne
  simpa using h _ (List.getLast_mem hne)

/-- `int` reads back a number that a newline follows. -/
theorem int_of_int (i : Int) : int (Decimal.ofInt i ++ ['\n']) = some i := by
  obtain ⟨negative, ds, hsplit, hne, hdigits, hi⟩ := Decimal.split_sign_of_int i
  have hspace : ∀ c ∈ Decimal.ofInt i, isSpace c = false := by
    intro c hc
    rcases Decimal.mem_of_int hc with hdigit | rfl
    · exact is_space_of_digit hdigit
    · rfl
  have hunderscore : '_' ∉ ds := fun hmem => absurd (hdigits '_' hmem) (by decide)
  have hall : ds.filter (· ≠ '_') = ds := by
    rw [List.filter_eq_self]
    intro c hc
    have hneq : c ≠ '_' := fun heq => hunderscore (heq ▸ hc)
    simpa using hneq
  unfold int
  rw [strip_newline hspace, hsplit]
  simp only [List.splitOn_eq_singleton hunderscore, List.all_cons, List.all_nil, Bool.and_true]
  rw [if_pos (by simpa [hne] using hdigits), hall, hi]

/-! ## `repr` -/

/-- What `repr` writes for a character that it does not leave as it is. -/
def escapeChars : List Char := "\\tnrxuU0123456789abcdef".toList

/-- A hexadecimal digit may stand in an escape. -/
theorem mem_escape_of_hex {width n : Nat} {c : Char} (h : c ∈ hex width n) : c ∈ escapeChars := by
  have hdigit : ∀ k < 16, Nat.digitChar k ∈ escapeChars := by decide
  simp only [hex, List.mem_reverse, List.mem_map] at h
  obtain ⟨i, -, rfl⟩ := h
  exact hdigit _ (Nat.mod_lt _ (by decide))

/-- `repr` leaves a quote or a printable character as it is, and escapes the others. -/
theorem mem_repr_char {unicodePrintable : Char → Bool} {quote c d : Char}
    (h : d ∈ reprChar unicodePrintable quote c) :
    d = c ∧ (c = quote ∨ isPrintable unicodePrintable c = true) ∨ d ∈ escapeChars := by
  have hslash : '\\' ∈ escapeChars := by decide
  have hescape : ∀ (x : Char) (ds : List Char), x ∈ escapeChars →
      (∀ y ∈ ds, y ∈ escapeChars) → d ∈ '\\' :: x :: ds → d ∈ escapeChars := by
    intro x ds hx hds hd
    rcases List.mem_cons.mp hd with rfl | hd
    · exact hslash
    · rcases List.mem_cons.mp hd with rfl | hd
      · exact hx
      · exact hds d hd
  unfold reprChar at h
  split at h
  · next hc =>
      rcases List.mem_cons.mp h with rfl | h
      · exact Or.inr hslash
      · obtain rfl := List.mem_singleton.mp h
        rcases hc with rfl | rfl
        · exact Or.inl ⟨rfl, Or.inl rfl⟩
        · exact Or.inr hslash
  · split at h
    · exact Or.inr (hescape 't' [] (by decide) nofun h)
    · split at h
      · exact Or.inr (hescape 'n' [] (by decide) nofun h)
      · split at h
        · exact Or.inr (hescape 'r' [] (by decide) nofun h)
        · split at h
          · next hprintable =>
              exact Or.inl ⟨List.mem_singleton.mp h, Or.inr hprintable⟩
          · split at h
            · exact Or.inr (hescape 'x' _ (by decide) (fun y hy => mem_escape_of_hex hy) h)
            · split at h
              · exact Or.inr (hescape 'u' _ (by decide) (fun y hy => mem_escape_of_hex hy) h)
              · exact Or.inr (hescape 'U' _ (by decide) (fun y hy => mem_escape_of_hex hy) h)

/-- The characters `repr` writes: quotes, printable ones of the string, and escapes. -/
theorem mem_repr {unicodePrintable : Char → Bool} {s : List Char} {c : Char}
    (h : c ∈ repr unicodePrintable s) :
    c = '\'' ∨ c = '"' ∨ (c ∈ s ∧ isPrintable unicodePrintable c = true) ∨ c ∈ escapeChars := by
  have hquoted : ∀ quote : Char, quote = '\'' ∨ quote = '"' →
      c ∈ quote :: s.flatMap (reprChar unicodePrintable quote) ++ [quote] →
      c = '\'' ∨ c = '"' ∨ (c ∈ s ∧ isPrintable unicodePrintable c = true) ∨
        c ∈ escapeChars := by
    intro quote hquote hc
    rcases List.mem_append.mp hc with hc | hc
    · rcases List.mem_cons.mp hc with rfl | hc
      · exact hquote.imp_right Or.inl
      · obtain ⟨d, hd, hc⟩ := List.mem_flatMap.mp hc
        rcases mem_repr_char hc with ⟨rfl, rfl | hprintable⟩ | hescape
        · exact hquote.imp_right Or.inl
        · exact Or.inr (Or.inr (Or.inl ⟨hd, hprintable⟩))
        · exact Or.inr (Or.inr (Or.inr hescape))
    · rw [List.mem_singleton.mp hc]
      exact hquote.imp_right Or.inl
  refine hquoted (if '\'' ∈ s ∧ '"' ∉ s then '"' else '\'') ?_ h
  split
  · exact Or.inr rfl
  · exact Or.inl rfl

end PyText
