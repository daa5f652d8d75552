import Mathlib.Algebra.Ring.Int.Defs
import MapReduce.Library.Fields
import MapReduce.Worker.Scripts

/-!
# From the map function to the reduce function

`Worker::stream_to_file` writes the dictionary that a map function returns into the intermediate
files, one for each reducer (`w7/src/worker/workerimpl.cc`). A reducer reads the concatenation of
its files. Keys that `repr` does not escape come back (`PlainKey.parse_line`), and counts that fit a
`long`: `PyLong_AsLong` turns any other into `-1`. `reduce_adds_counts_iff` says when the counts add
up.
-/

namespace MapReduce

/-! ## Writing -/

/-- A line of an intermediate file. -/
def streamLine (word : Str) (val : Int) : Str := word ++ ':' :: Decimal.ofInt val ++ ['\n']

/-- `stream_to_file` for a map function; `interFiles` is `m_inter_files`, the content written to
each stream. Without a positive number of reducers there is no file to write to. -/
def streamToFile (hash : Str → Nat) (nreducers : Int) (interFiles : List Str) (word : Str)
    (val : Int) : Option (List Str) :=
  if nreducers ≤ 0 then none
  else
    let fileNum := hash word % nreducers.toNat
    if fileNum < interFiles.length then
      some (interFiles.modify fileNum (· ++ streamLine word val))
    else none

/-- The number is a `long`. -/
def FitsLong (n : Int) : Prop := -2 ^ 63 ≤ n ∧ n < 2 ^ 63

instance (n : Int) : Decidable (FitsLong n) := inferInstanceAs (Decidable (_ ∧ _))

/-- The value `PyLong_AsLong` returns: `-1` where the number does not fit a `long`. -/
def pyLongAsLong (n : Int) : Int := if FitsLong n then n else -1

/-- The loop of `instantiate_py_func` over the dictionary a map function returned. -/
def streamDict (hash : Str → Nat) (unicodePrintable : Char → Bool) (nreducers : Int)
    (interFiles : List Str) (entries : List (Str × Int)) : Option (List Str) :=
  entries.foldlM (fun files entry =>
    streamToFile hash nreducers files (PyText.repr unicodePrintable entry.1)
      (pyLongAsLong entry.2)) interFiles

/-- `PyLong_AsLong` leaves an `OverflowError` set for some count of a dictionary. -/
def overflows (entries : List (Str × Int)) : Bool := entries.any fun entry => ¬FitsLong entry.2

/-- The streams `create_r_intermediate_files` opens. -/
def openFiles (nreducers : Int) : List Str := List.replicate nreducers.toNat []

section Streaming

variable (hash : Str → Nat) (unicodePrintable : Char → Bool) {nreducers : Int}

/-- The entries of a dictionary that go to reducer `j`. -/
def entriesFor (nreducers : Int) (entries : List (Str × Int)) (j : Nat) : List (Str × Int) :=
  entries.filter fun e => hash (PyText.repr unicodePrintable e.1) % nreducers.toNat = j

/-- The line of an entry. -/
def entryLine (e : Str × Int) : Str := streamLine (PyText.repr unicodePrintable e.1) e.2

/-- An entry with its count as it is streamed. -/
def longEntry (e : Str × Int) : Str × Int := (e.1, pyLongAsLong e.2)

/-- Counts that fit a `long` are streamed as they are. -/
theorem map_long_entry {entries : List (Str × Int)} (h : ∀ e ∈ entries, FitsLong e.2) :
    entries.map longEntry = entries := by
  refine (List.map_congr_left fun e he => ?_).trans (List.map_id _)
  rw [longEntry, pyLongAsLong, if_pos (h e he), id]

/-- No error is left by counts that fit a `long`. -/
theorem overflows_eq_false_iff {entries : List (Str × Int)} :
    overflows entries = false ↔ ∀ e ∈ entries, FitsLong e.2 := by
  simp [overflows]

/-- Streaming changes no key. -/
theorem entries_for_map_long_entry (nreducers : Int) (entries : List (Str × Int)) (j : Nat) :
    entriesFor hash unicodePrintable nreducers (entries.map longEntry) j =
      (entriesFor hash unicodePrintable nreducers entries j).map longEntry :=
  List.filter_map

/-- A line is not empty. -/
theorem entry_lines_ne_nil {entries : List (Str × Int)} (h : entries ≠ []) :
    entries.flatMap (entryLine unicodePrintable) ≠ [] := by
  cases entries with
  | nil => exact absurd rfl h
  | cons e entries => simp [entryLine, streamLine]

/-- Only counts that fit a `long` are streamed as they are. -/
theorem fits_long_of_entry_lines {entries : List (Str × Int)}
    (h : (entries.map longEntry).flatMap (entryLine unicodePrintable) =
      entries.flatMap (entryLine unicodePrintable)) : ∀ e ∈ entries, FitsLong e.2 := by
  have hnumber : ∀ n : Int, '\n' ∉ Decimal.ofInt n := fun n =>
    Decimal.not_mem_of_int (by decide) (by decide) n
  induction entries with
  | nil => simp
  | cons e entries ih =>
      simp only [List.map_cons, List.flatMap_cons, entryLine, streamLine, longEntry,
        List.append_assoc, List.cons_append, List.nil_append] at h
      obtain ⟨hsame, htail⟩ := Fields.sep_append_inj (hnumber _) (hnumber _)
        (List.cons.inj (List.append_cancel_left h)).2
      rw [List.forall_mem_cons]
      refine ⟨?_, ih htail⟩
      have hlong : pyLongAsLong e.2 = e.2 := Decimal.of_int_injective hsame
      rw [pyLongAsLong] at hlong
      split at hlong
      · assumption
      · rw [← hlong]
        decide

/-- A line goes to the file of the reducer its key hashes to. -/
theorem stream_to_file_eq (hR : 1 ≤ nreducers) (content : Nat → Str) (word : Str) (val : Int) :
    streamToFile hash nreducers ((List.range nreducers.toNat).map content) word val =
      some ((List.range nreducers.toNat).map fun j =>
        content j ++ if hash word % nreducers.toNat = j then streamLine word val else []) := by
  have hlt : hash word % nreducers.toNat < nreducers.toNat := Nat.mod_lt _ (by omega)
  rw [streamToFile, if_neg (by omega)]
  simp only [List.length_map, List.length_range, hlt, if_true]
  congr 1
  refine List.ext_getElem (by simp) fun i h _ => ?_
  simp only [List.getElem_modify, List.getElem_map, List.getElem_range]
  split <;> simp

/-- The files hold the lines of the entries of their reducers, in order. -/
theorem stream_dict_eq (hR : 1 ≤ nreducers) (entries : List (Str × Int)) :
    streamDict hash unicodePrintable nreducers (openFiles nreducers) entries =
      some ((List.range nreducers.toNat).map fun j =>
        (entriesFor hash unicodePrintable nreducers (entries.map longEntry) j).flatMap
          (entryLine unicodePrintable)) := by
  have hfrom : ∀ content : Nat → Str,
      streamDict hash unicodePrintable nreducers ((List.range nreducers.toNat).map content)
          entries =
        some ((List.range nreducers.toNat).map fun j => content j ++
          (entriesFor hash unicodePrintable nreducers (entries.map longEntry) j).flatMap
            (entryLine unicodePrintable)) := by
    unfold streamDict
    induction entries with
    | nil => simp [entriesFor]
    | cons e entries ih =>
        intro content
        rw [List.foldlM_cons, stream_to_file_eq hash hR]
        simp only [Option.bind_eq_bind, Option.bind_some]
        rw [ih]
        congr 2
        funext j
        by_cases hj : hash (PyText.repr unicodePrintable e.1) % nreducers.toNat = j <;>
          simp [entriesFor, hj, entryLine, longEntry]
  have hopen : openFiles nreducers = (List.range nreducers.toNat).map fun _ => [] := by
    simp [openFiles]
  rw [hopen, hfrom]
  simp

end Streaming

/-! ## Reading back -/

section Reading

variable {unicodePrintable : Char → Bool}

/-- A non-empty printable string without spaces or ASCII punctuation. -/
def PlainKey (unicodePrintable : Char → Bool) (k : Str) : Prop :=
  k ≠ [] ∧ ∀ c ∈ k, PyText.isPrintable unicodePrintable c = true ∧ c ≠ ' ' ∧
    PyText.isPunctuation c = false

instance (k : Str) : Decidable (PlainKey unicodePrintable k) :=
  have : Decidable (∀ c ∈ k, PyText.isPrintable unicodePrintable c = true ∧ c ≠ ' ' ∧
      PyText.isPunctuation c = false) := List.decidableBAll _ k
  inferInstanceAs (Decidable (_ ∧ _))

/-- Characters that are punctuation or not printable are not in a plain key. -/
theorem PlainKey.not_mem {k : Str} (hk : PlainKey unicodePrintable k) {c : Char}
    (hc : PyText.isPunctuation c = true ∨ PyText.isPrintable unicodePrintable c = false) :
    c ∉ k := by
  intro hmem
  obtain ⟨hprintable, -, hpunct⟩ := hk.2 c hmem
  simp [hprintable, hpunct] at hc

/-- `repr` puts a plain key in quotes. -/
theorem PlainKey.repr_eq {k : Str} (hk : PlainKey unicodePrintable k) :
    PyText.repr unicodePrintable k = '\'' :: k ++ ['\''] := by
  have hpunct : ∀ c, PyText.isPunctuation c = true → c ∉ k := fun c hc => hk.not_mem (Or.inl hc)
  have hescape : ∀ c, PyText.isPrintable unicodePrintable c = false → c ∉ k := fun c hc =>
    hk.not_mem (Or.inr hc)
  have hchar : ∀ c ∈ k, PyText.reprChar unicodePrintable '\'' c = [c] := by
    intro c hc
    have hquote : ¬ (c = '\'' ∨ c = '\\') := by
      rintro (rfl | rfl)
      · exact hpunct _ (by decide) hc
      · exact hpunct _ (by decide) hc
    have htab : c ≠ '\t' := fun heq => hescape '\t' rfl (heq ▸ hc)
    have hnewline : c ≠ '\n' := fun heq => hescape '\n' rfl (heq ▸ hc)
    have hreturn : c ≠ '\r' := fun heq => hescape '\r' rfl (heq ▸ hc)
    rw [PyText.reprChar, if_neg hquote, if_neg htab, if_neg hnewline, if_neg hreturn,
      if_pos (hk.2 c hc).1]
  have hbody : k.flatMap (PyText.reprChar unicodePrintable '\'') = k := by
    rw [List.flatMap_congr hchar, List.flatMap_singleton']
  rw [PyText.repr, if_neg (fun h => hpunct '\'' (by decide) h.1), hbody]

/-- The line of a plain key, taken apart. -/
theorem PlainKey.entry_line_eq {e : Str × Int} (hk : PlainKey unicodePrintable e.1) :
    entryLine unicodePrintable e =
      ('\'' :: e.1 ++ ['\'']) ++ ':' :: Decimal.ofInt e.2 ++ ['\n'] := by
  rw [entryLine, streamLine, hk.repr_eq]

/-- The line of a key without colons is read back as what is left of its `repr` without
punctuation. -/
theorem parse_entry_line {e : Str × Int} (h : ':' ∉ e.1) :
    parseLine (entryLine unicodePrintable e) =
      some ((PyText.repr unicodePrintable e.1).filter (fun c => !PyText.isPunctuation c),
        e.2) := by
  have hkey : ':' ∉ PyText.repr unicodePrintable e.1 := by
    intro hmem
    rcases PyText.mem_repr hmem with hquote | hquote | ⟨hcolon, -⟩ | hescape
    · exact absurd hquote (by decide)
    · exact absurd hquote (by decide)
    · exact h hcolon
    · exact absurd hescape (by decide)
  have hvalue : ':' ∉ Decimal.ofInt e.2 ++ ['\n'] := by
    simp [Decimal.not_mem_of_int (show ':'.isDigit = false by decide) (by decide) e.2]
  have hline : entryLine unicodePrintable e =
      PyText.repr unicodePrintable e.1 ++ ':' :: (Decimal.ofInt e.2 ++ ['\n']) :=
    List.append_assoc _ _ _
  rw [hline, parseLine, List.splitOn_append_cons_self_of_not_mem hkey,
    List.splitOn_eq_singleton hvalue]
  simp only [PyText.int_of_int, Option.bind_eq_bind, Option.bind_some]

/-- The line of a plain key is read back. -/
theorem PlainKey.parse_line {e : Str × Int} (hk : PlainKey unicodePrintable e.1) :
    parseLine (entryLine unicodePrintable e) = some e := by
  have hcolon : ':' ∉ e.1 := hk.not_mem (Or.inl (by decide))
  have hall : e.1.filter (fun c => !PyText.isPunctuation c) = e.1 := by
    rw [List.filter_eq_self]
    intro c hc
    simp [(hk.2 c hc).2.2]
  have hquote : PyText.isPunctuation '\'' = true := by decide
  have hstrip : ('\'' :: e.1 ++ ['\'']).filter (fun c => !PyText.isPunctuation c) = e.1 := by
    simp [hquote, hall]
  rw [parse_entry_line hcolon, hk.repr_eq, hstrip]

/-- A file of lines of plain keys is read back line by line. -/
theorem readlines_entry_lines {entries : List (Str × Int)}
    (h : ∀ e ∈ entries, PlainKey unicodePrintable e.1) :
    PyText.readlines (entries.flatMap (entryLine unicodePrintable)) =
      entries.map (entryLine unicodePrintable) := by
  let body : Str × Int → Str := fun e => ('\'' :: e.1 ++ ['\'']) ++ ':' :: Decimal.ofInt e.2
  have hline : ∀ e ∈ entries, entryLine unicodePrintable e = body e ++ ['\n'] := fun e he =>
    (h e he).entry_line_eq
  have hplain : ∀ e ∈ entries, ∀ c, c = '\n' ∨ c = '\r' → c ∉ body e := by
    intro e he c hc
    have hkey : c ∉ e.1 := (h e he).not_mem (Or.inr (by rcases hc with rfl | rfl <;> rfl))
    have hvalue : c ∉ Decimal.ofInt e.2 := by
      rcases hc with rfl | rfl <;> exact Decimal.not_mem_of_int (by decide) (by decide) e.2
    rcases hc with rfl | rfl <;> simp [body, hkey, hvalue]
  have htext : entries.flatMap (entryLine unicodePrintable) =
      (entries.map body).flatMap fun l => l ++ ['\n'] := by
    rw [List.flatMap_map]
    exact List.flatMap_congr hline
  have hreturn : '\r' ∉ (entries.map body).flatMap fun l => l ++ ['\n'] := by
    simp only [List.mem_flatMap, List.mem_map, not_exists, not_and]
    rintro _ ⟨e, he, rfl⟩ hmem
    rcases List.mem_append.mp hmem with hmem | hmem
    · exact hplain e he '\r' (Or.inr rfl) hmem
    · exact absurd hmem (by decide)
  have hnewline : ∀ l ∈ entries.map body, '\n' ∉ l := by
    intro l hl
    obtain ⟨e, he, rfl⟩ := List.mem_map.mp hl
    exact hplain e he '\n' (Or.inl rfl)
  rw [PyText.readlines, htext, PyText.universal_newlines_eq hreturn, PyText.lines_flatten hnewline,
    List.map_map]
  exact (List.map_congr_left hline).symm

/-- `reducefunc` on the lines of plain keys adds up their counts. -/
theorem reducefunc_entry_lines {entries : List (Str × Int)}
    (h : ∀ e ∈ entries, PlainKey unicodePrintable e.1) :
    ∃ result, reducefunc (entries.flatMap (entryLine unicodePrintable)) = some result ∧
      (∀ k, k ∈ result.keys ↔ k ∈ entries.map Prod.fst) ∧
      ∀ k, result.get k = Dict.total entries k := by
  have hread := readlines_entry_lines h
  have hparse : (entries.map (entryLine unicodePrintable)).filterMap parseLine = entries := by
    rw [List.filterMap_map]
    exact (List.filterMap_congr fun e he => (h e he).parse_line).trans (by simp)
  have hsome : ∀ line ∈ PyText.readlines (entries.flatMap (entryLine unicodePrintable)),
      (parseLine line).isSome = true := by
    intro line hline
    rw [hread] at hline
    obtain ⟨e, he, rfl⟩ := List.mem_map.mp hline
    rw [(h e he).parse_line]
    rfl
  obtain ⟨entries', hperm, hresult⟩ := reducefunc_eq _ hsome
  rw [hread, hparse] at hperm
  refine ⟨_, hresult, fun k => ?_, fun k => ?_⟩
  · rw [Dict.mem_keys_add_all, (hperm.map Prod.fst).mem_iff]
    simp [Dict.keys, Dict.empty]
  · rw [Dict.get_add_all, Dict.total_perm hperm]
    simp [Dict.get, Dict.empty]

end Reading

/-- The counts of a key are all in the file of the reducer it hashes to. -/
theorem total_entries_for {hash : Str → Nat} {unicodePrintable : Char → Bool} {nreducers : Int}
    {j : Nat} {k : Str} (hk : hash (PyText.repr unicodePrintable k) % nreducers.toNat = j)
    (entries : List (Str × Int)) :
    Dict.total (entriesFor hash unicodePrintable nreducers entries j) k =
      Dict.total entries k := by
  unfold Dict.total entriesFor
  rw [List.filter_filter]
  congr 2
  refine List.filter_congr fun e _ => ?_
  by_cases he : e.1 = k
  · simp [he, hk]
  · simp [he]

/-- What one reducer computes from its files of all dictionaries. -/
theorem reduce_files (hash : Str → Nat) {unicodePrintable : Char → Bool} (nreducers : Int)
    {dicts : List (Dict Str Int)}
    (hkeys : ∀ d ∈ dicts, ∀ k ∈ d.keys, PlainKey unicodePrintable k) (j : Nat) :
    ∃ result,
      reducefunc (dicts.flatMap fun d => (entriesFor hash unicodePrintable nreducers d.entries
        j).flatMap (entryLine unicodePrintable)) = some result ∧
      (∀ k, k ∈ result.keys ↔ (∃ d ∈ dicts, k ∈ d.keys) ∧
        hash (PyText.repr unicodePrintable k) % nreducers.toNat = j) ∧
      ∀ k ∈ result.keys, result.get k = (dicts.map fun d => d.get k).sum := by
  have hplain : ∀ e ∈ dicts.flatMap (fun d => entriesFor hash unicodePrintable nreducers d.entries
      j), PlainKey unicodePrintable e.1 := by
    intro e he
    obtain ⟨d, hd, he⟩ := List.mem_flatMap.mp he
    exact hkeys d hd e.1 (List.mem_map_of_mem (List.mem_of_mem_filter he))
  obtain ⟨result, hresult, hmem, hget⟩ := reducefunc_entry_lines hplain
  rw [List.flatMap_assoc] at hresult
  have hmem' : ∀ k, k ∈ result.keys ↔ (∃ d ∈ dicts, k ∈ d.keys) ∧
      hash (PyText.repr unicodePrintable k) % nreducers.toNat = j := by
    intro k
    rw [hmem k]
    simp only [List.mem_map, List.mem_flatMap, entriesFor, List.mem_filter, decide_eq_true_eq,
      Dict.keys]
    constructor
    · intro hentry
      obtain ⟨e, ⟨d, hd, he, hj⟩, rfl⟩ := hentry
      exact ⟨⟨d, hd, e, he, rfl⟩, hj⟩
    · intro hkey
      obtain ⟨⟨d, hd, e, he, rfl⟩, hj⟩ := hkey
      exact ⟨e, ⟨d, hd, he, hj⟩, rfl⟩
  refine ⟨result, hresult, hmem', fun k hk => ?_⟩
  rw [hget k, List.flatMap_def, Dict.total_flatten, List.map_map]
  refine congrArg List.sum (List.map_congr_left fun d _ => ?_)
  exact total_entries_for ((hmem' k).mp hk).2 d.entries

/-! ## Counts that are no `long` -/

/-- A dictionary with its counts as they are streamed. -/
def longDict (d : Dict Str Int) : Dict Str Int where
  entries := d.entries.map longEntry
  nodup := by
    rw [List.map_map]
    exact d.nodup

/-- Streaming keeps the keys. -/
theorem keys_long_dict (d : Dict Str Int) : (longDict d).keys = d.keys := by
  rw [Dict.keys, longDict, List.map_map]
  rfl

/-- The count of a key, as it is streamed. -/
theorem get_long_dict (d : Dict Str Int) (k : Str) :
    (longDict d).get k = pyLongAsLong (d.get k) := by
  by_cases hk : k ∈ d.keys
  · obtain ⟨e, he, rfl⟩ := List.mem_map.mp hk
    have hmem : longEntry e ∈ (longDict d).entries := List.mem_map_of_mem he
    rw [d.get_of_mem he]
    exact (longDict d).get_of_mem hmem
  · have hk' : k ∉ (longDict d).keys := by rwa [keys_long_dict]
    rw [d.get_of_not_mem hk, (longDict d).get_of_not_mem hk']
    rfl

/-- The counts that are no `long` add up to as much as the `-1`s that are streamed for them. -/
def OverflowsCancel (counts : List Int) : Prop :=
  (counts.filter fun n => ¬FitsLong n).sum = -((counts.filter fun n => ¬FitsLong n).length : Int)

instance (counts : List Int) : Decidable (OverflowsCancel counts) :=
  inferInstanceAs (Decidable (_ = _))

/-- What streaming takes from the sum of counts. -/
theorem sum_long (counts : List Int) :
    (counts.map pyLongAsLong).sum + (counts.filter fun n => ¬FitsLong n).sum +
      ((counts.filter fun n => ¬FitsLong n).length : Int) = counts.sum := by
  induction counts with
  | nil => rfl
  | cons n counts ih =>
      rw [List.map_cons, List.sum_cons, List.sum_cons, List.filter_cons, pyLongAsLong]
      by_cases hn : FitsLong n
      · simp only [hn, not_true_eq_false, decide_false, Bool.false_eq_true, if_true, if_false]
        omega
      · simp only [hn, not_false_eq_true, decide_true, if_true, if_false, List.sum_cons,
          List.length_cons]
        omega

/-- When counts keep their sum. -/
theorem sum_long_eq_iff {counts : List Int} :
    (counts.map pyLongAsLong).sum = counts.sum ↔ OverflowsCancel counts := by
  have hsum := sum_long counts
  unfold OverflowsCancel
  omega

/-- Counts that are a `long` keep their sum. -/
theorem overflows_cancel_of_fits {counts : List Int} (h : ∀ n ∈ counts, FitsLong n) :
    OverflowsCancel counts := by
  have hnone : (counts.filter fun n => ¬FitsLong n) = [] := by
    rw [List.filter_eq_nil_iff]
    intro n hn
    simp [h n hn]
  rw [OverflowsCancel, hnone]
  rfl

/-- The count of a key is a `long` if the counts of the entries are. -/
theorem fits_long_get {d : Dict Str Int} (h : ∀ e ∈ d.entries, FitsLong e.2) (k : Str) :
    FitsLong (d.get k) := by
  by_cases hk : k ∈ d.keys
  · obtain ⟨e, he, rfl⟩ := List.mem_map.mp hk
    rw [d.get_of_mem he]
    exact h e he
  · rw [d.get_of_not_mem hk]
    decide

/-- Nothing is lost of dictionaries whose counts are a `long`. -/
theorem overflows_cancel_of_entries {dicts : List (Dict Str Int)}
    (h : ∀ d ∈ dicts, ∀ e ∈ d.entries, FitsLong e.2) (k : Str) :
    OverflowsCancel (dicts.map fun d => d.get k) := by
  refine overflows_cancel_of_fits fun n hn => ?_
  obtain ⟨d, hd, rfl⟩ := List.mem_map.mp hn
  exact fits_long_get (h d hd) k

/-- The results `result` of the reducers, from the concatenations `content` of their files, have the
keys of the dictionaries, and no key is at two reducers. -/
structure Reduced (nreducers : Int) (dicts : List (Dict Str Int)) (content : Nat → Str)
    (result : Nat → Dict Str Int) : Prop where
  reduced : ∀ j < nreducers.toNat, reducefunc (content j) = some (result j)
  disjoint : ∀ i < nreducers.toNat, ∀ j < nreducers.toNat, i ≠ j →
    ∀ k ∈ (result i).keys, k ∉ (result j).keys
  keys : ∀ k, (∃ j < nreducers.toNat, k ∈ (result j).keys) ↔ ∃ d ∈ dicts, k ∈ d.keys

/-- Whatever the counts are, the reducers return, and each key has the sum of its counts as they are
streamed. -/
theorem reduce_long_counts (hash : Str → Nat) {unicodePrintable : Char → Bool} {nreducers : Int}
    (hR : 1 ≤ nreducers) {dicts : List (Dict Str Int)}
    (hkeys : ∀ d ∈ dicts, ∀ k ∈ d.keys, PlainKey unicodePrintable k)
    {order : Nat → List (Dict Str Int)} (hperm : ∀ j, (order j).Perm dicts) :
    ∃ result, Reduced nreducers dicts (fun j => (order j).flatMap fun d =>
        (entriesFor hash unicodePrintable nreducers (d.entries.map longEntry) j).flatMap
          (entryLine unicodePrintable)) result ∧
      ∀ j, ∀ k ∈ (result j).keys,
        (result j).get k = ((dicts.map fun d => d.get k).map pyLongAsLong).sum := by
  have hplain : ∀ j, ∀ d ∈ (order j).map longDict, ∀ k ∈ d.keys, PlainKey unicodePrintable k := by
    intro j d hd k hk
    obtain ⟨d, hmem, rfl⟩ := List.mem_map.mp hd
    rw [keys_long_dict] at hk
    exact hkeys d ((hperm j).mem_iff.mp hmem) k hk
  have hreduce := fun j => reduce_files hash nreducers (hplain j) j
  choose result hresult hmem hget using hreduce
  have hkey : ∀ j k, k ∈ (result j).keys ↔ (∃ d ∈ dicts, k ∈ d.keys) ∧
      hash (PyText.repr unicodePrintable k) % nreducers.toNat = j := by
    intro j k
    rw [hmem j k]
    simp only [List.mem_map, exists_exists_and_eq_and, keys_long_dict, (hperm j).mem_iff]
  refine ⟨result, ⟨fun j _ => ?_, fun i _ j _ hne k hi hj => ?_, fun k => ?_⟩, fun j k hk => ?_⟩
  · rw [← hresult j, List.flatMap_map]
    rfl
  · exact hne (((hkey i k).mp hi).2.symm.trans ((hkey j k).mp hj).2)
  · constructor
    · intro hkey'
      obtain ⟨j, _, hk⟩ := hkey'
      exact ((hkey j k).mp hk).1
    · intro hk
      exact ⟨_, Nat.mod_lt _ (by omega), (hkey _ k).mpr ⟨hk, rfl⟩⟩
  · rw [hget j k hk, List.map_map, List.map_map]
    refine (((hperm j).map _).sum_eq).trans (congrArg List.sum (List.map_congr_left fun d _ => ?_))
    exact get_long_dict d k

/-- Partition, write, concatenate and reduce, for every hash function, every positive number of
reducers and all dictionaries with plain keys: each dictionary is streamed into one file for each
reducer. In whatever order a reducer concatenates its files of all dictionaries, `reducefunc`
returns; the results of different reducers have no key in common, and their keys are those of the
dictionaries. Each key has the sum of its counts, exactly if for every key the counts that are no
`long` cancel the `-1`s that are streamed for them. -/
theorem reduce_adds_counts_iff (hash : Str → Nat) (unicodePrintable : Char → Bool)
    (nreducers : Int) (hR : 1 ≤ nreducers) (dicts : List (Dict Str Int))
    (hkeys : ∀ d ∈ dicts, ∀ k ∈ d.keys, PlainKey unicodePrintable k) :
    ∃ files : Dict Str Int → List Str,
      (∀ d ∈ dicts, streamDict hash unicodePrintable nreducers (openFiles nreducers) d.entries =
        some (files d) ∧ (files d).length = nreducers) ∧
      (∀ order : Nat → List (Dict Str Int), (∀ j, (order j).Perm dicts) →
        ∃ result, Reduced nreducers dicts
          (fun j => (order j).flatMap fun d => (files d).getD j []) result) ∧
      ((∀ order : Nat → List (Dict Str Int), (∀ j, (order j).Perm dicts) →
        ∃ result, Reduced nreducers dicts
            (fun j => (order j).flatMap fun d => (files d).getD j []) result ∧
          ∀ j < nreducers.toNat, ∀ k ∈ (result j).keys,
            (result j).get k = (dicts.map fun d => d.get k).sum) ↔
        ∀ k, OverflowsCancel (dicts.map fun d => d.get k)) := by
  let file : Nat → Dict Str Int → Str := fun j d =>
    (entriesFor hash unicodePrintable nreducers (d.entries.map longEntry) j).flatMap
      (entryLine unicodePrintable)
  have hfile : ∀ ds : List (Dict Str Int), ∀ j < nreducers.toNat,
      (ds.flatMap fun d => ((List.range nreducers.toNat).map fun j => file j d).getD j []) =
        ds.flatMap (file j) := by
    intro ds j hj
    refine List.flatMap_congr fun d _ => ?_
    simp [hj]
  refine ⟨fun d => (List.range nreducers.toNat).map fun j => file j d,
    fun d _ => ⟨stream_dict_eq hash unicodePrintable hR d.entries, by simp; omega⟩, ?_, ?_, ?_⟩
  · intro order hperm
    obtain ⟨result, hreduced, -⟩ := reduce_long_counts hash hR hkeys hperm
    refine ⟨result, { hreduced with reduced := fun j hj => ?_ }⟩
    rw [hfile _ j hj, hreduced.reduced j hj]
  · intro hsums k
    obtain ⟨result, hreduced, hsum⟩ := hsums (fun _ => dicts) fun _ => .refl _
    obtain ⟨streamed, hstreamed, hlong⟩ := reduce_long_counts hash hR hkeys
      fun _ => List.Perm.refl dicts
    by_cases hk : ∃ d ∈ dicts, k ∈ d.keys
    · obtain ⟨j, hj, hmem⟩ := (hreduced.keys k).mpr hk
      have hsame : result j = streamed j := by
        have hresult := hreduced.reduced j hj
        rw [hfile _ j hj, hstreamed.reduced j hj] at hresult
        exact (Option.some.inj hresult).symm
      rw [← sum_long_eq_iff, ← hsum j hj k hmem, hsame, hlong j k (hsame ▸ hmem)]
    · refine overflows_cancel_of_fits fun n hn => ?_
      obtain ⟨d, hd, rfl⟩ := List.mem_map.mp hn
      rw [d.get_of_not_mem fun hmem => hk ⟨d, hd, hmem⟩]
      decide
  · intro hcancel order hperm
    obtain ⟨result, hreduced, hlong⟩ := reduce_long_counts hash hR hkeys hperm
    refine ⟨result, { hreduced with reduced := fun j hj => ?_ }, fun j _ k hk => ?_⟩
    · rw [hfile _ j hj, hreduced.reduced j hj]
    · rw [hlong j k hk, sum_long_eq_iff.mpr (hcancel k)]

/-- Two reducers and two dictionaries that share a key: its counts are added. -/
theorem reduce_adds_counts_shared_key :
    ∃ files : Dict Str Int → List Str, ∃ result : Nat → Dict Str Int,
      (∀ j < 2, reducefunc ([⟨[(['a'], 1), (['b', '2'], -5)], by decide⟩,
        ⟨[(['a'], 3)], by decide⟩].flatMap fun d => (files d).getD j []) = some (result j)) ∧
      ∃ j < 2, ['a'] ∈ (result j).keys ∧ (result j).get ['a'] = 4 := by
  obtain ⟨files, -, -, hfiles⟩ := reduce_adds_counts_iff List.length (fun _ => true) 2 (by decide)
    [⟨[(['a'], 1), (['b', '2'], -5)], by decide⟩, ⟨[(['a'], 3)], by decide⟩]
    (by decide)
  obtain ⟨result, hreduced, hget⟩ := hfiles.mpr (overflows_cancel_of_entries (by decide))
    (fun _ => _) fun _ => .refl _
  obtain ⟨j, hj, hmem⟩ := (hreduced.keys ['a']).mpr (by decide)
  exact ⟨files, result, hreduced.reduced, j, hj, hmem, (hget j hj _ hmem).trans (by decide)⟩

/-- A dictionary with a count of `2 ^ 63`, which is streamed as `-1`: so the reducer counts it. -/
theorem reduce_loses_count :
    ∃ d : Dict Str Int, (∀ k ∈ d.keys, PlainKey (fun _ => true) k) ∧ d.get ['a'] = 2 ^ 63 ∧
      ∃ files result,
        streamDict List.length (fun _ => true) 1 (openFiles 1) d.entries = some files ∧
        reducefunc (files.getD 0 []) = some result ∧ result.get ['a'] = -1 :=
  ⟨⟨[(['a'], 2 ^ 63)], by decide⟩, by decide, by decide, _, _, rfl, rfl, by decide⟩

end MapReduce
