import MapReduce.Library.Dict
import MapReduce.Library.PyText
import MapReduce.Master.Helpers

/-!
# The scripts

The map and reduce functions a worker calls, `mapfunc` of `w7/src/python/map.py` and `reducefunc`
of `w7/src/python/reduce.py`, on the content of the file they open. A dictionary is a `Dict`, and
an exception is `none`.
-/

namespace MapReduce

/-- The words of a line: `mapfunc` strips it, makes it lower case, turns punctuation into spaces,
splits it at spaces and skips the empty parts. -/
def lineWords (line : Str) : List Str :=
  let line := PyText.strip line
  let line := PyText.lower line
  let line := line.map fun c => if PyText.isPunctuation c then ' ' else c
  (line.splitOn ' ').filter (· ≠ [])

/-- `mapfunc`. -/
def mapfunc (content : Str) : Dict Str Int :=
  (PyText.readlines content).foldl
    (fun kvPair line => (lineWords line).foldl (fun kvPair word => kvPair.add word 1) kvPair) .empty

/-- The key and the count of a line, as `reducefunc` reads them. It raises if the line does not
have exactly one colon, or if what follows the colon is no number. -/
def parseLine (line : Str) : Option (Str × Int) :=
  match line.splitOn ':' with
  | [key, value] => do
      let n ← PyText.int value
      some (key.filter fun c => !PyText.isPunctuation c, n)
  | _ => none

/-- `reducefunc`. -/
def reducefunc (content : Str) : Option (Dict Str Int) :=
  (PyText.sorted (PyText.readlines content)).foldlM
    (fun kvPair line => do
      let (key, n) ← parseLine line
      some (kvPair.add key n)) .empty

/-- `mapfunc` adds one for each word of each line. -/
theorem mapfunc_eq (content : Str) :
    mapfunc content =
      Dict.addAll .empty (((PyText.readlines content).flatMap lineWords).map fun w => (w, 1)) := by
  unfold mapfunc
  generalize Dict.empty = d
  induction PyText.readlines content generalizing d with
  | nil => rfl
  | cons line ls ih =>
      rw [List.foldl_cons, ih, List.flatMap_cons, List.map_append, Dict.add_all_append]
      congr 1
      simp only [Dict.addAll, List.foldl_map]

/-- If every line can be read, the loop of `reducefunc` adds the counts of the lines. -/
theorem reduce_lines_eq {ls : List Str} (h : ∀ line ∈ ls, (parseLine line).isSome = true)
    (d : Dict Str Int) :
    ls.foldlM (fun kvPair line => do
      let (key, n) ← parseLine line
      some (kvPair.add key n)) d = some (d.addAll (ls.filterMap parseLine)) := by
  induction ls generalizing d with
  | nil => rfl
  | cons line ls ih =>
      rw [List.forall_mem_cons] at h
      obtain ⟨e, he⟩ := Option.isSome_iff_exists.mp h.1
      rw [List.foldlM_cons, List.filterMap_cons_some he, Dict.addAll, List.foldl_cons]
      simp only [he, Option.bind_eq_bind, Option.bind_some]
      exact ih h.2 _

/-- If every line can be read, `reducefunc` adds the counts of the lines in some order. -/
theorem reducefunc_eq (content : Str)
    (h : ∀ line ∈ PyText.readlines content, (parseLine line).isSome = true) :
    ∃ entries, entries.Perm ((PyText.readlines content).filterMap parseLine) ∧
      reducefunc content = some (Dict.addAll .empty entries) := by
  have hperm : (PyText.sorted (PyText.readlines content)).Perm (PyText.readlines content) :=
    List.perm_insertionSort _ _
  refine ⟨_, hperm.filterMap parseLine, ?_⟩
  exact reduce_lines_eq (fun line hline => h line (hperm.mem_iff.mp hline)) .empty

end MapReduce
