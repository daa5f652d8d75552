import MapReduce.Library.Words
import MapReduce.Master.ReduceDispatch

/-!
# Requests

`req_handler` (`w7/src/master/requesthandler.h`): the query string of a request is parsed by
`get_queries`, and the strings for the numbers of mappers and reducers are kept. Read
`get_queries_render` first: `get_queries` undoes the rendering of a query string.

The parser turns `&` into a space and reads the words of the result from a string stream, so what
it sees are the words between white space and `&` (`get_queries_eq`).
-/

namespace MapReduce

open Std (ExtTreeMap)
open Words

/-! ## The parser -/

/-- The `std::map` of the queries. -/
abbrev Queries := ExtTreeMap Str Str compare

/-- `sin >> s`: white space is skipped and the characters up to the next white space are read. The
stream fails if there is none. -/
def extract (sin : Str) : Option (Str × Str) :=
  match sin.dropWhile isSpace with
  | [] => none
  | c :: cs => some (c :: cs.takeWhile fun d => !isSpace d, cs.dropWhile fun d => !isSpace d)

/-- An extraction leaves less in the stream. -/
theorem extract_length {sin rest queryString : Str} (h : extract sin = some (queryString, rest)) :
    rest.length < sin.length := by
  have hle : (sin.dropWhile isSpace).length ≤ sin.length :=
    (List.dropWhile_sublist isSpace).length_le
  unfold extract at h
  split at h
  · cases h
  · next c cs hcs =>
    obtain ⟨-, rfl⟩ := Prod.mk.inj (Option.some.inj h)
    have hrest : (cs.dropWhile fun d => !isSpace d).length ≤ cs.length :=
      (List.dropWhile_sublist _).length_le
    rw [hcs, List.length_cons] at hle
    omega

/-- The body of the loop of `get_queries`: the word is split at its first `=`. -/
def setQuery (queries : Queries) (queryString : Str) : Queries :=
  match queryString.findIdx? (· = '=') with
  | none => queries
  | some pos => queries.insert (queryString.take pos) (queryString.drop (pos + 1))

/-- The loop `while (sin >> query_string)` of `get_queries`. -/
def getQueriesLoop (sin : Str) (queries : Queries) : Queries :=
  match _h : extract sin with
  | none => queries
  | some (queryString, rest) => getQueriesLoop rest (setQuery queries queryString)
termination_by sin.length
decreasing_by exact extract_length _h

/-- `get_queries`. -/
def getQueries (dest : Str) : Queries :=
  match dest.findIdx? (· = '?') with
  | none => ∅
  | some pos =>
      let queryString := dest.drop (pos + 1)
      let queryString := queryString.map fun c => if c = '&' then ' ' else c
      getQueriesLoop queryString ∅

/-! ## What the parser sees -/

/-- The words that an extraction takes off. -/
theorem words_extract (sin : Str) :
    words isSpace sin = match extract sin with
      | none => []
      | some (queryString, rest) => queryString :: words isSpace rest := by
  have hskip : words isSpace sin = words isSpace (sin.dropWhile isSpace) :=
    (words_drop_while fun _ _ h => h).symm
  rw [hskip]
  unfold extract
  cases hcs : sin.dropWhile isSpace with
  | nil => rfl
  | cons c cs =>
      have hc : isSpace c = false := by
        have hhead := List.head?_dropWhile_not isSpace sin
        rw [hcs] at hhead
        simpa using hhead
      have hword : ∀ d ∈ c :: cs.takeWhile (fun d => !isSpace d), isSpace d = false := by
        intro d hd
        rcases List.mem_cons.mp hd with rfl | hd
        · exact hc
        · simpa using List.mem_takeWhile_imp hd
      -- the word ends where the stream does, or in front of white space
      have hsplits : ¬Splits isSpace (c :: cs.takeWhile fun d => !isSpace d)
          (cs.dropWhile fun d => !isSpace d) := by
        intro hsplits
        obtain ⟨-, d, -, hd, -, hspace⟩ := hsplits
        have hhead := List.head?_dropWhile_not (fun d => !isSpace d) cs
        rw [hd] at hhead
        simp [hspace] at hhead
      have happend := words_append hsplits
      rw [List.cons_append, List.takeWhile_append_dropWhile] at happend
      rw [happend, words_run (List.cons_ne_nil _ _) hword]
      rfl

/-- The loop handles the words of the stream in order. -/
theorem get_queries_loop_eq (sin : Str) (queries : Queries) :
    getQueriesLoop sin queries = (words isSpace sin).foldl setQuery queries := by
  fun_induction getQueriesLoop sin queries with
  | case1 sin queries hsin => rw [words_extract, hsin]; rfl
  | case2 sin queries queryString rest hsin ih =>
      rw [words_extract sin, hsin, ih]
      rfl

/-- `get_queries` separates words at white space and `&`. -/
def endsItem (c : Char) : Bool := isSpace (if c = '&' then ' ' else c)

/-- The words of a query string in which `&` is replaced are those between white space and `&`. -/
theorem words_replaced (s : Str) :
    words isSpace (s.map fun c => if c = '&' then ' ' else c) = words endsItem s := by
  rw [words_map]
  refine (List.map_congr_left fun w hw => ?_).trans (List.map_id _)
  refine (List.map_congr_left fun c hc => ?_).trans (List.map_id _)
  refine if_neg ?_
  rintro rfl
  exact absurd (sep_of_mem_word hw hc).2 (by decide)

/-- `get_queries` handles the words behind the first `?`, in order. -/
theorem get_queries_eq (dest : Str) :
    getQueries dest = match dest.findIdx? (· = '?') with
      | none => ∅
      | some pos => (words endsItem (dest.drop (pos + 1))).foldl setQuery ∅ := by
  unfold getQueries
  cases dest.findIdx? (· = '?') with
  | none => rfl
  | some pos =>
      show getQueriesLoop ((dest.drop (pos + 1)).map _) ∅ = _
      rw [get_queries_loop_eq, words_replaced]

/-! ## Rendered query strings -/

/-- An item of a query string: a key with its value, or a text without `=`. -/
inductive QueryItem where
  | pair (key value : Str) (hkey : key.all fun c => c ≠ '=' && c ≠ '&' && !isSpace c)
      (hvalue : value.all fun c => c ≠ '&' && !isSpace c)
  | other (text : Str) (htext : '=' ∉ text)

/-- The text of an item. -/
def QueryItem.text : QueryItem → Str
  | .pair key value _ _ => key ++ '=' :: value
  | .other text _ => text

/-- The key and the value of an item, if it is a pair. -/
def QueryItem.binding : QueryItem → Option (Str × Str)
  | .pair key value _ _ => some (key, value)
  | .other _ _ => none

/-- The items joined by `&`, where `n + 1` of them stand behind an item with the number `n`. -/
def renderQuery : List (QueryItem × Nat) → Str
  | [] => []
  | [(item, _)] => item.text
  | (item, n) :: next :: items =>
      item.text ++ List.replicate (n + 1) '&' ++ renderQuery (next :: items)

/-- The keys and values of the items, in order. -/
def bindings (items : List (QueryItem × Nat)) : List (Str × Str) :=
  items.filterMap fun item => item.1.binding

/-- A rendered pair is one word. -/
theorem words_pair {key value : Str} (hkey : key.all fun c => c ≠ '=' && c ≠ '&' && !isSpace c)
    (hvalue : value.all fun c => c ≠ '&' && !isSpace c) :
    words endsItem (key ++ '=' :: value) = [key ++ '=' :: value] := by
  refine words_run (by simp) fun c hc => ?_
  rw [List.all_eq_true] at hkey hvalue
  have hamp : c ≠ '&' ∧ isSpace c = false := by
    rcases List.mem_append.mp hc with hc | hc
    · have := hkey c hc
      simp only [Bool.and_eq_true, decide_eq_true_eq, Bool.not_eq_true'] at this
      exact ⟨this.1.2, this.2⟩
    · rcases List.mem_cons.mp hc with rfl | hc
      · decide
      · simpa using hvalue c hc
  rw [endsItem, if_neg hamp.1, hamp.2]

/-- The words of the rendered items are those of the items. -/
theorem words_render (items : List (QueryItem × Nat)) :
    words endsItem (renderQuery items) = items.flatMap fun item => words endsItem item.1.text := by
  fun_induction renderQuery items with
  | case1 => rfl
  | case2 item n => simp
  | case3 item n next items ih =>
      have hamps : ∀ c ∈ List.replicate n '&', endsItem c = true := fun c hc => by
        rw [List.eq_of_mem_replicate hc]
        decide
      rw [List.replicate_succ, List.append_assoc, List.cons_append, words_append_sep (by decide),
        words_append_of_seps hamps, ih]
      rfl

/-- A word without `=` sets nothing. -/
theorem set_query_none {queryString : Str} (h : '=' ∉ queryString) (queries : Queries) :
    setQuery queries queryString = queries := by
  rw [setQuery, Fields.find_sep_none h]

/-- Words without `=` set nothing. -/
theorem set_query_words {ws : List Str} (h : ∀ w ∈ ws, '=' ∉ w) (queries : Queries) :
    ws.foldl setQuery queries = queries := by
  induction ws with
  | nil => rfl
  | cons w ws ih =>
      rw [List.forall_mem_cons] at h
      rw [List.foldl_cons, set_query_none h.1, ih h.2]

/-- A rendered pair sets its key to its value. -/
theorem set_query_pair {key : Str} (h : '=' ∉ key) (value : Str) (queries : Queries) :
    setQuery queries (key ++ '=' :: value) = queries.insert key value := by
  rw [setQuery, Fields.find_sep_append h]
  simp

/-- The words of an item set its key to its value, if it is a pair. -/
theorem set_query_item (item : QueryItem) (queries : Queries) :
    (words endsItem item.text).foldl setQuery queries =
      item.binding.elim queries fun e => queries.insert e.1 e.2 := by
  cases item with
  | pair key value hkey hvalue =>
      have hnot : '=' ∉ key := fun hmem => by
        have := List.all_eq_true.mp hkey '=' hmem
        simp at this
      rw [QueryItem.text, words_pair hkey hvalue, List.foldl_cons, List.foldl_nil,
        set_query_pair hnot]
      rfl
  | other text htext =>
      -- the letters of the words are letters of the item
      have hwords : ∀ w ∈ words endsItem text, '=' ∉ w := by
        intro w hw hmem
        exact htext (sep_of_mem_word hw hmem).1
      exact set_query_words hwords queries

/-- The items set their keys in order. -/
theorem set_query_items (items : List (QueryItem × Nat)) (queries : Queries) :
    (words endsItem (renderQuery items)).foldl setQuery queries =
      (bindings items).foldl (fun queries e => queries.insert e.1 e.2) queries := by
  rw [words_render]
  induction items generalizing queries with
  | nil => rfl
  | cons item items ih =>
      have hcons : bindings (item :: items) = item.1.binding.toList ++ bindings items := by
        unfold bindings
        rw [List.filterMap_cons]
        cases item.1.binding <;> rfl
      rw [List.flatMap_cons, List.foldl_append, set_query_item, ih, hcons, List.foldl_append]
      cases item.1.binding <;> rfl

/-- The value of a key is the last one it is set to. -/
theorem get_insert_all (l : List (Str × Str)) (queries : Queries) (key : Str) :
    (l.foldl (fun queries e => queries.insert e.1 e.2) queries)[key]? =
      (l.reverse.lookup key).or queries[key]? := by
  induction l generalizing queries with
  | nil => rfl
  | cons e l ih =>
      obtain ⟨k, v⟩ := e
      rw [List.foldl_cons, ih, ExtTreeMap.getElem?_insert, List.reverse_cons, List.lookup_append,
        List.lookup_singleton, Option.or_assoc]
      by_cases hk : key = k
      · subst hk
        simp
      · have hne : k ≠ key := fun heq => hk heq.symm
        simp [hk, hne]

/-- `get_queries` undoes the rendering of a query string: for every path without `?` and every list
of items, each key has the value of its last occurrence, and there is no other key. -/
theorem get_queries_render {path : Str} (hpath : '?' ∉ path) (items : List (QueryItem × Nat))
    (key : Str) :
    (getQueries (path ++ '?' :: renderQuery items))[key]? =
      (bindings items).reverse.lookup key := by
  have hdrop : (path ++ '?' :: renderQuery items).drop (path.length + 1) = renderQuery items := by
    simp
  rw [get_queries_eq, Fields.find_sep_append hpath]
  dsimp only
  rw [hdrop, set_query_items, get_insert_all]
  simp

/-- A repeated key, an empty value, `=` and `?` in a value, an item without `=` and a run of
separators. -/
theorem get_queries_render_repeated :
    (getQueries "/upload?m=&x?&&&m=4&c=a=b?".toList)[['m']]? = some ['4'] ∧
      (getQueries "/upload?m=&x?&&&m=4&c=a=b?".toList)[['c']]? = some "a=b?".toList := by
  have hrender := get_queries_render (by decide : '?' ∉ "/upload".toList)
    [(.pair ['m'] [] (by decide) (by decide), 0), (.other ['x', '?'] (by decide), 2),
      (.pair ['m'] ['4'] (by decide) (by decide), 0),
      (.pair ['c'] "a=b?".toList (by decide) (by decide), 0)]
  exact ⟨hrender ['m'], hrender ['c']⟩

/-! ## The handler -/

/-- The strings a `req_handler` keeps. -/
structure ReqHandler where
  container : Str
  mappers : Str
  reducers : Str

/-- `dest.find("/upload") != std::string::npos`. -/
def isUpload (dest : Str) : Bool := decide ("/upload".toList <:+: dest)

/-- The body of the loop of the constructor over the queries. -/
def ReqHandler.assign (h : ReqHandler) (itr : Str × Str) : ReqHandler :=
  let h := if itr.1 = "container".toList then { h with container := itr.2 } else h
  let h := if itr.1 = "m".toList then { h with mappers := itr.2 } else h
  if itr.1 = "r".toList then { h with reducers := itr.2 } else h

/-- The constructor of `req_handler`. -/
def ReqHandler.make (dest : Str) : ReqHandler :=
  if isUpload dest then (getQueries dest).toList.foldl ReqHandler.assign ⟨[], [], []⟩
  else ⟨[], [], []⟩

/-- The value of a key in the query string, empty if the key is absent. -/
def queryValue (dest key : Str) : Str := (getQueries dest)[key]?.getD []

/-- A member that a loop over a map sets at one key has the value of this key. -/
theorem fold_member {σ : Type*} (f : σ → Str × Str → σ) (member : σ → Str) {key : Str}
    (hset : ∀ s e, member (f s e) = if e.1 = key then e.2 else member s) (queries : Queries)
    (s : σ) :
    member (queries.toList.foldl f s) = queries[key]?.getD (member s) := by
  have hfold : ∀ l : List (Str × Str), member (l.foldl f s) =
      ((l.reverse.find? fun e => e.1 = key).map Prod.snd).getD (member s) := by
    intro l
    induction l using List.reverseRecOn with
    | nil => rfl
    | append_singleton l e ih =>
        rw [List.foldl_append, List.foldl_cons, List.foldl_nil, hset, List.reverse_append,
          List.reverse_singleton, List.singleton_append, List.find?_cons]
        by_cases he : e.1 = key
        · simp [he]
        · simp [he, ih]
  rw [hfold]
  congr 1
  cases hfind : queries.toList.reverse.find? fun e => e.1 = key with
  | none =>
      rw [Option.map_none, eq_comm, Option.eq_none_iff_forall_ne_some]
      intro v hv
      have hmem := ExtTreeMap.mem_toList_iff_getElem?_eq_some.mpr hv
      have hkey := List.find?_eq_none.mp hfind _ (List.mem_reverse.mpr hmem)
      simp at hkey
  | some e =>
      have hkey : e.1 = key := by simpa using List.find?_some hfind
      have hmem := List.mem_reverse.mp (List.mem_of_find?_eq_some hfind)
      rw [Option.map_some, ← hkey, ExtTreeMap.mem_toList_iff_getElem?_eq_some.mp hmem]

/-- The handler keeps the value of `m`. -/
theorem make_mappers {dest : Str} (h : isUpload dest = true) :
    (ReqHandler.make dest).mappers = queryValue dest "m".toList := by
  rw [ReqHandler.make, if_pos h]
  refine fold_member ReqHandler.assign ReqHandler.mappers (fun s e => ?_) (getQueries dest) _
  unfold ReqHandler.assign
  split_ifs <;> rfl

/-- The handler keeps the value of `r`. -/
theorem make_reducers {dest : Str} (h : isUpload dest = true) :
    (ReqHandler.make dest).reducers = queryValue dest "r".toList := by
  rw [ReqHandler.make, if_pos h]
  refine fold_member ReqHandler.assign ReqHandler.reducers (fun s e => ?_) (getQueries dest) _
  unfold ReqHandler.assign
  split_ifs <;> rfl

/-! ## The counts -/

/-- `strtol` in base ten: leading white space is skipped and what follows the digits is ignored. It
is zero if there is no digit, and the nearest `long` if the value does not fit one. -/
def strtol (s : Str) : Int :=
  let (negative, cs) := Decimal.splitSign (s.dropWhile isSpace)
  let v := Decimal.ofDigits negative (cs.takeWhile Char.isDigit)
  max (-2 ^ 63) (min v (2 ^ 63 - 1))

/-- `set_num_mappers`: the `long` is stored in an `int`. -/
def setNumMappers (smappers : Str) (m : Master) : Master :=
  { m with nmappers := Int.bmod (strtol smappers) (2 ^ 32) }

/-- `set_num_reducers`. -/
def setNumReducers (sreducers : Str) (m : Master) : Master :=
  { m with nreducers := Int.bmod (strtol sreducers) (2 ^ 32) }

/-- What `process` does to the counts of the leader, before it creates the sharding data. -/
def ReqHandler.setCounts (h : ReqHandler) (leader : Master) : Master :=
  let leader := setNumReducers h.reducers leader
  setNumMappers h.mappers leader

/-- `connection_handler`: a `POST` to a destination with `/upload` is processed, any other request
is refused. The leader is returned as `create_sharding_data` finds its counts. -/
def connectionHandler (method dest : Str) (leader : Master) : Option Master :=
  if method = "POST".toList ∧ isUpload dest then
    some ((ReqHandler.make dest).setCounts leader)
  else none

end MapReduce
