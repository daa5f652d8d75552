import MapReduce.Master.Helpers

/-!
# The state of a master

The members of `Master` (`w7/src/master/master.h`) that its job logic reads or writes, together
with the globals of `masterimpl.cc` that outlive a job: the replication list `g_repl_list`, its
flag `g_repl_data`, and the static counter of `getShardId`.
-/

namespace MapReduce

open Std (ExtTreeMap)

/-! ## `std::map`

A `std::map` with integer keys is an extensional tree map; `emplace`, which keeps the entry a key
already has, is `insertIfNew`. -/

section StdMap

variable {α β : Type*} {t : ExtTreeMap Int β compare} {i k : Int} {v : β}

/-- The keys after an `emplace`. -/
theorem mem_emplace : k ∈ t.insertIfNew i v ↔ i = k ∨ k ∈ t := by
  simp

/-- The entries after an `emplace` of a new key. -/
theorem get_emplace (h : i ∉ t) :
    (t.insertIfNew i v)[k]? = if i = k then some v else t[k]? := by
  simp [ExtTreeMap.getElem?_insertIfNew, h]

/-- The size after an `emplace` of a new key. -/
theorem size_emplace (h : i ∉ t) : (t.insertIfNew i v).size = t.size + 1 := by
  simp [ExtTreeMap.size_insertIfNew, h]

/-- The entries after a list of `emplace`s: the first one for a key wins. -/
theorem get_emplace_all (key : α → Int) (val : α → β) (l : List α) (t : ExtTreeMap Int β compare)
    (k : Int) :
    (l.foldl (fun t x => t.insertIfNew (key x) (val x)) t)[k]? =
      t[k]?.or ((l.find? fun x => key x = k).map val) := by
  induction l generalizing t with
  | nil => simp
  | cons x l ih =>
      rw [List.foldl_cons, ih, ExtTreeMap.getElem?_insertIfNew]
      by_cases hk : key x = k
      · subst hk
        by_cases hmem : key x ∈ t <;> simp [hmem]
      · simp [hk]

/-- Where keys do not repeat, the first element with a key is the only one. -/
theorem find_key {key : α → Int} {l : List α} (hnodup : (l.map key).Nodup) {x : α} (hx : x ∈ l) :
    l.find? (fun y => key y = key x) = some x := by
  cases hfind : l.find? fun y => key y = key x with
  | none => simpa using List.find?_eq_none.mp hfind x hx
  | some y =>
      have hkey : key y = key x := by simpa using List.find?_some hfind
      rw [List.inj_on_of_nodup_map hnodup (List.mem_of_find?_eq_some hfind) hx hkey]

/-- A map is read back from its entries. -/
theorem emplace_all_to_list (t : ExtTreeMap Int β compare) :
    t.toList.foldl (fun t e => t.insertIfNew e.1 e.2) ∅ = t := by
  refine ExtTreeMap.ext_getElem? fun k => ?_
  rw [get_emplace_all Prod.fst Prod.snd]
  cases hfind : t.toList.find? fun e => e.1 = k with
  | none =>
      have hnone : t[k]? = none := by
        rw [Option.eq_none_iff_forall_ne_some]
        intro v hv
        have hkey := List.find?_eq_none.mp hfind (k, v)
          (ExtTreeMap.mem_toList_iff_getElem?_eq_some.mpr hv)
        simp at hkey
      simp [hnone]
  | some e =>
      have hkey : e.1 = k := by simpa using List.find?_some hfind
      have hget := ExtTreeMap.mem_toList_iff_getElem?_eq_some.mp (List.mem_of_find?_eq_some hfind)
      rw [← hkey, hget]
      simp
end StdMap

/-! ## The members -/

/-- A `MapReduceClient *`: the identity of a client object. -/
abbrev ClientId := Nat

/-- The job state of a master. -/
structure Master where
  rid : Int
  nmappers : Int
  nreducers : Int
  containername : Str
  shardsz : Nat
  shards : List FileShard
  clients : List ClientId
  intermediateResultMap : ExtTreeMap Int MapperResult compare
  intblobList : List Str
  intcontainer : Str
  outputResultMap : ExtTreeMap Int Str compare
  bReplicated : Bool
  shardCounter : Int
  replList : List MapperResult
  replData : Bool

/-- The master the constructor `Master::Master` leaves. -/
def Master.init : Master where
  rid := 0
  nmappers := 0
  nreducers := 0
  containername := []
  shardsz := 0
  shards := []
  clients := []
  intermediateResultMap := ∅
  intblobList := []
  intcontainer := []
  outputResultMap := ∅
  bReplicated := false
  shardCounter := -1
  replList := []
  replData := true

end MapReduce
