import MapReduce.Master.ReduceDispatch
import MapReduce.Worker.MapTask

/-!
# From the mappers to the reducers

A worker puts the id of the reducer at the end of the name of an intermediate blob, and the master
reads it there. This module joins the two ends: `m_IntblobList` holds the blobs of the replies
`do_work` gave, and `reduce_blob_vec` selects from it the blobs of a reducer.
-/

namespace MapReduce

/-! ## Reading a name -/

/-- The text of a number has no white space. -/
theorem is_space_of_int {i : Int} {c : Char} (h : c ∈ Decimal.ofInt i) : isSpace c = false := by
  rcases Decimal.mem_of_int h with hdigit | rfl
  · have hrange : 48 ≤ c.toNat ∧ c.toNat ≤ 57 := by
      simpa using Char.isDigit_iff_toNat.mp hdigit
    have hne : c ≠ ' ' := by
      rintro rfl
      exact absurd hrange (by decide)
    simp only [isSpace, Bool.or_eq_false_iff, Bool.and_eq_false_iff, decide_eq_false_iff_not]
    exact ⟨hne, by omega⟩
  · rfl

/-- A `long` that is written as a decimal is read back. -/
theorem stol_of_int {i : Int} (hmin : -2 ^ 63 ≤ i) (hmax : i < 2 ^ 63) :
    stol (Decimal.ofInt i) = some i := by
  obtain ⟨negative, ds, hsplit, hne, hdigits, hi⟩ := Decimal.split_sign_of_int i
  have hspace : (Decimal.ofInt i).dropWhile isSpace = Decimal.ofInt i := by
    rw [List.dropWhile_eq_self_iff]
    intro hpos
    rw [is_space_of_int (List.getElem_mem hpos)]
    exact Bool.false_ne_true
  have htake : ds.takeWhile Char.isDigit = ds := List.takeWhile_eq_self_iff.mpr hdigits
  unfold stol
  rw [hspace, hsplit]
  simp only [htake, hne, if_false, hi, hmin, hmax, and_self, if_true]

/-- The master reads the reducer from the name of an intermediate blob. -/
theorem reducer_of_blob_name (address : Str) (sid spid : Int) {i : Int} (hnonneg : 0 ≤ i)
    (hint : i < 2 ^ 31) : reducerOf (intermediateBlobName address sid spid i) = some i := by
  rw [reducerOf, intermediateBlobName, Fields.last_field_append (underscore_not_mem i),
    stol_of_int (by omega) (by omega), Option.map_some]
  rw [Int.bmod_eq_of_le (by omega) (by omega)]

/-- `reduce_blob_vec` selects the blobs of its reducer. -/
theorem reduce_blob_vec_eq {l : List Str} (h : ∀ item ∈ l, reducerOf item ≠ none) (jobid : Int) :
    reduceBlobVec jobid l = some (l.filter fun item => reducerOf item = some jobid) := by
  induction l with
  | nil => rfl
  | cons item l ih =>
      rw [List.forall_mem_cons] at h
      obtain ⟨r, hr⟩ := Option.ne_none_iff_exists'.mp h.1
      simp only [reduceBlobVec, hr, ih h.2, Option.bind_eq_bind, Option.bind_some,
        List.filter_cons]
      by_cases hj : r = jobid <;> simp [hj]

/-! ## The replies of a map phase -/

/-- A successful reply to a map task, with the request it answers and the worker that served it. -/
structure MapReply (nreducers : Int) where
  env : MapEnv
  worker : Worker
  request : MapperInput
  containername : Str
  blobs : List Str
  npartition : request.npartition = nreducers
  served : ∃ after, doWork env request worker = some (.ok containername blobs, after)

namespace MapReply

variable {nreducers : Int} (reply : MapReply nreducers)

/-- The name of the blob of a piece for a reducer. -/
def blobName (piece i : Nat) : Str :=
  intermediateBlobName reply.worker.fullAddress reply.request.shardId piece i

/-- The number of pieces of the shard. -/
def pieces : Nat := reply.request.stuples.length

/-- A reply names one blob for each piece and each reducer. -/
theorem blobs_eq : reply.blobs = (List.range reply.pieces).flatMap fun piece =>
    (List.range nreducers.toNat).map (reply.blobName piece) := by
  obtain ⟨after, hserved⟩ := reply.served
  rw [do_work_blobs reply.env hserved, reply.npartition]
  rfl

/-- The blobs of a reply have different names. -/
theorem blobs_nodup : reply.blobs.Nodup := by
  have hnodup := request_blobs_nodup reply.worker.fullAddress nreducers reply.request.shardId
    (fun _ => []) 0 reply.pieces
  rw [requestBlobs, List.map_flatMap, ← List.range_eq_range'] at hnodup
  simp only [pieceBlobs, List.map_map, Function.comp_def] at hnodup
  rw [reply.blobs_eq]
  exact hnodup

variable {reply} (hint : nreducers < 2 ^ 31)

include hint

/-- The master reads the reducer from the name of a blob. -/
theorem reducer_of {piece i : Nat} (hi : i < nreducers.toNat) :
    reducerOf (reply.blobName piece i) = some (i : Int) :=
  reducer_of_blob_name _ _ _ (Int.natCast_nonneg i) (by omega)

/-- Every blob of a reply is for one of the reducers. -/
theorem reducer_of_mem {item : Str} (h : item ∈ reply.blobs) :
    ∃ j < nreducers.toNat, reducerOf item = some (j : Int) := by
  rw [reply.blobs_eq] at h
  obtain ⟨piece, -, h⟩ := List.mem_flatMap.mp h
  obtain ⟨i, hi, rfl⟩ := List.mem_map.mp h
  exact ⟨i, List.mem_range.mp hi, reducer_of hint (List.mem_range.mp hi)⟩

/-- The blobs of a reply for one reducer are one for each piece. -/
theorem filter_blobs {j : Nat} (hj : j < nreducers.toNat) :
    reply.blobs.filter (fun item => reducerOf item = some (j : Int)) =
      (List.range reply.pieces).map fun piece => reply.blobName piece j := by
  rw [reply.blobs_eq, List.filter_flatMap, List.map_eq_flatMap]
  refine List.flatMap_congr fun piece _ => ?_
  have hown : (List.range nreducers.toNat).filter
      (fun i => reducerOf (reply.blobName piece i) = some (j : Int)) =
      (List.range nreducers.toNat).filter (· = j) := by
    refine List.filter_congr fun i hi => ?_
    rw [reducer_of hint (List.mem_range.mp hi)]
    simp only [Option.some.injEq, Int.natCast_inj]
  rw [List.filter_map, Function.comp_def, hown, List.filter_eq,
    List.count_eq_one_of_mem List.nodup_range (List.mem_range.mpr hj)]
  rfl

end MapReply

/-- The blobs of replies for different shards have different names. -/
theorem intblob_list_nodup {nreducers : Int} {replies : List (MapReply nreducers)}
    (hshards : (replies.map fun reply => reply.request.shardId).Nodup) :
    (replies.flatMap MapReply.blobs).Nodup := by
  rw [List.nodup_flatMap]
  refine ⟨fun reply _ => reply.blobs_nodup, ?_⟩
  refine (List.pairwise_map.mp hshards).imp fun {reply reply'} hne => ?_
  intro item hitem hitem'
  rw [reply.blobs_eq] at hitem
  rw [reply'.blobs_eq] at hitem'
  obtain ⟨piece, -, hitem⟩ := List.mem_flatMap.mp hitem
  obtain ⟨piece', -, hitem'⟩ := List.mem_flatMap.mp hitem'
  obtain ⟨i, -, rfl⟩ := List.mem_map.mp hitem
  obtain ⟨i', -, heq⟩ := List.mem_map.mp hitem'
  exact hne (intermediate_blob_name_inj heq).2.1.symm

/-- Every intermediate blob reaches exactly one reducer, and every reducer gets one blob for each
piece. The name of a blob determines the worker, the shard, the piece and the reducer, and the
number after its last underscore is the reducer. So for any successful replies, one for each
shard, the vectors the master selects for the reducers partition `m_IntblobList`, and the vector
of a reducer has one blob for each piece of each shard. -/
theorem intermediate_blobs_partition :
    (∀ address address' sid sid' spid spid' i i',
      intermediateBlobName address sid spid i = intermediateBlobName address' sid' spid' i' →
        address = address' ∧ sid = sid' ∧ spid = spid' ∧ i = i') ∧
    (∀ address sid spid i,
      intermediateFileName address sid spid i = intermediateBlobName address sid spid i) ∧
    (∀ address sid spid i, 0 ≤ i → i < 2 ^ 31 →
      reducerOf (intermediateBlobName address sid spid i) = some i) ∧
    ∀ nreducers : Int, 1 ≤ nreducers → nreducers < 2 ^ 31 →
      ∀ replies : List (MapReply nreducers),
        (replies.map fun reply => reply.request.shardId).Nodup →
        ∃ vec : Nat → List Str,
          (∀ j < nreducers.toNat,
            reduceBlobVec j (replies.flatMap MapReply.blobs) = some (vec j)) ∧
          (replies.flatMap MapReply.blobs).Perm ((List.range nreducers.toNat).flatMap vec) ∧
          (∀ i < nreducers.toNat, ∀ j < nreducers.toNat, i ≠ j → (vec i).Disjoint (vec j)) ∧
          ∀ j < nreducers.toNat, (vec j).Nodup ∧
            vec j = replies.flatMap fun reply =>
              (List.range reply.request.stuples.length).map fun (piece : Nat) =>
                intermediateBlobName reply.worker.fullAddress reply.request.shardId piece j := by
  refine ⟨fun _ _ _ _ _ _ _ _ => intermediate_blob_name_inj, intermediate_file_name_eq,
    fun address sid spid i hnonneg hint => reducer_of_blob_name address sid spid hnonneg hint, ?_⟩
  intro nreducers _ hint replies hshards
  have hnodup := intblob_list_nodup hshards
  have hread : ∀ item ∈ replies.flatMap MapReply.blobs,
      ∃ j < nreducers.toNat, reducerOf item = some (j : Int) := by
    intro item hitem
    obtain ⟨reply, -, hitem⟩ := List.mem_flatMap.mp hitem
    exact MapReply.reducer_of_mem hint hitem
  have hsome : ∀ item ∈ replies.flatMap MapReply.blobs, reducerOf item ≠ none := by
    intro item hitem
    obtain ⟨j, -, hj⟩ := hread item hitem
    simp [hj]
  have hdisjoint : ∀ i j : Nat, i ≠ j →
      ((replies.flatMap MapReply.blobs).filter fun item => reducerOf item = some (i : Int)).Disjoint
        ((replies.flatMap MapReply.blobs).filter fun item => reducerOf item = some (j : Int)) := by
    intro i j hne item hi hj
    have hi := (List.mem_filter.mp hi).2
    have hj := (List.mem_filter.mp hj).2
    simp only [decide_eq_true_eq] at hi hj
    rw [hi, Option.some.injEq, Int.natCast_inj] at hj
    exact hne hj
  refine ⟨fun j => (replies.flatMap MapReply.blobs).filter fun item =>
    reducerOf item = some (j : Int), fun j _ => reduce_blob_vec_eq hsome j, ?_,
    fun i _ j _ hne => hdisjoint i j hne, fun j hj => ⟨hnodup.filter _, ?_⟩⟩
  · have hparts : ((List.range nreducers.toNat).flatMap fun (j : Nat) =>
        (replies.flatMap MapReply.blobs).filter fun item =>
          reducerOf item = some (j : Int)).Nodup := by
      rw [List.nodup_flatMap]
      exact ⟨fun j _ => hnodup.filter _,
        List.Pairwise.imp (fun {i j} hne => hdisjoint i j hne) List.nodup_range⟩
    rw [List.perm_ext_iff_of_nodup hnodup hparts]
    intro item
    simp only [List.mem_flatMap, List.mem_range, List.mem_filter, decide_eq_true_eq]
    constructor
    · intro hitem
      obtain ⟨j, hj, hr⟩ := hread item (List.mem_flatMap.mpr hitem)
      exact ⟨j, hj, hitem, hr⟩
    · intro hvec
      obtain ⟨j, -, hitem, -⟩ := hvec
      exact hitem
  · show (replies.flatMap MapReply.blobs).filter _ = _
    rw [List.filter_flatMap]
    exact List.flatMap_congr fun reply _ => MapReply.filter_blobs hint hj

/-- Two workers, of which one served shard 0 of one piece and the other shard 1 of two pieces:
reducer 1 gets three blobs. -/
theorem intermediate_blobs_partition_two_shards :
    ∃ replies : List (MapReply 2), replies.length = 2 ∧
      reduceBlobVec 1 (replies.flatMap MapReply.blobs) =
        some [intermediateBlobName ['w'] 0 0 1, intermediateBlobName ['v'] 1 0 1,
          intermediateBlobName ['v'] 1 1 1] := by
  let reply₀ : MapReply 2 :=
    ⟨⟨fun _ _ _ _ => some ['x'], List.length, fun _ => true, fun c => (mapfunc c).entries⟩,
      ⟨['w'], ['c'], fun _ => none, fun _ => none, false⟩, ⟨2, 0, [⟨['b'], 0, 5⟩]⟩, ['c'],
      [intermediateBlobName ['w'] 0 0 0, intermediateBlobName ['w'] 0 0 1], rfl, _, rfl⟩
  let reply₁ : MapReply 2 :=
    ⟨⟨fun _ _ _ _ => some ['x'], List.length, fun _ => true, fun c => (mapfunc c).entries⟩,
      ⟨['v'], ['c'], fun _ => none, fun _ => none, false⟩,
      ⟨2, 1, [⟨['b'], 5, 8⟩, ⟨['d'], 0, 2⟩]⟩, ['c'],
      [intermediateBlobName ['v'] 1 0 0, intermediateBlobName ['v'] 1 0 1,
        intermediateBlobName ['v'] 1 1 0, intermediateBlobName ['v'] 1 1 1], rfl, _, rfl⟩
  obtain ⟨vec, hselect, -, -, hvec⟩ :=
    intermediate_blobs_partition.2.2.2 2 (by decide) (by decide) [reply₀, reply₁]
      (show [(0 : Int), 1].Nodup by decide)
  refine ⟨[reply₀, reply₁], rfl, (hselect 1 (by decide)).trans ?_⟩
  rw [(hvec 1 (by decide)).2]
  rfl

end MapReduce
