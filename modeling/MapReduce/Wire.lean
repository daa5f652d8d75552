import MapReduce.Master.Checkpoint
import MapReduce.Master.ShardCount
import MapReduce.Worker.MapTask

/-!
# Byte ranges on the wire

The offsets of a shard are `size_t`s on the master and on the worker, and `int32` fields in between:
in the `MapperInput` of `MapReduceClient::invokeMapTaskAsync` (`w7/src/master/mrclient.h`), and in
the checkpoint a follower applies. Read `ranges_survive_iff` first: all ranges of all shards arrive
as they were sent exactly if every blob has fewer than `2 ^ 31` bytes.
-/

namespace MapReduce

/-! ## The request of a map task -/

/-- The request `invokeMapTaskAsync` sends for a shard. -/
def invokeMapTask (fileShard : FileShard) (nPartitions : Int) : MapperInput where
  npartition := nPartitions
  shardId := fileShard.shardId
  stuples := fileShard.sets.map ShardData.toTuple

/-- The ranges `do_work` passes to `map_shard`. -/
def MapperInput.received (request : MapperInput) : List ShardData :=
  request.stuples.map ShardTuple.toData

/-- `map_shard` for each of the ranges `sets`. -/
def mapShards (env : MapEnv) (nReducers shardId : Int) :
    Nat → List ShardData → Serving → Option Serving
  | _, [], s => some s
  | pieceId, d :: sets, s => do
      let (_, s) ← mapShard env d.blobName d.begin_ d.end_ nReducers shardId pieceId s
      mapShards env nReducers shardId (pieceId + 1) sets s

/-- `do_work` calls `map_shard` for the ranges it received. -/
theorem do_work_loop_eq (env : MapEnv) (nReducers shardId : Int) (pieceId : Nat)
    (stuples : List ShardTuple) (s : Serving) :
    doWorkLoop env nReducers shardId pieceId stuples s =
      mapShards env nReducers shardId pieceId (stuples.map ShardTuple.toData) s := by
  induction stuples generalizing pieceId s with
  | nil => rfl
  | cons stuple stuples ih =>
      rw [doWorkLoop, List.map_cons, mapShards]
      simp only [ih]
      rfl

/-! ## The offsets of the pieces -/

/-- The loop of `make_shards` emits no offset behind the end of the blob, and reaches the end unless
it leaves a rest. -/
theorem make_shards_loop_offsets {name : Str} {sz size fuel : Nat} {c c' : Cursor}
    {ps : List ShardInfo} (h : makeShardsLoop name sz size fuel c = some (ps, c'))
    (hc : c.begin_ ≤ size) :
    (∀ p ∈ ps, p.beginOffset ≤ size ∧ p.endOffset ≤ size) ∧ c'.begin_ ≤ size ∧
      (c'.end_ ≤ size → ∃ p ∈ ps, p.endOffset = size) := by
  induction fuel generalizing c c' ps with
  | zero => cases h
  | succ fuel ih =>
      simp only [makeShardsLoop] at h
      split at h
      · next hend =>
        split at h
        · next hlast =>
          cases h
          exact ⟨by simp [hc, hend], hc, fun _ => ⟨_, List.mem_singleton.mpr rfl, hlast⟩⟩
        · split at h
          · next hover =>
            cases h
            exact ⟨by simp [hc, hend], hend, fun hle => absurd hle (by simpa using hover)⟩
          · obtain ⟨⟨pieces, last⟩, hrest, h⟩ := Option.bind_eq_some_iff.mp h
            cases h
            obtain ⟨hoffsets, hbegin, hreached⟩ := ih hrest hend
            refine ⟨?_, hbegin, fun hle => ?_⟩
            · rw [List.forall_mem_cons]
              exact ⟨⟨hc, hend⟩, hoffsets⟩
            · obtain ⟨p, hp, hpend⟩ := hreached hle
              exact ⟨p, List.mem_cons_of_mem _ hp, hpend⟩
      · next hover =>
        cases h
        exact ⟨by simp, hc, fun hle => absurd hle hover⟩

/-- The pieces of a blob have no offset behind its end, and one of them ends there. -/
theorem make_blob_shards_offsets {fuel sz size rem rem' : Nat} {name : Str} {ps : List ShardInfo}
    (h : makeBlobShards fuel sz name size rem = some (ps, rem')) :
    (∀ p ∈ ps, p.beginOffset ≤ size ∧ p.endOffset ≤ size) ∧ ∃ p ∈ ps, p.endOffset = size := by
  obtain ⟨⟨pieces, c⟩, hloop, h⟩ := Option.bind_eq_some_iff.mp h
  obtain ⟨hoffsets, hbegin, hreached⟩ := make_shards_loop_offsets hloop (Nat.zero_le _)
  simp only at h
  split at h
  · cases h
    refine ⟨?_, _, List.mem_append_right _ (List.mem_singleton.mpr rfl), rfl⟩
    rw [List.forall_mem_append]
    exact ⟨hoffsets, by simp [hbegin]⟩
  · next hle =>
    cases h
    exact ⟨hoffsets, hreached (Nat.not_lt.mp hle)⟩

/-- The pieces of a listing have no offset behind the end of their blob, and one of each blob ends
there. -/
theorem make_shards_from_offsets {fuel sz : Nat} {items : List ListBlobItem} {rem : Nat}
    {result : List ShardInfo × Nat} (h : makeShardsFrom fuel sz items rem = some result) :
    (∀ p ∈ result.1, ∃ b ∈ blobs items, p.beginOffset ≤ b.2 ∧ p.endOffset ≤ b.2) ∧
      ∀ b ∈ blobs items, ∃ p ∈ result.1, p.endOffset = b.2 := by
  induction items generalizing rem result with
  | nil =>
      cases h
      simp [blobs]
  | cons item items ih =>
      cases item with
      | directory name => exact ih h
      | blob name size =>
          obtain ⟨⟨pieces, rem'⟩, hblob, h⟩ := Option.bind_eq_some_iff.mp h
          obtain ⟨⟨rest, rem''⟩, hrest, h⟩ := Option.bind_eq_some_iff.mp h
          cases h
          obtain ⟨hoffsets, p, hp, hend⟩ := make_blob_shards_offsets hblob
          obtain ⟨hothers, hends⟩ := ih hrest
          simp only [blobs, List.forall_mem_append, List.forall_mem_cons, List.exists_mem_cons_iff]
          refine ⟨⟨fun p hp => .inl (hoffsets p hp), fun p hp => .inr (hothers p hp)⟩,
            ⟨p, List.mem_append_left _ hp, hend⟩, fun b hb => ?_⟩
          obtain ⟨p, hp, hend⟩ := hends b hb
          exact ⟨p, List.mem_append_right _ hp, hend⟩

/-! ## The ranges that survive -/

/-- A range survives exactly if both offsets do. -/
theorem to_tuple_to_data_iff {d : ShardData} :
    d.toTuple.toData = d ↔
      ofInt32 (toInt32 d.begin_) = d.begin_ ∧ ofInt32 (toInt32 d.end_) = d.end_ := by
  obtain ⟨name, begin_, end_⟩ := d
  simp [ShardData.toTuple, ShardTuple.toData]

/-- A shard is received as it was sent exactly if all its ranges survive. -/
theorem received_eq_iff {shard : FileShard} {nPartitions : Int} :
    (invokeMapTask shard nPartitions).received = shard.sets ↔
      ∀ d ∈ shard.sets, d.toTuple.toData = d := by
  have hmap := List.map_inj_left (f := ShardTuple.toData ∘ ShardData.toTuple) (g := id)
    (l := shard.sets)
  rw [List.map_id] at hmap
  rw [MapperInput.received, invokeMapTask, List.map_map]
  exact hmap

/-- Byte ranges survive the wire exactly if every blob has fewer than `2 ^ 31` bytes. For every
container, every `shard_sz` and all shards made of them: the ranges `map_shard` receives are those
of the shard, and a follower that applies a checkpoint holds the shards of the leader. -/
theorem ranges_survive_iff (k : Container) (shardSz fuel : Nat) (pieces : List ShardInfo)
    (hmade : makeShards fuel shardSz k.items = some pieces) (id : Int) :
    ((∀ shard ∈ (joinShards id [] pieces).1, ∀ nPartitions,
        (invokeMapTask shard nPartitions).received = shard.sets) ∧
      ∀ leader follower : Master, leader.shards = (joinShards id [] pieces).1 →
        (deserializeData (serializeData leader) follower).shards = leader.shards) ↔
    ∀ b ∈ blobs k.items, b.2 < 2 ^ 31 := by
  have hcapacity : ∀ b ∈ blobs k.items, b.2 < 2 ^ 63 := fun b hb =>
    Nat.lt_of_le_of_lt (List.single_le_sum (by simp) _ (List.mem_map_of_mem hb)) k.capacity
  obtain ⟨result, hfrom, rfl⟩ := Option.map_eq_some_iff.mp hmade
  obtain ⟨hoffsets, hends⟩ := make_shards_from_offsets hfrom
  have hsets : (joinShards id [] result.1).1.flatMap FileShard.sets =
      result.1.map ShardInfo.data := by
    simpa using join_shards_flatten id [] result.1
  constructor
  · intro hboth b hb
    obtain ⟨hwire, -⟩ := hboth
    obtain ⟨p, hp, hend⟩ := hends b hb
    have hmem : p.data ∈ (joinShards id [] result.1).1.flatMap FileShard.sets := by
      rw [hsets]
      exact List.mem_map_of_mem hp
    obtain ⟨shard, hshard, hd⟩ := List.mem_flatMap.mp hmem
    have hsurvives := received_eq_iff.mp (hwire shard hshard 0) p.data hd
    have hsize : ofInt32 (toInt32 b.2) = b.2 := hend ▸ (to_tuple_to_data_iff.mp hsurvives).2
    have hbound := hcapacity b hb
    have hfits := (of_int32_to_int32_iff (by omega)).mp hsize
    omega
  · intro hsmall
    have hfits : ∀ shard ∈ (joinShards id [] result.1).1, ∀ d ∈ shard.sets,
        d.begin_ < 2 ^ 31 ∧ d.end_ < 2 ^ 31 := by
      intro shard hshard d hd
      have hmem : d ∈ result.1.map ShardInfo.data :=
        hsets ▸ List.mem_flatMap.mpr ⟨shard, hshard, hd⟩
      obtain ⟨p, hp, rfl⟩ := List.mem_map.mp hmem
      obtain ⟨b, hb, hbegin, hend⟩ := hoffsets p hp
      have hsize := hsmall b hb
      exact ⟨Nat.lt_of_le_of_lt hbegin hsize, Nat.lt_of_le_of_lt hend hsize⟩
    refine ⟨fun shard hshard nPartitions => received_eq_iff.mpr fun d hd => ?_,
      fun leader follower hshards => ?_⟩
    · obtain ⟨hbegin, hend⟩ := hfits shard hshard d hd
      exact to_tuple_to_data_iff.mpr ⟨(of_int32_to_int32_iff (by omega)).mpr (Or.inl hbegin),
        (of_int32_to_int32_iff (by omega)).mpr (Or.inl hend)⟩
    · exact deserialize_shards_eq leader follower (hshards ▸ hfits)

/-- A blob of `2 ^ 31 - 1` bytes, the largest that survives. -/
theorem ranges_survive_largest :
    ∃ pieces, makeShards 2 (2 ^ 31) [.blob ['a'] (2 ^ 31 - 1)] = some pieces ∧
      pieces.map ShardInfo.range = [(0, 2 ^ 31 - 1)] ∧
      ∀ shard ∈ (joinShards (-1) [] pieces).1, ∀ nPartitions,
        (invokeMapTask shard nPartitions).received = shard.sets := by
  refine ⟨_, rfl, rfl, ?_⟩
  exact ((ranges_survive_iff ⟨[.blob ['a'] (2 ^ 31 - 1)], by decide⟩ (2 ^ 31) 2 _ rfl (-1)).mpr
    (by decide)).1

/-- The end of a blob of `2 ^ 31` bytes is received as `2 ^ 64 - 2 ^ 31`, and so a follower holds
it. -/
theorem range_end_wraps :
    ∃ pieces, makeShards 2 (2 ^ 31) [.blob ['a'] (2 ^ 31)] = some pieces ∧
      ∃ shard ∈ (joinShards (-1) [] pieces).1,
        shard.sets = [⟨['a'], 0, 2 ^ 31⟩] ∧
        (invokeMapTask shard 1).received = [⟨['a'], 0, 2 ^ 64 - 2 ^ 31⟩] ∧
        (deserializeData (serializeData { Master.init with shards := [shard] })
          Master.init).shards = [⟨0, [⟨['a'], 0, 2 ^ 64 - 2 ^ 31⟩]⟩] := by
  refine ⟨_, rfl, ⟨0, [⟨['a'], 0, 2 ^ 31⟩]⟩, ?_, rfl, rfl, rfl⟩
  exact List.mem_singleton.mpr rfl

end MapReduce
