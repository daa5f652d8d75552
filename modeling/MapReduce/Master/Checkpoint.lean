import MapReduce.Master.State
import MapReduce.Protos

/-!
# Checkpoints

The two ends of replication, `Master::serialize_data` on the leader and
`Master::deserialize_data` on the follower (`w7/src/master/masterimpl.cc`). The `int32` fields
that carry an `int` are exact; the offsets of a shard are `size_t` on both ends and pass through
`int32` fields.
-/

namespace MapReduce

open Std (ExtTreeMap)

/-- A range of a shard, encoded. -/
def ShardData.toTuple (d : ShardData) : ShardTuple := ⟨d.blobName, toInt32 d.begin_, toInt32 d.end_⟩

/-- A range of a shard, decoded. -/
def ShardTuple.toData (t : ShardTuple) : ShardData :=
  ⟨t.blobname, ofInt32 t.startoffset, ofInt32 t.endoffset⟩

/-- `serialize_data` into an empty message. -/
def serializeData (m : Master) : CheckPointData where
  reqId := m.rid
  nMappers := m.nmappers
  nReducers := m.nreducers
  inContainer := m.containername
  shardList := m.shards.map fun s => ⟨s.shardId, s.sets.map ShardData.toTuple⟩
  jobList := m.replList.map fun item => ⟨item.shardId, item.cname, item.blobList⟩
  reduceJobList := m.outputResultMap.toList.map fun entry => ⟨entry.1, entry.2⟩

/-- The `MapperResult` that `deserialize_data` makes of a completed map task. -/
def JobStatus.result (js : JobStatus) : MapperResult :=
  ⟨.success, js.shardId, js.intContainer, false, js.blobList⟩

/-- The loop of `deserialize_data` over the completed map tasks. -/
def deserializeJobs (m : Master) (jobs : List JobStatus) : Master :=
  jobs.foldl (fun m js => { m with
    intcontainer := js.intContainer
    intermediateResultMap := m.intermediateResultMap.insertIfNew js.shardId js.result
    intblobList := m.intblobList ++ js.blobList }) m

/-- `deserialize_data`. -/
def deserializeData (reply : CheckPointData) (m : Master) : Master :=
  let m := { m with
    rid := reply.reqId
    nmappers := reply.nMappers
    nreducers := reply.nReducers
    containername := reply.inContainer
    shards := reply.shardList.map fun f => ⟨f.shardId, f.stuples.map ShardTuple.toData⟩
    intermediateResultMap := ∅
    intblobList := [] }
  let m := deserializeJobs m reply.jobList
  { m with
    outputResultMap := reply.reduceJobList.foldl
      (fun t r => t.insertIfNew r.jobid r.outContainer) ∅
    bReplicated := true }

/-! ## What a follower holds -/

/-- The loop over the completed tasks: the first task of a shard is kept, the blobs are listed in
order, and the container is that of the last task. -/
theorem deserialize_jobs_eq (m : Master) (jobs : List JobStatus) :
    deserializeJobs m jobs = { m with
      intcontainer := (jobs.getLast?.map JobStatus.intContainer).getD m.intcontainer
      intermediateResultMap := jobs.foldl
        (fun t js => t.insertIfNew js.shardId js.result) m.intermediateResultMap
      intblobList := m.intblobList ++ jobs.flatMap JobStatus.blobList } := by
  induction jobs generalizing m with
  | nil => simp [deserializeJobs]
  | cons js jobs ih =>
      unfold deserializeJobs at ih ⊢
      rw [List.foldl_cons, ih, List.getLast?_cons]
      cases jobs.getLast? <;> simp

/-- What `deserialize_data` leaves. -/
theorem deserialize_data_eq (reply : CheckPointData) (m : Master) :
    deserializeData reply m = { m with
      rid := reply.reqId
      nmappers := reply.nMappers
      nreducers := reply.nReducers
      containername := reply.inContainer
      shards := reply.shardList.map fun f => ⟨f.shardId, f.stuples.map ShardTuple.toData⟩
      intcontainer := (reply.jobList.getLast?.map JobStatus.intContainer).getD m.intcontainer
      intermediateResultMap := reply.jobList.foldl
        (fun t js => t.insertIfNew js.shardId js.result) ∅
      intblobList := reply.jobList.flatMap JobStatus.blobList
      outputResultMap := reply.reduceJobList.foldl
        (fun t r => t.insertIfNew r.jobid r.outContainer) ∅
      bReplicated := true } := by
  rw [deserializeData, deserialize_jobs_eq]
  simp

/-- Applying a checkpoint again changes nothing. -/
theorem deserialize_data_twice (reply : CheckPointData) (m : Master) :
    deserializeData reply (deserializeData reply m) = deserializeData reply m := by
  rw [deserialize_data_eq reply m, deserialize_data_eq]
  cases reply.jobList.getLast? <;> rfl

section Takeover

variable (leader follower : Master)

/-- A follower has the shards of the leader, up to the encoding of their offsets. -/
theorem deserialize_shards :
    (deserializeData (serializeData leader) follower).shards = leader.shards.map fun s =>
      ⟨s.shardId, s.sets.map fun d => d.toTuple.toData⟩ := by
  simp [deserialize_data_eq, serializeData, Function.comp_def]

/-- A follower has the shards of the leader if their offsets fit the message. -/
theorem deserialize_shards_eq
    (hoffsets : ∀ s ∈ leader.shards, ∀ d ∈ s.sets, d.begin_ < 2 ^ 31 ∧ d.end_ < 2 ^ 31) :
    (deserializeData (serializeData leader) follower).shards = leader.shards := by
  have hdata : ∀ s ∈ leader.shards, ∀ d ∈ s.sets, d.toTuple.toData = d := by
    intro s hs d hd
    obtain ⟨hbegin, hend⟩ := hoffsets s hs d hd
    unfold ShardData.toTuple ShardTuple.toData
    rw [(of_int32_to_int32_iff (by omega)).mpr (Or.inl hbegin),
      (of_int32_to_int32_iff (by omega)).mpr (Or.inl hend)]
  rw [deserialize_shards]
  refine (List.map_congr_left fun s hs => ?_).trans (List.map_id leader.shards)
  rw [List.map_congr_left (hdata s hs), List.map_id']
  rfl

/-- A follower has the number of mappers of the leader. -/
theorem deserialize_nmappers :
    (deserializeData (serializeData leader) follower).nmappers = leader.nmappers := by
  rw [deserialize_data_eq]
  rfl

/-- The result a follower has for a shard is the first one in the replication list of the leader. -/
theorem deserialize_results (i : Int) :
    (deserializeData (serializeData leader) follower).intermediateResultMap[i]? =
      (leader.replList.find? fun r => r.shardId = i).map fun r =>
        ⟨.success, r.shardId, r.cname, false, r.blobList⟩ := by
  rw [deserialize_data_eq]
  simp only [get_emplace_all JobStatus.shardId JobStatus.result, serializeData, List.find?_map]
  simp [Function.comp_def, JobStatus.result]

/-- A follower has a result for the shards in the replication list of the leader. -/
theorem deserialize_keys (i : Int) :
    i ∈ (deserializeData (serializeData leader) follower).intermediateResultMap ↔
      i ∈ leader.replList.map MapperResult.shardId := by
  rw [ExtTreeMap.mem_iff_isSome_getElem?, deserialize_results, Option.isSome_map,
    List.find?_isSome]
  simp

/-- The ids of the shards survive replication. -/
theorem deserialize_ids (hids : IdsAreIndices leader.shards) :
    IdsAreIndices (deserializeData (serializeData leader) follower).shards := by
  intro i h
  simp only [deserialize_shards, List.getElem_map]
  exact hids i (by simpa [deserialize_shards] using h)

/-- A follower has the completed reduce tasks of the leader. -/
theorem deserialize_outputs :
    (deserializeData (serializeData leader) follower).outputResultMap = leader.outputResultMap := by
  simp only [deserializeData, serializeData, List.foldl_map]
  exact emplace_all_to_list leader.outputResultMap

end Takeover

/-- A checkpoint restores the job of the leader, whatever the follower held before: the request, the
counts, the container, the shards and the completed reduce tasks are those of the leader; a shard
has a result exactly if it is in the replication list, which is the first one there; the blobs are
all those of the list in order; the container of the results is that of the last one, if there is
one. Applying the message again changes nothing. -/
theorem checkpoint_restores (leader follower : Master)
    (hoffsets : ∀ s ∈ leader.shards, ∀ d ∈ s.sets, d.begin_ < 2 ^ 31 ∧ d.end_ < 2 ^ 31) :
    let m := deserializeData (serializeData leader) follower
    (m.rid = leader.rid ∧ m.nmappers = leader.nmappers ∧ m.nreducers = leader.nreducers ∧
      m.containername = leader.containername ∧ m.shards = leader.shards ∧
      m.outputResultMap = leader.outputResultMap) ∧
    (∀ i, i ∈ m.intermediateResultMap ↔ i ∈ leader.replList.map MapperResult.shardId) ∧
    (∀ i, m.intermediateResultMap[i]? =
      (leader.replList.find? fun r => r.shardId = i).map fun r =>
        ⟨.success, r.shardId, r.cname, false, r.blobList⟩) ∧
    m.intblobList = leader.replList.flatMap MapperResult.blobList ∧
    m.intcontainer = (leader.replList.getLast?.map MapperResult.cname).getD follower.intcontainer ∧
    deserializeData (serializeData leader) m = m := by
  refine ⟨⟨?_, deserialize_nmappers leader follower, ?_, ?_,
    deserialize_shards_eq leader follower hoffsets, deserialize_outputs leader follower⟩,
    deserialize_keys leader follower, deserialize_results leader follower, ?_, ?_,
    deserialize_data_twice _ _⟩
  · rw [deserialize_data_eq]
    rfl
  · rw [deserialize_data_eq]
    rfl
  · rw [deserialize_data_eq]
    rfl
  · simp [deserialize_data_eq, serializeData, List.flatMap_map]
  · simp [deserialize_data_eq, serializeData, Function.comp_def]

/-- Two results for the same shard: the follower keeps the first, lists the blobs of both, and has
the container of the second. -/
theorem checkpoint_restores_repeated_shard :
    let leader : Master := { Master.init with
      rid := 3
      shards := [⟨0, [⟨['a'], 0, 5⟩]⟩]
      replList := [⟨.success, 0, ['c'], false, [['x']]⟩, ⟨.success, 0, ['d'], false, [['y']]⟩] }
    let m := deserializeData (serializeData leader) Master.init
    m.rid = 3 ∧ m.shards = [⟨0, [⟨['a'], 0, 5⟩]⟩] ∧
      m.intermediateResultMap[(0 : Int)]? = some ⟨.success, 0, ['c'], false, [['x']]⟩ ∧
      m.intblobList = [['x'], ['y']] ∧ m.intcontainer = ['d'] := by
  intro leader m
  obtain ⟨⟨hrid, _, _, _, hshards, _⟩, _, hresult, hblobs, hcontainer, _⟩ :=
    checkpoint_restores leader Master.init (by decide)
  exact ⟨hrid, hshards, hresult 0, hblobs, hcontainer⟩

end MapReduce
