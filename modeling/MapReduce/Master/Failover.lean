import MapReduce.Master.Checkpoint
import MapReduce.Master.MapLoop

/-!
# Taking over a job

`processReplicatedData` on a master that holds a checkpoint: the shards without a replicated result
are dispatched, the others are not. Read `failover_counts_once` first: whatever the order of
completions, failures and retries, the replicated results and those obtained since the takeover are
the entries of `m_IntermediateResultMap`, one for each completed shard, and `m_IntblobList` holds
their blobs and no others.
-/

namespace MapReduce

open Machine (Reachable)
open Std (ExtTreeMap)

/-- The results a checkpoint carries. -/
def CheckPointData.results (reply : CheckPointData) : List MapperResult :=
  reply.jobList.map JobStatus.result

/-- The shards of a checkpoint are numbered by their position. -/
def CheckPointData.IdsAreIndices (reply : CheckPointData) : Prop :=
  ∀ i, (h : i < reply.shardList.length) → reply.shardList[i].shardId = i

/-- `Attempts t rs`: the entries of a result map are the results `rs`, one for each shard. -/
structure Attempts (t : ExtTreeMap Int MapperResult compare) (rs : List MapperResult) : Prop where
  once : (rs.map MapperResult.shardId).Nodup
  entry : ∀ r ∈ rs, t[r.shardId]? = some r
  keys : ∀ i, i ∈ t ↔ i ∈ rs.map MapperResult.shardId

/-- The entries of a result map, as a list. -/
theorem Attempts.to_list_perm {t : ExtTreeMap Int MapperResult compare} {rs : List MapperResult}
    (h : Attempts t rs) : t.toList.Perm (rs.map fun r => (r.shardId, r)) := by
  have hkeys : t.toList.Nodup := by
    refine List.Nodup.of_map Prod.fst ?_
    rw [ExtTreeMap.map_fst_toList_eq_keys]
    exact ExtTreeMap.nodup_keys
  have hentries : (rs.map fun r => (r.shardId, r)).Nodup := by
    refine List.Nodup.of_map Prod.fst ?_
    rw [List.map_map]
    exact h.once
  rw [List.perm_ext_iff_of_nodup hkeys hentries]
  rintro ⟨i, v⟩
  rw [ExtTreeMap.mem_toList_iff_getElem?_eq_some, List.mem_map]
  constructor
  · intro hget
    have hmem : i ∈ t := ExtTreeMap.mem_iff_isSome_getElem?.mpr (by rw [hget]; rfl)
    obtain ⟨r, hr, rfl⟩ := List.mem_map.mp ((h.keys i).mp hmem)
    rw [h.entry r hr, Option.some.injEq] at hget
    exact ⟨r, hr, by rw [hget]⟩
  · intro hres
    obtain ⟨r, hr, heq⟩ := hres
    obtain ⟨rfl, rfl⟩ := Prod.mk.inj heq
    exact h.entry r hr

/-- The blobs of the entries are those of the attempts. -/
theorem Attempts.blobs_perm {t : ExtTreeMap Int MapperResult compare} {rs : List MapperResult}
    (h : Attempts t rs) :
    (rs.flatMap MapperResult.blobList).Perm (t.toList.flatMap fun e => e.2.blobList) := by
  have hperm := (h.to_list_perm.flatMap_right fun e => e.2.blobList).symm
  rwa [List.flatMap_map] at hperm

/-- A master that holds a checkpoint with one task for each shard has the results of it. -/
theorem deserialize_attempts {reply : CheckPointData}
    (hnodup : (reply.jobList.map JobStatus.shardId).Nodup) (m : Master) :
    Attempts (deserializeData reply m).intermediateResultMap reply.results := by
  have hids : reply.results.map MapperResult.shardId = reply.jobList.map JobStatus.shardId := by
    simp [CheckPointData.results, JobStatus.result]
  have hget : ∀ i, (deserializeData reply m).intermediateResultMap[i]? =
      (reply.jobList.find? fun js => js.shardId = i).map JobStatus.result := by
    intro i
    rw [deserialize_data_eq]
    simp [get_emplace_all JobStatus.shardId JobStatus.result]
  refine ⟨hids ▸ hnodup, ?_, fun i => ?_⟩
  · intro r hr
    obtain ⟨js, hjs, rfl⟩ := List.mem_map.mp hr
    rw [hget]
    exact congrArg (Option.map JobStatus.result) (find_key hnodup hjs)
  · rw [ExtTreeMap.mem_iff_isSome_getElem?, hget, Option.isSome_map, List.find?_isSome, hids]
    simp

/-- Failover counts every shard at most once. For every checkpoint with one task for each shard and
shards numbered by position, and in every state `dispatchMapTasks` reaches after the takeover: no
shard of the checkpoint's tasks is queued or in flight; `m_IntblobList` is a permutation of the blob
lists in `m_IntermediateResultMap`; and the entries of the map are the replicated results and the
successful attempts `done` made since, one for each completed shard. -/
theorem failover_counts_once (reply : CheckPointData) (m : Master)
    (hnodup : (reply.jobList.map JobStatus.shardId).Nodup) (hids : reply.IdsAreIndices)
    (s : MapLoop)
    (hreach : Reachable MapLoop.step (.enter (processReplicatedData (deserializeData reply m))) s) :
    (∀ i ∈ reply.jobList.map JobStatus.shardId,
      i ∉ s.data.jobQ ∧ i ∉ s.data.inFlight.map MapCall.shardId) ∧
    s.data.intblobList.Perm (s.data.intermediateResultMap.toList.flatMap fun e => e.2.blobList) ∧
    ∃ done : List MapperResult,
      s.data.intblobList = (reply.results ++ done).flatMap MapperResult.blobList ∧
      ((reply.results ++ done).map MapperResult.shardId).Nodup ∧
      (∀ r ∈ reply.results ++ done, s.data.intermediateResultMap[r.shardId]? = some r) ∧
      ∀ i, i ∈ s.data.intermediateResultMap ↔
        i ∈ (reply.results ++ done).map MapperResult.shardId := by
  have hshards : IdsAreIndices (deserializeData reply m).shards := by
    rw [deserialize_data_eq]
    intro i h
    rw [List.getElem_map]
    exact hids i (by simpa using h)
  have hentry := process_replicated_data_entry hshards
  have hstart := deserialize_attempts hnodup m
  obtain ⟨ls, hrun⟩ := MapLoop.data_reachable hreach
  obtain ⟨hpool, -, -, -, -, done, hdone⟩ := hentry.run hrun
  have hkeys : ∀ i, i ∈ s.data.intermediateResultMap ↔
      i ∈ (reply.results ++ done).map MapperResult.shardId := by
    intro i
    rw [List.map_append, List.mem_append, ← hstart.keys i]
    exact hdone.keys i
  have hattempts : Attempts s.data.intermediateResultMap (reply.results ++ done) := by
    refine ⟨?_, ?_, hkeys⟩
    · rw [List.map_append]
      refine hstart.once.append hdone.once fun i hi hi' => ?_
      obtain ⟨r, hr, rfl⟩ := List.mem_map.mp hi'
      exact hdone.fresh r hr ((hstart.keys _).mpr hi)
    · intro r hr
      rcases List.mem_append.mp hr with hold | hnew
      · rw [hdone.kept _ ((hstart.keys _).mpr (List.mem_map_of_mem hold))]
        exact hstart.entry r hold
      · exact hdone.entry r hnew
  have hblobs : s.data.intblobList = (reply.results ++ done).flatMap MapperResult.blobList := by
    have hfirst : (deserializeData reply m).intblobList =
        reply.results.flatMap MapperResult.blobList := by
      rw [deserialize_data_eq]
      simp [CheckPointData.results, List.flatMap_map, JobStatus.result]
    rw [hdone.blobs, List.flatMap_append, ← hfirst]
    rfl
  refine ⟨fun i hi => ?_, hblobs ▸ hattempts.blobs_perm, done, hblobs, hattempts.once,
    hattempts.entry, hattempts.keys⟩
  have hsettled : i ∈ s.data.intermediateResultMap := by
    rw [hkeys, List.map_append, List.mem_append]
    left
    simpa [CheckPointData.results, JobStatus.result] using hi
  exact ⟨fun hq => hpool.not_settled (Or.inl hq) hsettled,
    fun hflight => hpool.not_settled (Or.inr (Or.inl hflight)) hsettled⟩

/-- A checkpoint of two shards, of which the first is mapped. -/
def halfMapped : CheckPointData where
  reqId := 0
  nMappers := 2
  nReducers := 1
  inContainer := ['i']
  shardList := [⟨0, [⟨['a'], 0, 5⟩]⟩, ⟨1, [⟨['a'], 5, 9⟩]⟩]
  jobList := [⟨0, ['c'], [['x']]⟩]
  reduceJobList := []

/-- Only the second shard is dispatched after the takeover, and its blob joins that of the first. -/
theorem failover_counts_once_second_shard :
    ∃ s, Machine.run MapLoop.step
        (.enter (processReplicatedData (deserializeData halfMapped Master.init)))
        [.dispatch 7, .allDispatched, .complete ⟨1, 7⟩ (.ok ['c'] [['y']]), .received, .handle,
          .test] = some s ∧
      s.pc = .exited ∧ s.data.intblobList = [['x'], ['y']] ∧
      s.data.intblobList.Perm
        (s.data.intermediateResultMap.toList.flatMap fun e => e.2.blobList) := by
  refine ⟨_, rfl, rfl, rfl, ?_⟩
  refine (failover_counts_once halfMapped Master.init (by decide) ?_ _
    ⟨[.dispatch 7, .allDispatched, .complete ⟨1, 7⟩ (.ok ['c'] [['y']]), .received, .handle, .test],
      rfl⟩).2.1
  unfold CheckPointData.IdsAreIndices
  decide

end MapReduce
