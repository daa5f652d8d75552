import MapReduce.Master.Checkpoint
import MapReduce.Master.MapLoop
import MapReduce.Master.ShardCount

/-!
# The map phase of a job

`runMapper` after `create_sharding_data`, and `processReplicatedData` on a master that takes over
from a checkpoint. The loop of `dispatchMapTasks` compares the number of completed shards with
`m_nmappers`; the results below say what follows where the sharder makes another number of
shards, and where a checkpoint leaves nothing to do.
-/

namespace MapReduce

open Machine (Reachable)

/-! ## Leaving the loop -/

/-- Every shard has an entry, and the blobs of the entry are listed for the reducers. -/
def AllMapped (s : MapDispatch) : Prop :=
  ∀ shard ∈ s.shards, ∃ res, s.intermediateResultMap[shard.shardId]? = some res ∧
    ∀ blob ∈ res.blobList, blob ∈ s.intblobList

/-- After `runMapper` the shards are the tasks. -/
theorem run_mapper_tasks (m : Master) : (runMapper m).tasks = m.shards.length := by
  simp [MapDispatch.tasks, runMapper, MapDispatch.start]

/-- A dispatcher with no more tasks than completed shards has completed all of them. -/
theorem all_mapped_of_tasks_le {m : Master} (hids : IdsAreIndices m.shards) {s : MapDispatch}
    (hreach : Reachable MapDispatch.step (runMapper m) s)
    (htasks : s.tasks ≤ s.intermediateResultMap.size) : AllMapped s := by
  have hentry := run_mapper_entry hids
  obtain ⟨ls, hrun⟩ := hreach
  obtain ⟨-, -, hshards, -, -, done, hdone⟩ := hentry.run hrun
  have hnone : s.jobQ = [] ∧ s.inFlight = [] ∧ s.responseList = [] := by
    simp only [← List.length_eq_zero_iff]
    unfold MapDispatch.tasks at htasks
    omega
  intro shard hshard
  obtain ⟨i, hi, rfl⟩ := List.mem_iff_getElem.mp hshard
  have hmem : s.shards[i].shardId ∈ s.intermediateResultMap := by
    have hid : s.shards[i].shardId = i := (hshards ▸ hids : IdsAreIndices s.shards) i hi
    have honce := MapDispatch.occupancy_eq hentry.poolInv ⟨ls, hrun⟩ (i : Int)
    rw [hentry.occupancy_eq, if_pos (Or.inl ⟨by omega, by rw [← hshards]; omega⟩)] at honce
    simp only [WorkPool.occupancy, MapDispatch.mem_pool_settled] at honce
    simp only [MapDispatch.pool, hnone, List.map_nil, Multiset.coe_count, List.count_nil] at honce
    rw [hid]
    by_contra hnot
    simp [hnot] at honce
  obtain ⟨res, hres, hid⟩ := List.mem_map.mp
    (((hdone.keys _).mp hmem).resolve_left (by simp [runMapper, MapDispatch.start]))
  refine ⟨res, hid ▸ hdone.entry res hres, fun blob hblob => ?_⟩
  rw [hdone.blobs]
  exact List.mem_append_right _ (List.mem_flatMap.mpr ⟨res, hres, hblob⟩)

/-- The loop only ends with all shards mapped exactly if there are no more shards than mappers. -/
theorem exit_all_mapped_iff {m : Master} (hids : IdsAreIndices m.shards) (hn : 1 ≤ m.nmappers) :
    (∀ s, Reachable MapLoop.step (.enter (runMapper m)) s → s.pc = .exited → AllMapped s.data) ↔
      m.shards.length ≤ m.nmappers := by
  have hentry := run_mapper_entry hids
  have hsound := MapLoop.Sound.of_entry hentry
  constructor
  · intro hall
    by_contra hmore
    obtain ⟨t, hreach, hpc, hidle, hsize⟩ := MapLoop.reach_exit (s := .enter (runMapper m)) hsound
      ⟨rfl, rfl⟩ rfl (by simp [MapLoop.enter, runMapper, MapDispatch.start]; omega)
      (by simp only [MapLoop.enter, run_mapper_tasks]; show m.nmappers ≤ _; omega)
    obtain ⟨ht, hshards, -, htasks⟩ := MapLoop.Sound.reachable (s := .enter (runMapper m))
      hsound hreach
    -- fewer shards are done than there are, so one is still queued
    have hrest := hidle.tasks_eq
    simp only [MapLoop.enter, run_mapper_tasks] at htasks hshards hsize
    have hnm : (runMapper m).nmappers = m.nmappers := rfl
    obtain ⟨i, hi⟩ := List.exists_mem_of_length_pos (l := t.data.jobQ) (by omega)
    obtain ⟨hnonneg, hlt⟩ := ht.pool.queued i hi
    obtain ⟨res, hres, -⟩ := hall t hreach hpc t.data.shards[i.toNat] (List.getElem_mem _)
    have hid := ht.pool.ids i.toNat (by omega)
    rw [hid, Int.toNat_of_nonneg hnonneg] at hres
    refine ht.pool.not_settled (Or.inl hi) ?_
    rw [Std.ExtTreeMap.mem_iff_isSome_getElem?, hres]
    rfl
  · intro hle s hreach hpc
    obtain ⟨-, -, hnm, htasks⟩ := MapLoop.Sound.reachable (s := .enter (runMapper m)) hsound hreach
    refine all_mapped_of_tasks_le hids (MapLoop.data_reachable hreach) ?_
    have hsize := MapLoop.exited_size hreach hpc
    simp only [MapLoop.enter, run_mapper_tasks] at htasks hnm
    have hnm' : (runMapper m).nmappers = m.nmappers := rfl
    omega

/-- The map phase only ends when all input has been mapped, exactly if the sharder makes no more
shards than there are mappers: with input, unless the mappers divide it evenly and the last blob
listed is empty; with nothing but empty blobs, if these are no more than the mappers. -/
theorem map_phase_all_mapped_iff (k : Container) (m : Master) (hn : 1 ≤ m.nmappers) :
    ∃ m', (∀ fuel ≥ enoughFuel k.items, createShardingData fuel (some k.items) m = some m') ∧
      ((∀ s, Reachable MapLoop.step (.enter (runMapper m')) s → s.pc = .exited →
          ∀ shard ∈ m'.shards, ∃ res,
            s.data.intermediateResultMap[shard.shardId]? = some res ∧
              ∀ blob ∈ res.blobList, blob ∈ s.data.intblobList) ↔
        if totalSize k.items = 0 then (blobs k.items).length ≤ m.nmappers
        else ¬ (m.nmappers.toNat ∣ totalSize k.items ∧ LastBlobEmpty k.items)) := by
  obtain ⟨shards, id, hrun, hlength, hids⟩ := create_sharding_data_spec k m hn
  refine ⟨_, hrun, ?_⟩
  have hiff := exit_all_mapped_iff (m := { m with
    shardsz := shardSize (totalSize k.items) m.nmappers.toNat
    shards := shards
    shardCounter := id }) hids hn
  have hcount : (shards.length : Int) ≤ m.nmappers ↔
      if totalSize k.items = 0 then (blobs k.items).length ≤ m.nmappers
      else ¬ (m.nmappers.toNat ∣ totalSize k.items ∧ LastBlobEmpty k.items) := by
    split
    · next hzero =>
      have hsz : shardSize 0 m.nmappers.toNat = 0 :=
        Nat.le_zero.mp ((shard_size_le_iff (by omega)).mpr (Nat.zero_le _))
      rw [hlength, hzero, hsz]
      simp [shardCount]
    · next hpos =>
      rw [← shard_count_le_iff (by omega) (by omega), ← hlength]
      omega
  rw [← hcount, ← hiff]
  refine forall_congr' fun s => forall_congr' fun hreach => forall_congr' fun _ => ?_
  unfold AllMapped
  rw [(MapLoop.Sound.reachable (MapLoop.Sound.of_entry (run_mapper_entry hids)) hreach).2.1]
  rfl

/-- Seven bytes for three mappers make three shards, so the loop cannot be left early. -/
theorem map_phase_all_mapped_seven :
    ∃ m', createShardingData 8 (some [.blob ['a'] 7]) { Master.init with nmappers := 3 } = some m' ∧
      m'.shards.length = 3 ∧
      ∀ s, Reachable MapLoop.step (.enter (runMapper m')) s → s.pc = .exited →
        ∀ shard ∈ m'.shards, ∃ res,
          s.data.intermediateResultMap[shard.shardId]? = some res ∧
            ∀ blob ∈ res.blobList, blob ∈ s.data.intblobList := by
  obtain ⟨m', hrun, hiff⟩ := map_phase_all_mapped_iff
    ⟨[.blob ['a'] 7], by decide⟩ { Master.init with nmappers := 3 } (by decide)
  refine ⟨m', hrun 8 (by decide), ?_, hiff.mpr (by decide)⟩
  have heq := (hrun 8 (by decide)).symm.trans
    (show createShardingData 8 (some [.blob ['a'] 7]) { Master.init with nmappers := 3 } = some _
      from rfl)
  rw [Option.some.inj heq]
  rfl

/-- A blob of one byte and an empty blob, for one mapper: the empty blob is a second shard. Both
shards are sent, the second is answered first, and the loop is left while the only byte of the
input is still being mapped. -/
theorem map_phase_exits_early :
    ∃ m', createShardingData 3 (some [.blob ['a'] 1, .blob ['b'] 0])
        { Master.init with nmappers := 1 } = some m' ∧
      ∃ s, Machine.run MapLoop.step (.enter (runMapper m'))
          [.dispatch 0, .dispatch 0, .allDispatched, .complete ⟨1, 0⟩ (.ok ['c'] [['i']]),
            .received, .handle, .test] = some s ∧
        s.pc = .exited ∧ m'.shards = [⟨0, [⟨['a'], 0, 1⟩]⟩, ⟨1, [⟨['b'], 0, 0⟩]⟩] ∧
        s.data.intermediateResultMap[(0 : Int)]? = none ∧ s.data.inFlight = [⟨0, 0⟩] ∧
        s.data.intblobList = [['i']] :=
  ⟨_, rfl, _, rfl, by decide, by decide, by decide, by decide, by decide⟩

/-! ## Waiting for nothing -/

/-- On entry the tasks are the shards and the replicated results, each counted once. -/
theorem MapDispatch.Entry.tasks_eq_card {s : MapDispatch} (hs : s.Entry) :
    s.tasks = ((s.shards.map FileShard.shardId ++ s.intermediateResultMap.keys).toFinset).card := by
  have hunion : (s.shards.map FileShard.shardId ++ s.intermediateResultMap.keys).toFinset =
      s.jobQ.toFinset ∪ s.intermediateResultMap.keys.toFinset := by
    ext i
    simp only [List.toFinset_append, Finset.mem_union, List.mem_toFinset, hs.queued,
      hs.ids.map_shardId, mem_indices, Std.ExtTreeMap.mem_keys]
    by_cases hmem : i ∈ s.intermediateResultMap <;> simp [hmem]
  have hdisjoint : Disjoint s.jobQ.toFinset s.intermediateResultMap.keys.toFinset := by
    rw [Finset.disjoint_left]
    intro i hi
    simpa using ((hs.queued i).mp (List.mem_toFinset.mp hi)).2
  rw [hunion, Finset.card_union_of_disjoint hdisjoint, List.toFinset_card_of_nodup hs.nodup,
    List.toFinset_card_of_nodup Std.ExtTreeMap.nodup_keys, Std.ExtTreeMap.length_keys]
  simp [MapDispatch.tasks, hs.inFlight, hs.responseList]

/-- Whenever the loop waits, a call is in flight or a response is present. -/
def WaitsEnd (s₀ : MapDispatch) : Prop :=
  ∀ s, Reachable MapLoop.step (.enter s₀) s → s.pc = .waiting →
    s.data.inFlight ≠ [] ∨ s.data.responseList ≠ []

/-- A wait that can end is one that is not stuck. -/
theorem waits_end_iff {s₀ : MapDispatch} (hs : s₀.Entry) :
    WaitsEnd s₀ ↔ (s₀.tasks : Int) = s₀.nmappers ∧ s₀.jobQ ≠ [] := by
  rw [← MapLoop.never_stuck_iff hs]
  refine forall_congr' fun s => forall_congr' fun _ => ?_
  unfold MapLoop.Stuck MapLoop.Idle
  rw [not_and, not_and_or]

/-- A leader never waits for nothing, on a takeover exactly if the shards of the checkpoint
together with its completed tasks are as many as the mappers and some shard is not completed, and
on a fresh request exactly if there are as many shards as mappers and at least one. -/
theorem dispatch_waits_end_iff (leader follower m : Master)
    (hleader : IdsAreIndices leader.shards) (hm : IdsAreIndices m.shards) :
    (WaitsEnd (processReplicatedData (deserializeData (serializeData leader) follower)) ↔
      (((leader.shards.map FileShard.shardId ++
          leader.replList.map MapperResult.shardId).toFinset.card : Nat) : Int) =
        leader.nmappers ∧
      ∃ shard ∈ leader.shards, shard.shardId ∉ leader.replList.map MapperResult.shardId) ∧
    (WaitsEnd (runMapper m) ↔ (m.shards.length : Int) = m.nmappers ∧ m.shards ≠ []) := by
  constructor
  · have hentry := process_replicated_data_entry (deserialize_ids leader follower hleader)
    have hsids : (deserializeData (serializeData leader) follower).shards.map FileShard.shardId =
        leader.shards.map FileShard.shardId := by
      simp [deserialize_shards, Function.comp_def]
    have hset :
        ((processReplicatedData (deserializeData (serializeData leader) follower)).shards.map
          FileShard.shardId ++ (processReplicatedData (deserializeData (serializeData leader)
            follower)).intermediateResultMap.keys).toFinset =
        (leader.shards.map FileShard.shardId ++
          leader.replList.map MapperResult.shardId).toFinset := by
      ext i
      simp only [processReplicatedData, MapDispatch.start, hsids, List.toFinset_append,
        Finset.mem_union, List.mem_toFinset, Std.ExtTreeMap.mem_keys, deserialize_keys]
    rw [waits_end_iff hentry, hentry.tasks_eq_card, hset]
    refine and_congr (by rw [← deserialize_nmappers leader follower]; rfl) ?_
    simp only [processReplicatedData, MapDispatch.start, hsids, ne_eq, List.filter_eq_nil_iff,
      deserialize_keys]
    simp
  · rw [waits_end_iff (run_mapper_entry hm), run_mapper_tasks]
    refine and_congr Iff.rfl ?_
    simp [runMapper, MapDispatch.start]

/-- Two mappers and two shards, of which the first is in the checkpoint: the new leader maps the
second and never waits for nothing. -/
theorem dispatch_waits_end_two_shards :
    WaitsEnd (processReplicatedData (deserializeData (serializeData
        { Master.init with
          nmappers := 2, shards := [⟨0, [⟨['a'], 0, 1⟩]⟩, ⟨1, [⟨['a'], 1, 2⟩]⟩],
          replList := [⟨.success, 0, ['c'], false, [['i']]⟩] }) Master.init)) ∧
      WaitsEnd (runMapper
        { Master.init with nmappers := 1, shards := [⟨0, [⟨['a'], 0, 1⟩]⟩] }) := by
  have hiff := dispatch_waits_end_iff
    { Master.init with
      nmappers := 2, shards := [⟨0, [⟨['a'], 0, 1⟩]⟩, ⟨1, [⟨['a'], 1, 2⟩]⟩],
      replList := [⟨.success, 0, ['c'], false, [['i']]⟩] }
    Master.init { Master.init with nmappers := 1, shards := [⟨0, [⟨['a'], 0, 1⟩]⟩] }
    (by decide) (by decide)
  exact ⟨hiff.1.mpr (by decide), hiff.2.mpr (by decide)⟩

/-- A leader maps its one shard and dies. The checkpoint it pushed has no shard left to map, and
the master that takes over from it waits for a response nobody will send. -/
theorem takeover_waits_for_nothing :
    ∃ s, Machine.run MapLoop.step
        (.enter (runMapper { Master.init with nmappers := 1, shards := [⟨0, [⟨['a'], 0, 1⟩]⟩] }))
        [.dispatch 0, .allDispatched, .complete ⟨0, 0⟩ (.ok ['c'] [['i']]), .received, .handle,
          .test] = some s ∧ s.pc = .exited ∧
      ∃ t, Machine.run MapLoop.step
          (.enter (processReplicatedData (deserializeData (serializeData s.data.toMaster)
            Master.init))) [.allDispatched] = some t ∧
        t.pc = .waiting ∧ t.data.inFlight = [] ∧ t.data.responseList = [] :=
  ⟨_, rfl, by decide, _, rfl, by decide, by decide, by decide⟩

end MapReduce
