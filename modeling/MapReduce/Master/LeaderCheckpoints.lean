import MapReduce.Master.Checkpoint
import MapReduce.Master.Leader

/-!
# The checkpoints of a leader

`serialize_data` sends the results in `g_repl_list`, a global that `AsyncCompleteMapRpc` appends to
and that nothing clears. So a checkpoint describes the current job only as long as no earlier job of
the process left a result there. Read `checkpoints_current_iff` first: all checkpoints of a run are
those of the current job exactly if each of its requests starts with an empty list.
-/

namespace MapReduce

/-! ## The replication list of one map phase -/

/-- A shard in flight has no response yet: it would be in two places. -/
theorem MapDispatch.PoolInv.not_answered_in_flight {s : MapDispatch} (hs : s.PoolInv)
    {call : MapCall} (hcall : call ∈ s.inFlight) :
    call.shardId ∉ s.responseList.map MapperResult.shardId := by
  intro hmem
  have htwice := hs.balanced call.shardId
  have hflight := List.count_pos_iff.mpr (List.mem_map_of_mem (f := MapCall.shardId) hcall)
  have hanswer := List.count_pos_iff.mpr hmem
  simp only [WorkPool.occupancy] at htwice
  simp only [pool, Multiset.coe_count] at htwice
  omega

/-- The replication list holds one success for each of some shards, and each of these shards is
completed or has its success among the responses. -/
structure Replicating (s : MapDispatch) : Prop where
  pool : s.PoolInv
  once : (s.replList.map MapperResult.shardId).Nodup
  success : ∀ r ∈ s.replList, r.status = .success
  known : ∀ r ∈ s.replList, r.shardId ∈ s.intermediateResultMap ∨
    r.shardId ∈ (MapDispatch.successes s.responseList).map MapperResult.shardId

/-- A map phase that is entered with an empty list. -/
theorem Replicating.of_entry {s : MapDispatch} (hs : s.Entry) (hempty : s.replList = []) :
    Replicating s := by
  refine ⟨hs.poolInv, ?_, ?_, ?_⟩ <;> simp [hempty]

/-- A step of the dispatcher keeps one success for each shard. -/
theorem Replicating.step {s t : MapDispatch} {l : MapLabel} (hs : Replicating s)
    (h : s.Effect l t) : Replicating t := by
  have hpool := hs.pool.step h
  cases h with
  | dispatch => exact ⟨hpool, hs.once, hs.success, hs.known⟩
  | succeed call containername blobs hcall =>
      have hsettled := hs.pool.not_settled (Or.inr (Or.inl (List.mem_map_of_mem hcall)))
      have hanswered := hs.pool.not_answered_in_flight hcall
      have hnew : call.shardId ∉ s.replList.map MapperResult.shardId := by
        intro hmem
        obtain ⟨r, hr, heq⟩ := List.mem_map.mp hmem
        rcases hs.known r hr with hmap | hresponse
        · exact hsettled (heq ▸ hmap)
        · obtain ⟨res, hres, hid⟩ := List.mem_map.mp hresponse
          refine hanswered (List.mem_map.mpr ⟨res, ?_, hid.trans heq⟩)
          exact (List.mem_filter.mp hres).1
      refine ⟨hpool, ?_, ?_, ?_⟩
      · rw [List.map_append]
        refine hs.once.append (by simp) ?_
        simpa [List.disjoint_singleton] using hnew
      · intro r hr
        rcases List.mem_append.mp hr with hold | hlast
        · exact hs.success r hold
        · obtain rfl := List.mem_singleton.mp hlast
          rfl
      · intro r hr
        rw [MapDispatch.successes, List.filter_append, List.map_append, List.mem_append]
        rcases List.mem_append.mp hr with hold | hlast
        · exact (hs.known r hold).imp_right Or.inl
        · obtain rfl := List.mem_singleton.mp hlast
          exact Or.inr (Or.inr (by simp))
  | fail call code hcall =>
      refine ⟨hpool, hs.once, hs.success, fun r hr => (hs.known r hr).imp_right fun hmem => ?_⟩
      rw [MapDispatch.successes, List.filter_append, List.map_append]
      exact List.mem_append_left _ hmem
  | requeue res rest hlist hstatus =>
      refine ⟨hpool, hs.once, hs.success, fun r hr => (hs.known r hr).imp_right fun hmem => ?_⟩
      simpa [MapDispatch.successes, hlist, hstatus] using hmem
  | drop res rest hlist _ hmem => exact absurd hmem (hs.pool.not_answered (by simp [hlist]))
  | record res rest hlist hstatus hmem =>
      refine ⟨hpool, hs.once, hs.success, fun r hr => ?_⟩
      rw [mem_emplace]
      rcases hs.known r hr with hmap | hresponse
      · exact Or.inl (Or.inr hmap)
      · simp only [MapDispatch.successes, hlist, List.filter_cons, hstatus, decide_true, if_true,
          List.map_cons, List.mem_cons] at hresponse
        exact hresponse.imp (fun heq => Or.inl heq.symm) id

/-- A step of the loop appends to the replication list what it obtains. -/
theorem MapLoop.repl_list_step {s t : MapLoop} {l : LoopLabel} (h : s.step l = some t) :
    t.data.replList = s.data.replList ++ l.obtained := by
  cases MapLoop.step_effect h with
  | dispatch client data _ hdata =>
      cases MapDispatch.step_effect hdata
      exact (List.append_nil _).symm
  | complete call outcome data _ hdata =>
      cases MapDispatch.step_effect hdata with
      | succeed call containername blobs hcall => rfl
      | fail call code hcall =>
          simp [LoopLabel.obtained, MapDispatch.successes, MapDispatch.result_error_status]
  | handle data _ hdata =>
      cases MapDispatch.step_effect hdata <;> exact (List.append_nil _).symm
  | allDispatched | received | exit | again => exact (List.append_nil _).symm

/-- The reduce phase does not touch the replication list. -/
theorem ReduceDispatch.Effect.repl_list_eq {s t : ReduceDispatch} {l : ReduceLabel}
    (h : s.Effect l t) : t.replList = s.replList := by
  cases h <;> rfl

/-! ## Making the shards -/

/-- `create_sharding_data` numbers the shards from zero and leaves the replication list alone. -/
theorem create_sharding_data_ids {fuel : Nat} {db : Option (List ListBlobItem)} {m m' : Master}
    (h : createShardingData fuel db m = some m') :
    IdsAreIndices m'.shards ∧ m'.replList = m.replList := by
  cases db with
  | none =>
      cases h
      exact ⟨.nil, rfl⟩
  | some items =>
      simp only [createShardingData, Option.bind_eq_bind, Option.bind_eq_some_iff,
        Option.some.injEq] at h
      obtain ⟨shardsz, _, pieces, _, rfl⟩ := h
      exact ⟨join_shards_indices [] pieces, rfl⟩

namespace Leader

/-! ## The checkpoints of a run -/

/-- The checkpoint that `serialize_data` builds has at most one entry for each shard, each entry is
a successful map result obtained for the current request, and a follower that applies it holds a
shard as done only for such a result. -/
def CurrentOnly (s : Leader) : Prop :=
  ((serializeData s.master).jobList.map JobStatus.shardId).Nodup ∧
  (∀ js ∈ (serializeData s.master).jobList, ∃ r ∈ s.obtained, r.status = .success ∧
    js = ⟨r.shardId, r.cname, r.blobList⟩) ∧
  ∀ follower i, i ∈ (deserializeData (serializeData s.master) follower).intermediateResultMap →
    ∃ r ∈ s.obtained, r.status = .success ∧ r.shardId = i

/-- A request starts with an empty replication list. -/
def StartsEmpty (s : Leader) : LeaderLabel → Prop
  | .request .. => s.master.replList = []
  | _ => True

/-- What a phase needs for the map phase ahead of it: an empty list and shards numbered by
position. -/
def PhaseInv : JobPhase → Prop
  | .booting m | .sharded m => m.replList = [] ∧ IdsAreIndices m.shards
  | .requested m => m.replList = []
  | .mapping d => Replicating d.data
  | .idle _ | .reducing _ => True

/-- What is kept by the steps of a run whose requests start with an empty list: the list is what the
current request obtained, one success for each of some shards. -/
structure Inv (s : Leader) : Prop where
  current : s.master.replList = s.obtained
  once : (s.obtained.map MapperResult.shardId).Nodup
  success : ∀ r ∈ s.obtained, r.status = .success
  phase : PhaseInv s.phase

/-- A step from one phase to another that obtains nothing and leaves the replication list alone. -/
theorem Inv.keep {s t : Leader} (hs : s.Inv) {p p' : JobPhase} (hbefore : s.phase = p)
    (hafter : t.phase = p') (hlist : p'.master.replList = p.master.replList)
    (hobtained : t.obtained = s.obtained) (hphase : PhaseInv p') : t.Inv := by
  have hsame : t.master.replList = s.master.replList := by
    show t.phase.master.replList = s.phase.master.replList
    rw [hbefore, hafter, hlist]
  refine ⟨?_, hobtained ▸ hs.once, hobtained ▸ hs.success, hafter ▸ hphase⟩
  rw [hsame, hobtained, hs.current]

/-- A step keeps the invariant if a request starts with an empty list. -/
theorem Inv.step {s t : Leader} {l : LeaderLabel} (hs : s.Inv) (hok : s.StartsEmpty l)
    (h : s.step l = some t) : t.Inv := by
  have hphaseInv := hs.phase
  obtain ⟨-, heffect⟩ := step_effect h
  cases heffect with
  | takeOver m hphase =>
      rw [hphase] at hphaseInv
      obtain ⟨hempty, hids⟩ := hphaseInv
      exact hs.keep hphase (assign_t1_phase _) rfl (assign_t1_obtained _)
        (.of_entry (process_replicated_data_entry hids) hempty)
  | serve m hphase => exact hs.keep hphase rfl rfl rfl trivial
  | request m clients nmappers nreducers containername hphase =>
      have hempty : m.replList = [] := by
        simpa [StartsEmpty, master, hphase, JobPhase.master] using hok
      exact ⟨hempty, List.nodup_nil, nofun, hempty⟩
  | shardAlone m m' fuel db follower hphase hshards _ =>
      rw [hphase] at hphaseInv
      obtain ⟨hids, hlist⟩ := create_sharding_data_ids hshards
      exact hs.keep hphase rfl hlist rfl ⟨hlist.trans hphaseInv, hids⟩
  | shardReplicated m m' fuel db follower hphase hshards _ =>
      rw [hphase] at hphaseInv
      obtain ⟨hids, hlist⟩ := create_sharding_data_ids hshards
      exact hs.keep hphase (assign_repl_clt_thd_phase _) hlist (assign_repl_clt_thd_obtained _)
        ⟨hlist.trans hphaseInv, hids⟩
  | rejectRequest m cleared hphase | rejectShards m cleared hphase =>
      exact hs.keep hphase rfl rfl rfl trivial
  | map m hphase =>
      rw [hphase] at hphaseInv
      obtain ⟨hempty, hids⟩ := hphaseInv
      exact hs.keep hphase (assign_t1_phase _) rfl (assign_t1_obtained _)
        (.of_entry (run_mapper_entry hids) hempty)
  | mapStep d d' l hphase hd =>
      rw [hphase] at hphaseInv
      have hnext : Replicating d'.data := MapLoop.data_invariant hphaseInv.step hphaseInv hd
      have hcurrent : s.phase.master.replList = s.obtained := hs.current
      rw [hphase] at hcurrent
      have hlist : d'.data.replList = s.obtained ++ l.obtained := by
        rw [MapLoop.repl_list_step hd, ← hcurrent]
        rfl
      exact ⟨hlist, hlist ▸ hnext.once, hlist ▸ hnext.success, hnext⟩
  | reduce d hphase =>
      exact hs.keep hphase (assign_r1_phase _) rfl (assign_r1_obtained _) trivial
  | reduceStep d d' l hphase hd =>
      exact hs.keep hphase rfl (ReduceDispatch.step_effect hd).repl_list_eq rfl trivial
  | finish d hphase => exact hs.keep hphase rfl rfl rfl trivial

/-- Where the list is what the current request obtained, so is the checkpoint. -/
theorem Inv.currentOnly {s : Leader} (hs : s.Inv) : s.CurrentOnly := by
  refine ⟨?_, ?_, ?_⟩
  · simpa [serializeData, hs.current, Function.comp_def] using hs.once
  · intro js hjs
    obtain ⟨r, hr, rfl⟩ := List.mem_map.mp hjs
    rw [hs.current] at hr
    exact ⟨r, hr, hs.success r hr, rfl⟩
  · intro follower i hi
    rw [deserialize_keys, hs.current] at hi
    obtain ⟨r, hr, rfl⟩ := List.mem_map.mp hi
    exact ⟨r, hr, hs.success r hr, rfl⟩

/-- A request that starts with a result in the list makes the next checkpoint carry it. -/
theorem CurrentOnly.starts_empty {s t : Leader} {l : LeaderLabel} (h : s.step l = some t)
    (ht : t.CurrentOnly) : s.StartsEmpty l := by
  obtain ⟨-, heffect⟩ := step_effect h
  cases heffect with
  | request m clients nmappers nreducers containername hphase =>
      show s.phase.master.replList = []
      rw [hphase]
      show m.replList = []
      refine List.eq_nil_iff_forall_not_mem.mpr fun r hr => ?_
      obtain ⟨_, hnone, _⟩ := ht.2.1 ⟨r.shardId, r.cname, r.blobList⟩ (List.mem_map_of_mem hr)
      exact List.not_mem_nil hnone
  | _ => trivial

/-- Checkpoints describe the current job only, exactly in the runs whose requests all start with an
empty replication list. A fresh leader process has an empty list, and its shards, which it has from
a checkpoint if any, are numbered by position. -/
theorem checkpoints_current_iff (m : Master) (hempty : m.replList = [])
    (hids : IdsAreIndices m.shards) (ls : List LeaderLabel) (s : Leader)
    (hrun : Machine.run Leader.step (start m) ls = some s) :
    (∀ first t, first <+: ls → Machine.run Leader.step (start m) first = some t → t.CurrentOnly) ↔
      Machine.Along Leader.step StartsEmpty (start m) ls := by
  constructor
  · intro hcurrent
    refine .of_steps hrun fun first l n n' hbegin hfirst hstep => ?_
    have hrun' : Machine.run Leader.step (start m) (first ++ [l]) = some n' :=
      Machine.run_snoc.mpr ⟨n, hfirst, hstep⟩
    exact (hcurrent _ _ hbegin hrun').starts_empty hstep
  · intro hok first t hbegin hfirst
    have hstart : (start m).Inv := ⟨hempty, List.nodup_nil, nofun, hempty, hids⟩
    have hinv : t.Inv := (hok.of_append hbegin).invariant hstart
      (fun _ _ _ hn hok hstep => hn.step hok hstep) hfirst
    exact hinv.currentOnly

/-- The first request of a leader: after its map result, the checkpoint holds this result. -/
theorem checkpoints_current_first_job :
    ∃ s, Machine.run Leader.step (start Master.init) (.boot :: (oneJob true).take 6) = some s ∧
      (serializeData s.master).jobList.length = 1 ∧ s.CurrentOnly := by
  have hrun : Machine.run Leader.step (start Master.init) (.boot :: (oneJob true).take 6) =
      some _ := rfl
  have hids : IdsAreIndices Master.init.shards := .nil
  refine ⟨_, hrun, rfl, ?_⟩
  have hiff := checkpoints_current_iff Master.init rfl hids _ _ hrun
  refine hiff.mpr ?_ _ _ (List.prefix_refl _) hrun
  exact .cons trivial rfl (.cons rfl rfl (.cons trivial rfl (.cons trivial rfl (.cons trivial rfl
    (.cons trivial rfl (.cons trivial rfl trivial))))))

/-- A second request for which a follower has joined: the checkpoint for the request with id 1
carries the result of the request with id 0, and none was obtained for it yet. -/
theorem checkpoint_of_earlier_job :
    ∃ s, Machine.run Leader.step (start Master.init)
        (.boot :: oneJob false ++ (oneJob true).take 2) = some s ∧
      s.terminated = false ∧ s.replCltThd = true ∧
      (serializeData s.master).reqId = 1 ∧
      (serializeData s.master).jobList = [⟨0, ['i'], [['b', '_', '0']]⟩] ∧
      s.obtained = [] ∧ ¬s.CurrentOnly := by
  refine ⟨_, rfl, rfl, rfl, rfl, rfl, rfl, ?_⟩
  intro hcurrent
  obtain ⟨-, hentries, -⟩ := hcurrent
  obtain ⟨_, hnone, _⟩ := hentries ⟨0, ['i'], [['b', '_', '0']]⟩ (List.mem_singleton.mpr rfl)
  exact List.not_mem_nil hnone

end Leader

end MapReduce
