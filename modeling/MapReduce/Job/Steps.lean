import MapReduce.Job.Invariant

/-!
# The steps of an undisturbed run

Each step keeps the invariant of a job, one lemma for each kind of step. The leader: what it
collects in the map phase (`MappingOk.step`), that it leaves the map phase with all shards
(`MappingOk.placed`), and what it asks its reducers for (`ReducingOk.sends_ok`). The workers:
`serve_map` and `serve_reduce`. The followers: a checkpoint carries results of the job
(`checkpoint_ok`), and a master that takes over starts from them (`MappingOk.take_over`). The run
rule is `Inv.run`.
-/

namespace MapReduce

open Machine (Reachable)

namespace Job

variable {job : Job} {storage : Str → Str → Option Str}

/-! ## Mapping -/

/-- A step of the dispatcher collects results of the job. -/
theorem Collected.step {s t : MapDispatch} {l : MapLabel} {done : List MapperResult}
    (hs : job.Collected storage s done) (h : s.Effect l t)
    (hreply : ∀ call containername blobs, l = .complete call (.ok containername blobs) →
      job.ResultOk storage (call.result (.ok containername blobs))) :
    ∃ done', job.Collected storage t done' := by
  cases h with
  | dispatch => exact ⟨done, { hs with }⟩
  | succeed call containername blobs hcall =>
      refine ⟨done, { hs with answered := fun r hr hstatus => ?_ }⟩
      rcases List.mem_append.mp hr with hold | hnew
      · exact hs.answered r hold hstatus
      · obtain rfl := List.mem_singleton.mp hnew
        exact hreply call containername blobs rfl
  | fail call code hcall =>
      refine ⟨done, { hs with answered := fun r hr hstatus => ?_ }⟩
      rcases List.mem_append.mp hr with hold | hnew
      · exact hs.answered r hold hstatus
      · obtain rfl := List.mem_singleton.mp hnew
        exact absurd hstatus (MapDispatch.result_error_status call code)
  | requeue res rest hlist _ | drop res rest hlist _ _ =>
      have hanswered := hs.answered
      rw [hlist, List.forall_mem_cons] at hanswered
      exact ⟨done, { hs with answered := hanswered.2 }⟩
  | record res rest hlist hstatus hmem =>
      have hanswered := hs.answered
      rw [hlist, List.forall_mem_cons] at hanswered
      have hres := hanswered.1 hstatus
      refine ⟨done ++ [res], ?_⟩
      exact {
        attempts := hs.attempts.snoc hmem
        blobs := by simp [hs.blobs]
        container := by
          intro _
          obtain ⟨_, _, _, _, hname, _⟩ := hres
          exact hname
        results := by
          rw [List.forall_mem_append]
          exact ⟨hs.results, by simpa using hres⟩
        answered := hanswered.2 }

/-- The dispatcher of a leader in the map phase has its tasks in order. -/
theorem MappingOk.sound {replicates : Bool} {d : MapLoop}
    (hd : job.MappingOk storage replicates d) : MapLoop.Sound d.data := by
  obtain ⟨s₀, hentry, -, hreach⟩ := hd.entered
  exact (MapLoop.Sound.reachable (s := .enter s₀) (.of_entry hentry) hreach).1

/-- The replication list of a leader in the map phase has one result for each shard in it. -/
theorem MappingOk.replicating {d : MapLoop} (hd : job.MappingOk storage true d) :
    Replicating d.data := by
  obtain ⟨s₀, hentry, hempty, hreach⟩ := hd.entered
  refine (MapLoop.data_reachable hreach).invariant (motive := Replicating)
    (.of_entry hentry (hempty rfl)) fun m l t hm hstep => hm.step (MapDispatch.step_effect hstep)

/-- A step of the map loop, with a reply of the job where a call succeeds. -/
theorem MappingOk.step {replicates : Bool} {d d' : MapLoop} {l : LoopLabel}
    (hd : job.MappingOk storage replicates d) (h : d.step l = some d')
    (hreply : ∀ call containername blobs, l = .complete call (.ok containername blobs) →
      job.ResultOk storage (call.result (.ok containername blobs))) :
    job.MappingOk storage replicates d' := by
  obtain ⟨s₀, hentry, hempty, hreach⟩ := hd.entered
  have hentered : ∃ s₀ : MapDispatch, s₀.Entry ∧ (replicates = true → s₀.replList = []) ∧
      Reachable MapLoop.step (.enter s₀) d' :=
    ⟨s₀, hentry, hempty, hreach.trans (.head h (.refl _))⟩
  have hlist : ∀ r ∈ d'.data.replList, replicates = true → job.ResultOk storage r := by
    intro r hr hrepl
    rw [MapLoop.repl_list_step h] at hr
    rcases List.mem_append.mp hr with hold | hnew
    · exact (hd.replicated hrepl).2 r hold
    · cases l with
      | complete call outcome =>
          cases outcome with
          | ok containername blobs =>
              obtain ⟨hmem, -⟩ := List.mem_filter.mp hnew
              obtain rfl := List.mem_singleton.mp hmem
              exact hreply call containername blobs rfl
          | error code =>
              obtain ⟨hmem, hstatus⟩ := List.mem_filter.mp hnew
              obtain rfl := List.mem_singleton.mp hmem
              exact absurd (by simpa using hstatus) (MapDispatch.result_error_status call code)
      | dispatch | allDispatched | received | handle | test => cases hnew
  obtain ⟨done, hdone⟩ := hd.collected
  rcases MapLoop.step_data h with hsame | ⟨k, heffect, hlabel⟩
  · refine ⟨hsame ▸ hd.members, hentered, ⟨done, hsame ▸ hdone⟩, fun hrepl => ?_⟩
    exact hsame ▸ hd.replicated hrepl
  · refine ⟨?_, hentered, ?_, fun hrepl => ?_⟩
    · obtain ⟨hnreducers, hname⟩ := heffect.request_eq
      exact ⟨heffect.nmappers_eq.trans hd.members.nmappers, hnreducers.trans hd.members.nreducers,
        hname.trans hd.members.containername, heffect.shards_eq.trans hd.members.shards⟩
    · exact hdone.step heffect fun call containername blobs hk =>
        hreply call containername blobs (hlabel call _ hk)
    · subst hrepl
      have hnext : Replicating d'.data := (hd.replicating).step heffect
      exact ⟨hnext.once, fun r hr => hlist r hr rfl⟩

/-- The map loop asks for shards of the job. -/
theorem MappingOk.sends_ok {replicates : Bool} {d : MapLoop}
    (hd : job.MappingOk storage replicates d) {l : LoopLabel} {rpc : ClientId × MapperInput}
    (h : rpc ∈ d.sends l) :
    ∃ shard ∈ job.shards, rpc.2 = invokeMapTask shard job.nreducers := by
  cases l with
  | dispatch client =>
      simp only [MapLoop.sends] at h
      split at h
      · cases h
      · next i jobQ hq =>
        rw [Option.mem_toList, Option.map_eq_some_iff] at h
        obtain ⟨shard, hshard, rfl⟩ := h
        refine ⟨shard, ?_, by rw [hd.members.nreducers]⟩
        simp only [vectorAt] at hshard
        split at hshard
        · cases hshard
        · rw [← hd.members.shards]
          exact List.mem_of_getElem? hshard
  | allDispatched | complete | received | handle | test => cases h

/-! ## From mapping to reducing -/

/-- Results of the job are made of shards that are stored. -/
theorem results_placed {rs : List MapperResult} (h : ∀ r ∈ rs, job.ResultOk storage r) :
    ∃ done : List (Str × FileShard),
      done.map (fun p => p.2.shardId) = rs.map MapperResult.shardId ∧
      rs.flatMap MapperResult.blobList = done.flatMap (fun p => job.blobNames p.1 p.2) ∧
      ∀ p ∈ done, p.2 ∈ job.shards ∧ job.Stored storage p.1 p.2 := by
  induction rs with
  | nil => exact ⟨[], rfl, rfl, by simp⟩
  | cons r rs ih =>
      rw [List.forall_mem_cons] at h
      obtain ⟨⟨address, shard, hshard, hid, -, hblobs, hstored⟩, hrest⟩ := h
      obtain ⟨done, hids, hlist, hdone⟩ := ih hrest
      refine ⟨(address, shard) :: done, by simp [hids, hid], by simp [hlist, hblobs], ?_⟩
      rw [List.forall_mem_cons]
      exact ⟨⟨hshard, hstored⟩, hdone⟩

/-- A leader leaves the map phase with a result for every shard. -/
theorem MappingOk.placed {replicates : Bool} {d : MapLoop}
    (hd : job.MappingOk storage replicates d) (hpc : d.pc = .exited) :
    ∃ done, job.Placed storage done ∧
      d.data.intblobList = done.flatMap (fun p => job.blobNames p.1 p.2) ∧
      d.data.intcontainer = job.intcontainer := by
  obtain ⟨s₀, -, -, hreach⟩ := hd.entered
  obtain ⟨rs, hrs⟩ := hd.collected
  obtain ⟨done, hids, hblobs, hdone⟩ := results_placed hrs.results
  have hsize : (rs.length : Int) = job.nmappers := by
    have hlength := hrs.attempts.to_list_perm.length_eq
    rw [Std.ExtTreeMap.length_toList, List.length_map] at hlength
    rw [← hlength, MapLoop.exited_size hreach hpc, hd.members.nmappers]
  have hlength : done.length = rs.length := by
    simpa using congrArg List.length hids
  obtain ⟨hone, hmost⟩ := job.mappers
  have hne : rs ≠ [] := by
    rintro rfl
    simp only [List.length_nil] at hsize
    omega
  -- the shards are different, and there are as many as the job has
  have hnodup : (done.map Prod.snd).Nodup := by
    refine List.Nodup.of_map FileShard.shardId ?_
    rw [List.map_map]
    exact (hids ▸ hrs.attempts.once :)
  have hsubset : done.map Prod.snd ⊆ job.shards := by
    intro shard hshard
    obtain ⟨p, hp, rfl⟩ := List.mem_map.mp hshard
    exact (hdone p hp).1
  refine ⟨done, ⟨?_, fun p hp => (hdone p hp).2⟩, hrs.blobs.trans hblobs, hrs.container hne⟩
  refine (hnodup.subperm hsubset).perm_of_length_le ?_
  rw [List.length_map]
  omega

/-- A leader enters the reduce phase. -/
theorem MappingOk.reduce {replicates : Bool} {d : MapLoop}
    (hd : job.MappingOk storage replicates d) (hpc : d.pc = .exited) :
    job.ReducingOk storage replicates (runReducer d.data.toMaster) where
  members := ⟨hd.members.nmappers, hd.members.nreducers, hd.members.containername,
    hd.members.shards⟩
  entered := ⟨_, hd.members.nreducers, .refl _⟩
  collected := hd.placed hpc
  outputs := fun res hres => by cases hres
  replicated := hd.replicated

/-! ## Reducing -/

/-- The names of the blobs of a shard, piece by piece. -/
theorem blob_names_eq (job : Job) (address : Str) (shard : FileShard) :
    job.blobNames address shard = (List.range shard.sets.length).flatMap fun (i : Nat) =>
      (List.range job.nreducers.toNat).map fun (j : Nat) =>
        intermediateBlobName address shard.shardId i j := by
  rw [blobNames, shardBlobs, requestBlobs, List.map_flatMap, ← List.range_eq_range']
  simp only [pieceBlobs, List.map_map, Function.comp_def]

/-- The suffix of a blob of the job is its reducer. -/
theorem reducer_of_blob (job : Job) (address : Str) (sid : Int) (i : Nat) {r : Nat}
    (hr : r < job.nreducers.toNat) :
    reducerOf (intermediateBlobName address sid i r) = some (r : Int) := by
  have hint := job.reducers.2
  exact reducer_of_blob_name address sid i (Int.natCast_nonneg r) (by omega)

/-- Every blob of a shard has a reducer. -/
theorem reducer_of_blob_names (job : Job) (done : List (Str × FileShard)) :
    ∀ item ∈ done.flatMap (fun p => job.blobNames p.1 p.2), reducerOf item ≠ none := by
  intro item hitem
  obtain ⟨p, -, hitem⟩ := List.mem_flatMap.mp hitem
  rw [blob_names_eq] at hitem
  obtain ⟨i, -, hitem⟩ := List.mem_flatMap.mp hitem
  obtain ⟨r, hr, rfl⟩ := List.mem_map.mp hitem
  rw [job.reducer_of_blob p.1 p.2.shardId i (List.mem_range.mp hr)]
  exact Option.some_ne_none _

/-- `reduce_blob_vec` selects one blob for each piece. -/
theorem reduce_blob_vec_placed (job : Job) (done : List (Str × FileShard)) {j : Nat}
    (hj : j < job.nreducers.toNat) :
    reduceBlobVec j (done.flatMap fun p => job.blobNames p.1 p.2) =
      some (done.flatMap fun p => (List.range p.2.sets.length).map fun (i : Nat) =>
        intermediateBlobName p.1 p.2.shardId i j) := by
  rw [reduce_blob_vec_eq (job.reducer_of_blob_names done)]
  congr 1
  rw [List.filter_flatMap]
  refine List.flatMap_congr fun p _ => ?_
  rw [blob_names_eq, List.filter_flatMap, List.map_eq_flatMap]
  refine List.flatMap_congr fun i _ => ?_
  have hown : (List.range job.nreducers.toNat).filter (fun (r : Nat) =>
      reducerOf (intermediateBlobName p.1 p.2.shardId i r) = some (j : Int)) =
      (List.range job.nreducers.toNat).filter (· = j) := by
    refine List.filter_congr fun r hr => ?_
    rw [job.reducer_of_blob p.1 p.2.shardId i (List.mem_range.mp hr)]
    simp only [Option.some.injEq, Int.natCast_inj]
  rw [List.filter_map, Function.comp_def, hown, List.filter_eq,
    List.count_eq_one_of_mem List.nodup_range (List.mem_range.mpr hj)]
  rfl

/-- The reduce loop asks its workers for the blobs of all shards. -/
theorem ReducingOk.sends_ok {replicates : Bool} {d : ReduceDispatch}
    (hd : job.ReducingOk storage replicates d) {l : ReduceLabel} {call : ReduceCall}
    (h : call ∈ d.sends l) : job.ReduceOk storage call := by
  obtain ⟨m, hm, hreach⟩ := hd.entered
  obtain ⟨done, hplaced, hblobs, hcontainer⟩ := hd.collected
  cases l with
  | dispatch client =>
      simp only [ReduceDispatch.sends] at h
      split at h
      · cases h
      · next jobid jobQ hq =>
        rw [Option.mem_toList, Option.map_eq_some_iff] at h
        obtain ⟨blobs, hvec, rfl⟩ := h
        have hrange : 0 ≤ jobid ∧ jobid < job.nreducers := by
          have hcount := ReduceDispatch.reachable_count hreach jobid
          rw [hq, List.count_cons_self, hm] at hcount
          by_contra hnot
          rw [if_neg hnot] at hcount
          omega
        obtain ⟨j, rfl⟩ := Int.eq_ofNat_of_zero_le hrange.1
        have hj : j < job.nreducers.toNat := by omega
        refine ⟨done, hplaced, hcontainer, j, hj, rfl, ?_⟩
        rw [hblobs, reduce_blob_vec_placed job done hj] at hvec
        exact (Option.some.inj hvec).symm
  | allDispatched | complete | received | collect | test => cases h

end Job

/-- The reduce loop does not change the job. -/
theorem ReduceDispatch.Effect.job_eq {s t : ReduceDispatch} {l : ReduceLabel} (h : s.Effect l t) :
    (t.nmappers = s.nmappers ∧ t.nreducers = s.nreducers ∧ t.containername = s.containername ∧
      t.shards = s.shards) ∧ t.intblobList = s.intblobList ∧ t.intcontainer = s.intcontainer := by
  cases h <;> exact ⟨⟨rfl, rfl, rfl, rfl⟩, rfl, rfl⟩

namespace Job

variable {job : Job} {storage : Str → Str → Option Str}

/-- A step of the reduce loop, with an output of the job where a call succeeds. -/
theorem ReducingOk.step {replicates : Bool} {d d' : ReduceDispatch} {l : ReduceLabel}
    (hd : job.ReducingOk storage replicates d) (h : d.step l = some d')
    (hreply : ∀ call containername blobname, l = .complete call (.ok containername blobname) →
      job.OutStored storage call.jobid) : job.ReducingOk storage replicates d' := by
  have heffect := ReduceDispatch.step_effect h
  obtain ⟨m, hm, hreach⟩ := hd.entered
  obtain ⟨⟨hn, hR, hname, hshards⟩, hblobs, hcontainer⟩ := heffect.job_eq
  refine ⟨⟨hn.trans hd.members.nmappers, hR.trans hd.members.nreducers,
    hname.trans hd.members.containername, hshards.trans hd.members.shards⟩,
    ⟨m, hm, hreach.trans (.head h (.refl _))⟩, ?_, ?_, ?_⟩
  · rw [hblobs, hcontainer]
    exact hd.collected
  · cases heffect with
    | complete call outcome _ _ =>
        intro res hres hstatus
        rcases List.mem_append.mp hres with hold | hnew
        · exact hd.outputs res hold hstatus
        · obtain rfl := List.mem_singleton.mp hnew
          cases outcome with
          | ok containername blobname => exact hreply call containername blobname rfl
          | error code =>
              simp only [ReduceCall.result, ReduceResult.make] at hstatus
              split at hstatus <;> cases hstatus
    | requeue itr res' _ _ _ =>
        exact fun res hres => hd.outputs res (List.mem_of_mem_eraseIdx hres)
    | dispatch | allDispatched | received | keep | exit | again => exact hd.outputs
  · rw [heffect.repl_list_eq]
    exact hd.replicated

/-! ## Replication -/

/-- A checkpoint of a leader of the job carries results of the job. -/
theorem checkpoint_ok {m : Master} (hm : job.MemberOk m)
    (hresults : job.ResultsOk storage m.replList) :
    job.CheckpointOk storage (serializeData m) where
  nMappers := hm.nmappers
  nReducers := hm.nreducers
  inContainer := hm.containername
  shardList := by
    have hshards := deserialize_shards_eq m Master.init (by rw [hm.shards]; exact job.offsets)
    rw [deserialize_data_eq] at hshards
    exact hshards.trans hm.shards
  results := by
    obtain ⟨honce, hresults⟩ := hresults
    have hlist : (serializeData m).results = m.replList.map fun r =>
        ⟨.success, r.shardId, r.cname, false, r.blobList⟩ := by
      simp [CheckPointData.results, serializeData, JobStatus.result]
    refine ⟨?_, fun r hr => ?_⟩
    · rw [hlist, List.map_map]
      exact honce
    · rw [hlist] at hr
      obtain ⟨r', hr', rfl⟩ := List.mem_map.mp hr
      exact hresults r' hr'

/-- A master that takes over starts from results of the job. -/
theorem MappingOk.take_over {follower : Master} {received : List CheckPointData}
    {clients : List ClientId} (hne : received ≠ [])
    (hreceived : ∀ reply ∈ received, job.CheckpointOk storage reply) :
    job.MappingOk storage false
      (.enter (processReplicatedData (JobSystem.followerMaster follower received clients))) := by
  -- the last checkpoint decides
  obtain ⟨m, reply, hreply, hmaster⟩ : ∃ m, ∃ reply ∈ received,
      JobSystem.followerMaster follower received clients =
        { deserializeData reply m with clients := clients } := by
    refine ⟨received.dropLast.foldl (fun m reply => deserializeData reply m) follower,
      received.getLast hne, List.getLast_mem hne, ?_⟩
    rw [JobSystem.followerMaster]
    conv_lhs => rw [← List.dropLast_append_getLast hne]
    rw [List.foldl_append]
    rfl
  have hok := hreceived reply hreply
  have hshards : (deserializeData reply m).shards = job.shards := by
    rw [deserialize_data_eq]
    exact hok.shardList
  have hmembers : job.MemberOk { deserializeData reply m with clients := clients } := by
    refine ⟨?_, ?_, ?_, hshards⟩
    · rw [deserialize_data_eq]
      exact hok.nMappers
    · rw [deserialize_data_eq]
      exact hok.nReducers
    · rw [deserialize_data_eq]
      exact hok.inContainer
  have honce : (reply.jobList.map JobStatus.shardId).Nodup := by
    have honce := hok.results.1
    rwa [CheckPointData.results, List.map_map] at honce
  rw [hmaster]
  refine ⟨⟨hmembers.nmappers, hmembers.nreducers, hmembers.containername, hmembers.shards⟩,
    ⟨_, process_replicated_data_entry (hshards ▸ job.ids), Bool.noConfusion, .refl _⟩,
    ⟨reply.results, ?_⟩, Bool.noConfusion⟩
  refine ⟨deserialize_attempts honce m, ?_, fun hsome => ?_, hok.results.2, fun r hr => by cases hr⟩
  · show (deserializeData reply m).intblobList = _
    rw [deserialize_data_eq, CheckPointData.results, List.flatMap_map]
    rfl
  · show (deserializeData reply m).intcontainer = _
    rw [deserialize_data_eq]
    have hjobs : reply.jobList ≠ [] := fun hnil => hsome (by simp [CheckPointData.results, hnil])
    obtain ⟨_, _, _, _, hname, _⟩ := hok.results.2
      (reply.jobList.getLast hjobs).result (List.mem_map_of_mem (List.getLast_mem hjobs))
    simp only [List.getLast?_eq_getLast_of_ne_nil hjobs, Option.map_some, Option.getD_some]
    exact hname

end Job

/-! ## The workers -/

namespace Inv

variable {job : Job} {s : JobSystem}

/-- A connected worker runs a map task of the job for the first `n` pieces of a shard: it is
answered OK, and the storage gains the blobs of these pieces. -/
theorem run_map_task (hs : Inv job s) {shard : FileShard} (hshard : shard ∈ job.shards) {n : Nat}
    (hn : n ≤ shard.sets.length) {client : ClientId} {readable : Nat → Bool}
    (hconnected : s.connection (job.target client) = some job.containername)
    (hread : ∀ i < shard.sets.length, readable i = true) :
    ∃ containername blobs files,
      s.runMapTask job.toWorkers client (job.request shard n) readable =
        some (.ok containername blobs, { s with
          files := files
          storage := Function.update s.storage job.intcontainer
            (putAll (s.storage job.intcontainer) (requestBlobs (job.target client) job.nreducers
              shard.shardId (job.shardContents shard) 0 n)) }) ∧
      (n = shard.sets.length → containername = job.intcontainer ∧
        blobs = job.blobNames (job.target client) shard) := by
  obtain ⟨containername, blobs, w, hrun, hblobs, hstore, herror⟩ :=
    job.do_work_request hshard hn hread
      (w := ⟨job.target client, job.intcontainer, s.files (job.target client),
        s.storage job.intcontainer, s.errorSet (job.target client)⟩) (hs.errorSet _)
  refine ⟨containername, blobs, Function.update s.files (job.target client) w.files, ?_,
    fun hall => ?_⟩
  · simp only [JobSystem.runMapTask, hconnected, Option.bind_eq_bind, Option.bind_some, hs.input]
    show (doWork _ _ ⟨_, job.intcontainer, _, s.storage job.intcontainer, _⟩).bind _ = _
    rw [hrun, ← hstore, Option.bind_some, herror]
    dsimp only
    rw [hs.error_set_eq]
    rfl
  · subst hall
    refine ⟨do_work_container job.reducers.1 ?_ hrun, hblobs⟩
    rw [job.request_all]
    simpa [invokeMapTask] using job.pieces shard hshard

/-- A worker serves a map task. -/
theorem serve_map (hs : Inv job s) {client : ClientId} {request : MapperInput}
    {readable : Nat → Bool} {reply : MapOutcome × JobSystem}
    (hok : s.Undisturbed job (.serveMap client request readable))
    (hsent : (client, request) ∈ s.mapRpcs)
    (hrun : s.runMapTask job.toWorkers client request readable = some reply) :
    Inv job (JobSystem.replyMap client request reply) := by
  obtain ⟨hconnected, hread⟩ := hok
  obtain ⟨shard, hshard, hrequest⟩ := hs.mapRpcs _ hsent
  obtain rfl : request = invokeMapTask shard job.nreducers := hrequest
  rw [job.request_length] at hread
  obtain ⟨containername, blobs, files, hserved, hreply⟩ :=
    hs.run_map_task hshard (Nat.le_refl _) hconnected hread
  rw [job.request_all, hrun, Option.some.injEq] at hserved
  obtain ⟨rfl, rfl⟩ := hreply rfl
  subst hserved
  have hkept := hs.keeps files
    (job.keeps_of_put_blobs s.storage (job.target client) hshard shard.sets.length)
  refine { hkept with mapReplies := ?_ }
  show ∀ reply ∈ s.mapReplies ++ _, _
  rw [List.forall_mem_append]
  refine ⟨hkept.mapReplies, ?_⟩
  intro reply hnew
  obtain rfl := List.mem_singleton.mp hnew
  exact ⟨job.target client, shard, hshard, rfl, rfl, rfl,
    job.stored_of_put_blobs s.storage (job.target client) shard⟩

/-- A connected worker that begins a map task of the job writes the blobs of the first pieces of a
shard. -/
theorem begin_map (hs : Inv job s) {client : ClientId} {request : MapperInput}
    {readable : Nat → Bool} {pieces : Nat} {reply : MapOutcome × JobSystem}
    (hok : s.Undisturbed job (.abandonMap client request readable pieces))
    (hsent : (client, request) ∈ s.mapRpcs)
    (hrun : s.runMapTask job.toWorkers client
      { request with stuples := request.stuples.take pieces } readable = some reply) :
    ∃ shard ∈ job.shards, ∃ n ≤ shard.sets.length, ∃ files,
      reply.2 = { s with
        files := files
        storage := Function.update s.storage job.intcontainer
          (putAll (s.storage job.intcontainer) (requestBlobs (job.target client) job.nreducers
            shard.shardId (job.shardContents shard) 0 n)) } := by
  obtain ⟨hconnected, hread⟩ := hok
  obtain ⟨shard, hshard, hrequest⟩ := hs.mapRpcs _ hsent
  obtain rfl : request = invokeMapTask shard job.nreducers := hrequest
  rw [job.request_length] at hread
  have htake : (invokeMapTask shard job.nreducers).stuples.take pieces =
      (invokeMapTask shard job.nreducers).stuples.take (min pieces shard.sets.length) := by
    rw [← job.request_length, List.take_eq_take_min]
  have hle := Nat.min_le_right pieces shard.sets.length
  obtain ⟨containername, blobs, files, hserved, -⟩ := hs.run_map_task hshard hle hconnected hread
  rw [htake] at hrun
  obtain rfl := Option.some.inj (hrun.symm.trans hserved)
  exact ⟨shard, hshard, _, hle, files, rfl⟩

/-- A worker ends before it has served a map task. -/
theorem abandon_map (hs : Inv job s) {client : ClientId} {request : MapperInput}
    {readable : Nat → Bool} {pieces : Nat} {reply : MapOutcome × JobSystem}
    (hok : s.Undisturbed job (.abandonMap client request readable pieces))
    (hsent : (client, request) ∈ s.mapRpcs)
    (hrun : s.runMapTask job.toWorkers client
      { request with stuples := request.stuples.take pieces } readable = some reply) :
    Inv job reply.2 := by
  obtain ⟨shard, hshard, n, -, files, hreply⟩ := hs.begin_map hok hsent hrun
  rw [hreply]
  exact hs.keeps files (job.keeps_of_put_blobs _ _ hshard n)

/-- A connected worker that can read its blobs runs a reduce task of the job: it is answered OK, and
the storage gains the output of the reducer. -/
theorem run_reduce_task (hs : Inv job s) {call : ReduceCall} {readable : Str → Bool}
    (hok : s.Undisturbed job (.serveReduce call readable)) (hsent : call ∈ s.reduceRpcs) :
    ∃ files, s.runReduceTask job.toWorkers call readable =
      some (.ok job.outcontainer [], { s with
        files := files
        storage := Function.update s.storage job.outcontainer
          (put (s.storage job.outcontainer) (outFileName call.jobid)
            (job.output call.jobid.toNat)) }) := by
  obtain ⟨hconnected, hread⟩ := hok
  obtain ⟨done, hplaced, hcontainer, j, hj, hjob, hblobs⟩ := hs.reduceRpcs call hsent
  have hcontent : (call.blobs.flatMap fun blob =>
      (if readable blob then s.storage call.containername blob else none).getD []) =
      (done.map Prod.snd).flatMap fun shard => shard.sets.flatMap fun d => job.pieceFile d j := by
    rw [hblobs, hcontainer, List.flatMap_map, List.flatMap_assoc]
    refine List.flatMap_congr fun p hp => ?_
    rw [List.flatMap_map]
    refine (hplaced.stored p hp).read job hj fun i hi => hread _ ?_
    rw [hblobs]
    exact List.mem_flatMap.mpr ⟨p, hp, List.mem_map_of_mem (List.mem_range.mpr hi)⟩
  obtain ⟨houtput, hfits⟩ := job.output_eq hplaced.shards j
  obtain ⟨w, hserved, hout, herror⟩ := reduce_do_work_eq job.unicodePrintable
    (fun inContainer blob => if readable blob then s.storage inContainer blob else none)
    (invokeReduceTask call) ⟨job.target call.client, job.containername,
      s.files (job.target call.client), s.storage job.outcontainer,
      s.errorSet (job.target call.client)⟩
  simp only [invokeReduceTask, hcontent, hs.errorSet, houtput, hfits, Bool.false_eq_true, if_false,
    Bool.and_false] at hserved hout herror
  refine ⟨Function.update s.files (job.target call.client) w.files, ?_⟩
  simp only [JobSystem.runReduceTask, invokeReduceTask, hconnected, Option.bind_eq_bind,
    Option.bind_some, hs.errorSet]
  rw [show outContainerName job.containername = job.outcontainer from rfl, hserved, hjob,
    Int.toNat_natCast, ← hjob, ← hout, Option.bind_some, herror]
  dsimp only
  rw [hs.error_set_eq]
  rfl

/-- A worker serves a reduce task. -/
theorem serve_reduce (hs : Inv job s) {call : ReduceCall} {readable : Str → Bool}
    {reply : ReduceOutcome × JobSystem}
    (hok : s.Undisturbed job (.serveReduce call readable)) (hsent : call ∈ s.reduceRpcs)
    (hrun : s.runReduceTask job.toWorkers call readable = some reply) :
    Inv job (JobSystem.replyReduce call reply) := by
  obtain ⟨files, hserved⟩ := hs.run_reduce_task hok hsent
  obtain rfl := Option.some.inj (hrun.symm.trans hserved)
  have hkept := hs.keeps files (job.keeps_of_put_output s.storage call.jobid)
  refine { hkept with reduceReplies := ?_ }
  show ∀ reply ∈ s.reduceReplies ++ _, _
  rw [List.forall_mem_append]
  refine ⟨hkept.reduceReplies, ?_⟩
  intro reply hnew
  obtain rfl := List.mem_singleton.mp hnew
  show job.OutStored (Function.update s.storage job.outcontainer _) call.jobid
  unfold Job.OutStored
  rw [Function.update_self, put, Function.update_self]

/-! ## The run -/

/-- Every undisturbed step keeps the invariant. -/
theorem step (hs : Inv job s) {t : JobSystem} {l : SystemLabel} (hok : s.Undisturbed job l)
    (h : s.step job.toWorkers l = some t) : Inv job t := by
  have hphase := hs.phase
  cases JobSystem.step_effect job.toWorkers h with
  | mapStep d d' l hat hallowed hd =>
      rw [hat] at hphase
      have hnext := Job.MappingOk.step hphase hd fun call containername blobs hl => by
        subst hl
        exact hs.mapReplies _ (of_decide_eq_true hallowed)
      refine { hs with mapRpcs := ?_, phase := hnext }
      show ∀ rpc ∈ s.mapRpcs ++ d.sends l, _
      rw [List.forall_mem_append]
      exact ⟨hs.mapRpcs, fun rpc hrpc => Job.MappingOk.sends_ok hphase hrpc⟩
  | serveMap client request readable reply hsent hrun => exact hs.serve_map hok hsent hrun
  | abandonMap client request readable pieces reply hsent hrun =>
      exact hs.abandon_map hok hsent hrun
  | reduce d hat hpc =>
      rw [hat] at hphase
      exact { hs with phase := Job.MappingOk.reduce hphase hpc }
  | reduceStep d d' l hat hallowed hd =>
      rw [hat] at hphase
      have hnext := Job.ReducingOk.step hphase hd fun call containername blobname hl => by
        subst hl
        exact hs.reduceReplies _ (of_decide_eq_true hallowed)
      refine { hs with reduceRpcs := ?_, phase := hnext }
      show ∀ call ∈ s.reduceRpcs ++ d.sends l, _
      rw [List.forall_mem_append]
      exact ⟨hs.reduceRpcs, fun call hcall => Job.ReducingOk.sends_ok hphase hcall⟩
  | serveReduce call readable reply hsent hrun => exact hs.serve_reduce hok hsent hrun
  | exchange client => exact { hs with }
  | push hreplicates =>
      have hcheckpoint : job.CheckpointOk s.storage (serializeData s.phase.master) := by
        cases hat : s.phase with
        | mapping d =>
            rw [hat] at hphase
            exact Job.checkpoint_ok hphase.members (hphase.replicated hreplicates)
        | reducing d =>
            rw [hat] at hphase
            exact Job.checkpoint_ok hphase.members (hphase.replicated hreplicates)
      refine { hs with checkpoints := ?_ }
      show ∀ c ∈ s.checkpoints ++ _, _
      rw [List.forall_mem_append]
      exact ⟨hs.checkpoints, by simpa using hcheckpoint⟩
  | takeOver follower received clients hne hall =>
      exact { hs with
        phase := Job.MappingOk.take_over hne fun reply hreply =>
          hs.checkpoints reply (hall reply hreply) }

/-- A job starts in order. -/
theorem start (hs : s.Starts job) : Inv job s where
  input := hs.input
  errorSet := hs.errorSet
  mapRpcs := by simp [hs.mapRpcs]
  mapReplies := by simp [hs.mapReplies]
  reduceRpcs := by simp [hs.reduceRpcs]
  reduceReplies := by simp [hs.reduceReplies]
  checkpoints := by simp [hs.checkpoints]
  phase := by
    obtain ⟨m, hphase, hname, hn, hR, hshards, hempty⟩ := hs.phase
    rw [hphase]
    refine ⟨⟨hn, hR, hname, hshards⟩, ⟨runMapper m, run_mapper_entry (hshards ▸ job.ids), hempty,
      .refl _⟩, ⟨[], ⟨?_, rfl, fun hne => absurd rfl hne, by simp, fun r hr => by cases hr⟩⟩,
      fun hrepl => ?_⟩
    · refine ⟨List.nodup_nil, by simp, fun i => ?_⟩
      simp [MapLoop.enter, runMapper, MapDispatch.start]
    · have hnone : (MapLoop.enter (runMapper m)).data.replList = [] := hempty hrepl
      rw [hnone]
      exact ⟨List.nodup_nil, by simp⟩

/-- Every undisturbed run of a job keeps the invariant. -/
theorem run {t : JobSystem} {ls : List SystemLabel} (hstart : s.Starts job)
    (hok : Machine.Along (JobSystem.step job.toWorkers) (JobSystem.Undisturbed job) s ls)
    (hrun : Machine.run (JobSystem.step job.toWorkers) s ls = some t) : Inv job t :=
  hok.invariant (start hstart) (fun _ _ _ hm hok hstep => hm.step hok hstep) hrun

end Inv

end MapReduce
