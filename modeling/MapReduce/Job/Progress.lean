import MapReduce.Job.Outcome
import MapReduce.Master.MapPhase
import MapReduce.Master.MapProgress
import MapReduce.Master.ReduceProgress

/-!
# A job can always end

Whatever has failed in a run of a job, there is a way on that ends it, without another takeover and
with any one of the clients of the leader. Read `job_can_end` first.

The map loop and the reduce loop have such a way by themselves, if their calls succeed
(`MapLoop.can_exit`, `ReduceDispatch.can_exit`). The system can follow them (`follows_map`,
`follows_reduce`): before a call succeeds, its worker is told the container of the job and serves
the task. This needs that the request of every call in flight is in the network (`Live`).
-/

namespace MapReduce

open Machine (Along Drives Reachable run)

/-! ## What a step does to the calls -/

/-- The clients do not change. -/
theorem MapDispatch.Effect.clients_eq {s t : MapDispatch} {l : MapLabel} (h : s.Effect l t) :
    t.clients = s.clients := by
  cases h <;> rfl

/-- The clients do not change. -/
theorem ReduceDispatch.Effect.clients_eq {s t : ReduceDispatch} {l : ReduceLabel}
    (h : s.Effect l t) : t.clients = s.clients := by
  cases h <;> rfl

/-- The clients do not change in a step of the loop. -/
theorem MapLoop.clients_eq {d d' : MapLoop} {l : LoopLabel} (h : d.step l = some d') :
    d'.data.clients = d.data.clients :=
  data_invariant (P := fun data => data.clients = d.data.clients)
    (fun heffect => heffect.clients_eq) rfl h

/-- A call in flight was in flight before, or its request is sent in this step. -/
theorem MapLoop.mem_in_flight {d d' : MapLoop} {l : LoopLabel} (h : d.step l = some d')
    {call : MapCall} (hcall : call ∈ d'.data.inFlight) :
    call ∈ d.data.inFlight ∨ ∃ shard ∈ d.data.shards, call.shardId = shard.shardId ∧
      (call.client, invokeMapTask shard d.data.nreducers) ∈ d.sends l := by
  cases MapLoop.step_effect h with
  | dispatch client data hpc hdata =>
      cases MapDispatch.step_effect hdata with
      | dispatch _ i jobQ shard hq _ hshard =>
          rcases List.mem_append.mp hcall with hold | hnew
          · exact .inl hold
          · obtain rfl := List.mem_singleton.mp hnew
            refine .inr ⟨shard, ?_, rfl, by simp [sends, hq, hshard]⟩
            obtain ⟨-, hat⟩ := Option.ite_none_left_eq_some.mp hshard
            exact List.mem_of_getElem? hat
  | complete call' outcome data hpc hdata =>
      cases MapDispatch.step_effect hdata with
      | succeed | fail => exact .inl (List.mem_of_mem_erase hcall)
  | handle data hpc hdata =>
      cases MapDispatch.step_effect hdata with
      | requeue | drop | record => exact .inl hcall
  | allDispatched | received | exit | again => exact .inl hcall

/-- A call in flight was in flight before, or it is made in this step. -/
theorem ReduceDispatch.mem_in_flight {d d' : ReduceDispatch} {l : ReduceLabel}
    (h : d.step l = some d') {call : ReduceCall} (hcall : call ∈ d'.inFlight) :
    call ∈ d.inFlight ∨ call ∈ d.sends l := by
  cases l with
  | dispatch client =>
      simp only [step] at h
      split at h
      · cases h
      · next jobid jobQ hq =>
        obtain ⟨-, h⟩ := Option.ite_none_right_eq_some.mp h
        obtain ⟨blobs, hvec, h⟩ := Option.bind_eq_some_iff.mp h
        cases h
        rcases List.mem_append.mp hcall with hold | hnew
        · exact .inl hold
        · obtain rfl := List.mem_singleton.mp hnew
          exact .inr (by simp [sends, hq, hvec])
  | complete call' outcome =>
      cases step_effect h with
      | complete => exact .inl (List.mem_of_mem_erase hcall)
  | allDispatched | received | collect | test =>
      cases step_effect h <;> exact .inl hcall

/-- The tasks of a leader in the map phase are its shards. -/
theorem Job.MappingOk.tasks_eq {job : Job} {storage : Str → Str → Option Str} {replicates : Bool}
    {d : MapLoop} (hd : job.MappingOk storage replicates d) :
    d.data.tasks = job.shards.length := by
  obtain ⟨s₀, hentry, -, hreach⟩ := hd.entered
  obtain ⟨ls, hrun⟩ := MapLoop.data_reachable hreach
  obtain ⟨-, -, hshards, -, htasks, done, hdone⟩ := hentry.run hrun
  obtain ⟨rs, hrs⟩ := hd.collected
  have hids : s₀.shards = job.shards := hshards.symm.trans hd.members.shards
  -- every result on entry is still there, and is a result for a shard
  have hkeys : (s₀.shards.map FileShard.shardId ++ s₀.intermediateResultMap.keys).toFinset =
      (job.shards.map FileShard.shardId).toFinset := by
    rw [hids, List.toFinset_append, Finset.union_eq_left]
    intro i hi
    rw [List.mem_toFinset, Std.ExtTreeMap.mem_keys] at hi
    have hmem := (hrs.attempts.keys i).mp ((hdone.keys i).mpr (.inl hi))
    obtain ⟨r, hr, rfl⟩ := List.mem_map.mp hmem
    obtain ⟨-, shard, hshard, hid, -⟩ := hrs.results r hr
    rw [List.mem_toFinset, hid]
    exact List.mem_map_of_mem hshard
  rw [htasks, hentry.tasks_eq_card, hkeys, job.ids.map_shardId,
    List.toFinset_card_of_nodup (nodup_indices _), List.length_map, List.length_range]

namespace JobSystem

variable {workers : Workers} {s : JobSystem}

/-- A map task changes files, blobs and interpreters only. -/
theorem run_map_task_frame {client : ClientId} {request : MapperInput} {readable : Nat → Bool}
    {reply : MapOutcome × JobSystem}
    (h : s.runMapTask workers client request readable = some reply) :
    ∃ files errorSet storage,
      reply.2 = { s with files := files, errorSet := errorSet, storage := storage } := by
  obtain ⟨container, -, h⟩ := Option.bind_eq_some_iff.mp h
  obtain ⟨⟨outcome, w⟩, -, h⟩ := Option.bind_eq_some_iff.mp h
  cases h
  exact ⟨_, _, _, rfl⟩

/-- A reduce task changes files, blobs and interpreters only. -/
theorem run_reduce_task_frame {call : ReduceCall} {readable : Str → Bool}
    {reply : ReduceOutcome × JobSystem}
    (h : s.runReduceTask workers call readable = some reply) :
    ∃ files errorSet storage,
      reply.2 = { s with files := files, errorSet := errorSet, storage := storage } := by
  obtain ⟨container, -, h⟩ := Option.bind_eq_some_iff.mp h
  obtain ⟨⟨outcome, w⟩, -, h⟩ := Option.bind_eq_some_iff.mp h
  cases h
  exact ⟨_, _, _, rfl⟩

end JobSystem

/-! ## A live job -/

/-- A job that can go on: the leader has a client, does not wait for what nobody sends, and the
request of each of its calls in flight is in the network. -/
structure Live (job : Job) (s : JobSystem) : Prop where
  clients : s.phase.master.clients ≠ []
  mapping : ∀ d, s.phase = .mapping d → d.Unfinished ∧
    ∀ call ∈ d.data.inFlight, ∃ shard ∈ job.shards, call.shardId = shard.shardId ∧
      (call.client, invokeMapTask shard job.nreducers) ∈ s.mapRpcs
  reducing : ∀ d, s.phase = .reducing d → (job.shards.length : Int) = job.nmappers ∧
    ∀ call ∈ d.inFlight, call ∈ s.reduceRpcs

/-- A master that takes over finds a worker, and some shard has no result in its checkpoint. -/
def JobSystem.Resumes : SystemLabel → Prop
  | .takeOver follower received clients => clients ≠ [] ∧
      ∃ shard ∈ (followerMaster follower received clients).shards,
        shard.shardId ∉ (followerMaster follower received clients).intermediateResultMap
  | _ => True

namespace Live

variable {job : Job} {s t : JobSystem}

/-- The leader and the requests decide whether a job is live. -/
theorem congr (hs : Live job s) (hphase : t.phase = s.phase) (hmap : t.mapRpcs = s.mapRpcs)
    (hreduce : t.reduceRpcs = s.reduceRpcs) : Live job t := by
  obtain ⟨hclients, hmapping, hreducing⟩ := hs
  refine ⟨?_, fun d hd => ?_, fun d hd => ?_⟩
  · rwa [hphase]
  · rw [hmap]
    exact hmapping d (hphase.symm.trans hd)
  · rw [hreduce]
    exact hreducing d (hphase.symm.trans hd)

/-- A leader enters the loop of its map phase. -/
theorem enter {s₀ : MapDispatch} (hphase : s.phase = .mapping (.enter s₀))
    (hclients : s₀.clients ≠ []) (hflight : s₀.inFlight = [])
    (hsize : (s₀.intermediateResultMap.size : Int) ≠ s₀.nmappers) : Live job s := by
  refine ⟨by rwa [hphase], fun d hd => ?_, fun d hd => ?_⟩
  · obtain rfl := LeaderPhase.mapping.inj (hphase.symm.trans hd)
    refine ⟨⟨fun _ => hsize, fun hpc => by cases hpc⟩, ?_⟩
    show ∀ call ∈ s₀.inFlight, _
    rw [hflight]
    exact fun call hcall => by cases hcall
  · cases hphase.symm.trans hd

/-- A job starts live, if its leader has a client. -/
theorem start (hs : s.Starts job) (hclients : s.phase.master.clients ≠ []) : Live job s := by
  obtain ⟨m, hphase, -, hn, -⟩ := hs.phase
  rw [hphase] at hclients
  refine enter hphase hclients rfl ?_
  have hpos := job.mappers.1
  show ((0 : Nat) : Int) ≠ m.nmappers
  omega

/-- A master that takes over with something to do goes on. -/
theorem take_over {follower : Master} {received : List CheckPointData} {clients : List ClientId}
    (hphase : s.phase = .mapping (.enter (processReplicatedData
      (JobSystem.followerMaster follower received clients))))
    (hs : Inv job s) (hresumes : JobSystem.Resumes (.takeOver follower received clients)) :
    Live job s := by
  obtain ⟨hclients, shard, hshard, hnew⟩ := hresumes
  have hmapping := hs.phase
  rw [hphase] at hmapping
  have htasks := Job.MappingOk.tasks_eq hmapping
  have hle := job.mappers.2
  have hmappers := hmapping.members.nmappers
  refine enter hphase hclients rfl ?_
  -- the shard is queued, so there are fewer results than shards
  have hqueued : 0 < (processReplicatedData
      (JobSystem.followerMaster follower received clients)).jobQ.length :=
    List.length_pos_of_mem (a := shard.shardId) (by
      simp only [processReplicatedData, MapDispatch.start, List.mem_filter, decide_eq_true_eq]
      exact ⟨List.mem_map_of_mem hshard, hnew⟩)
  simp only [MapLoop.enter, MapDispatch.tasks] at htasks hmappers
  omega

/-- Every undisturbed step keeps a job live, if a master that takes over has something to do. -/
theorem step (hs : Live job s) (hinv : Inv job s) {l : SystemLabel}
    (hok : s.Undisturbed job l) (hresumes : JobSystem.Resumes l)
    (h : s.step job.toWorkers l = some t) : Live job t := by
  have hnext := hinv.step hok h
  have hphase := hinv.phase
  cases JobSystem.step_effect job.toWorkers h with
  | mapStep d d' l hat hallowed hd =>
      rw [hat] at hphase
      obtain ⟨hunfinished, hcalls⟩ := hs.mapping d hat
      refine ⟨?_, fun e he => ?_, fun e he => by cases he⟩
      · show d'.data.clients ≠ []
        rw [MapLoop.clients_eq hd]
        have hclients := hs.clients
        rwa [hat] at hclients
      · obtain rfl := LeaderPhase.mapping.inj he
        refine ⟨hunfinished.step hd, fun call hcall => ?_⟩
        rcases MapLoop.mem_in_flight hd hcall with hold | ⟨shard, hshard, hid, hsent⟩
        · obtain ⟨shard, hshard, hid, hrpc⟩ := hcalls call hold
          exact ⟨shard, hshard, hid, List.mem_append_left _ hrpc⟩
        · rw [hphase.members.shards] at hshard
          rw [hphase.members.nreducers] at hsent
          exact ⟨shard, hshard, hid, List.mem_append_right _ hsent⟩
  | serveMap client request readable reply hsent hrun =>
      obtain ⟨outcome, t⟩ := reply
      obtain ⟨files, errorSet, storage, rfl⟩ := JobSystem.run_map_task_frame hrun
      cases outcome <;> exact hs.congr rfl rfl rfl
  | abandonMap client request readable pieces reply hsent hrun =>
      obtain ⟨files, errorSet, storage, hreply⟩ := JobSystem.run_map_task_frame hrun
      rw [hreply]
      exact hs.congr rfl rfl rfl
  | reduce d hat hpc =>
      rw [hat] at hphase
      refine ⟨?_, fun e he => (by cases he), fun e he => ?_⟩
      · have hclients := hs.clients
        rwa [hat] at hclients
      · obtain rfl := LeaderPhase.reducing.inj he
        refine ⟨?_, fun call hcall => by cases hcall⟩
        obtain ⟨s₀, -, -, hreach⟩ := hphase.entered
        have hsize := MapLoop.exited_size hreach hpc
        have htasks := hphase.tasks_eq
        have hle := job.mappers.2
        rw [hphase.members.nmappers] at hsize
        unfold MapDispatch.tasks at htasks
        omega
  | reduceStep d d' l hat hallowed hd =>
      obtain ⟨hmappers, hcalls⟩ := hs.reducing d hat
      refine ⟨?_, fun e he => (by cases he), fun e he => ?_⟩
      · show d'.clients ≠ []
        rw [(ReduceDispatch.step_effect hd).clients_eq]
        have hclients := hs.clients
        rwa [hat] at hclients
      · obtain rfl := LeaderPhase.reducing.inj he
        refine ⟨hmappers, fun call hcall => ?_⟩
        rcases ReduceDispatch.mem_in_flight hd hcall with hold | hsent
        · exact List.mem_append_left _ (hcalls call hold)
        · exact List.mem_append_right _ hsent
  | serveReduce call readable reply hsent hrun =>
      obtain ⟨outcome, t⟩ := reply
      obtain ⟨files, errorSet, storage, rfl⟩ := JobSystem.run_reduce_task_frame hrun
      cases outcome <;> exact hs.congr rfl rfl rfl
  | exchange client => exact hs.congr rfl rfl rfl
  | push hreplicates => exact hs.congr rfl rfl rfl
  | takeOver follower received clients hne hall => exact take_over rfl hnext hresumes

end Live

/-! ## The system follows the loops -/

/-- An undisturbed step of the leader there is. -/
def JobSystem.Steady (job : Job) (s : JobSystem) (l : SystemLabel) : Prop :=
  s.Undisturbed job l ∧ ∀ follower received clients, l ≠ .takeOver follower received clients

/-- A steady step takes nothing over. -/
theorem JobSystem.Steady.resumes {job : Job} {s : JobSystem} {l : SystemLabel}
    (h : s.Steady job l) : JobSystem.Resumes l := by
  cases l with
  | takeOver follower received clients => exact absurd rfl (h.2 follower received clients)
  | mapStep | serveMap | abandonMap | reduce | reduceStep | serveReduce | exchange | push =>
      trivial

/-- A steady step, and no call fails. -/
def JobSystem.Smooth (job : Job) (s : JobSystem) : SystemLabel → Prop
  | .takeOver _ _ _ | .mapStep (.complete _ (.error _)) | .reduceStep (.complete _ (.error _)) =>
      False
  | l => s.Undisturbed job l

/-- A smooth step is steady. -/
theorem JobSystem.Smooth.steady {job : Job} {s : JobSystem} {l : SystemLabel}
    (h : s.Smooth job l) : s.Steady job l := by
  unfold JobSystem.Smooth at h
  split at h
  · exact h.elim
  · exact h.elim
  · exact h.elim
  · next htake hmap hreduce =>
    exact ⟨h, htake⟩

/-- The reply to a map task of the job. -/
def Job.mapReply (job : Job) (call : MapCall) : Str × List Str :=
  (job.intcontainer,
    (job.shards[call.shardId.toNat]?).elim [] (job.blobNames (job.target call.client)))

/-- The reply to a reduce task of the job. -/
def Job.reduceReply (job : Job) : Str × Str := (job.outcontainer, [])

/-- The invariant of a job, and that it can go on. -/
structure Going (job : Job) (s : JobSystem) : Prop where
  inv : Inv job s
  live : Live job s

namespace Going

variable {job : Job} {s t : JobSystem}

/-- A step keeps a job going. -/
theorem step (hs : Going job s) {l : SystemLabel} (hok : s.Undisturbed job l)
    (hresumes : JobSystem.Resumes l) (h : s.step job.toWorkers l = some t) : Going job t :=
  ⟨hs.inv.step hok h, hs.live.step hs.inv hok hresumes h⟩

/-- The leader there is keeps a job going. -/
theorem run (hs : Going job s) {ls : List SystemLabel}
    (hok : Along (JobSystem.step job.toWorkers) (JobSystem.Steady job) s ls)
    (hrun : run (JobSystem.step job.toWorkers) s ls = some t) : Going job t :=
  hok.invariant hs (fun _ _ _ hm hok hstep => hm.step hok.1 hok.resumes hstep) hrun

/-- The same for smooth steps. -/
theorem drives (hs : Going job s)
    (h : Drives (JobSystem.step job.toWorkers) (JobSystem.Smooth job) s t) : Going job t := by
  obtain ⟨ls, hok, hrun⟩ := h
  exact hs.run (hok.mono fun _ _ => JobSystem.Smooth.steady) hrun

/-- The container of the leader is that of the job. -/
theorem containername (hs : Going job s) : s.phase.master.containername = job.containername := by
  have hphase := hs.inv.phase
  cases hat : s.phase with
  | mapping d =>
      rw [hat] at hphase
      exact hphase.members.containername
  | reducing d =>
      rw [hat] at hphase
      exact hphase.members.containername

/-- A worker can be told the container of the job. -/
theorem connect (hs : Going job s) (client : ClientId) :
    ∃ t, Drives (JobSystem.step job.toWorkers) (JobSystem.Smooth job) s t ∧ t.phase = s.phase ∧
      t.mapRpcs = s.mapRpcs ∧ t.reduceRpcs = s.reduceRpcs ∧
      t.connection (job.target client) = some job.containername := by
  refine ⟨_, .one (l := .exchange client) rfl trivial, rfl, rfl, rfl,
    ?_⟩
  rw [← hs.containername]
  exact Function.update_self ..

/-- A call of the map loop can be served. -/
theorem serve_map (hs : Going job s) {d : MapLoop} (hphase : s.phase = .mapping d) {call : MapCall}
    (hcall : call ∈ d.data.inFlight) :
    ∃ t, Drives (JobSystem.step job.toWorkers) (JobSystem.Smooth job) s t ∧ t.phase = s.phase ∧
      (call, job.mapReply call) ∈ t.mapReplies := by
  obtain ⟨shard, hshard, hid, hsent⟩ := (hs.live.mapping d hphase).2 call hcall
  obtain ⟨m, hconnect, hsame, hrpcs, -, hconnected⟩ := hs.connect call.client
  rw [← hrpcs] at hsent
  have hread : ∀ i < shard.sets.length, (fun _ : Nat => true) i = true := fun _ _ => rfl
  obtain ⟨containername, blobs, files, hserved, hreply⟩ :=
    (hs.drives hconnect).inv.run_map_task hshard (Nat.le_refl _) hconnected hread
  rw [job.request_all] at hserved
  obtain ⟨rfl, rfl⟩ := hreply rfl
  have hstep : m.step job.toWorkers (.serveMap call.client (invokeMapTask shard job.nreducers)
      fun _ => true) = _ := (if_pos hsent).trans (by rw [hserved])
  refine ⟨_, hconnect.trans (.one hstep ⟨hconnected, fun _ _ => rfl⟩),
    hsame, List.mem_append_right _ (List.mem_singleton.mpr ?_)⟩
  have hget : job.shards[call.shardId.toNat]? = some shard := by
    obtain ⟨i, hi, rfl⟩ := List.mem_iff_getElem.mp hshard
    rw [hid, job.ids i hi, Int.toNat_natCast, List.getElem?_eq_getElem hi]
  rw [Job.mapReply, hget]
  show (call, _) = ((⟨shard.shardId, call.client⟩ : MapCall), _)
  rw [← hid]
  rfl

/-- A call of the reduce loop can be served. -/
theorem serve_reduce (hs : Going job s) {d : ReduceDispatch} (hphase : s.phase = .reducing d)
    {call : ReduceCall} (hcall : call ∈ d.inFlight) :
    ∃ t, Drives (JobSystem.step job.toWorkers) (JobSystem.Smooth job) s t ∧ t.phase = s.phase ∧
      (call, job.reduceReply) ∈ t.reduceReplies := by
  have hsent := (hs.live.reducing d hphase).2 call hcall
  obtain ⟨m, hconnect, hsame, -, hrpcs, hconnected⟩ := hs.connect call.client
  rw [← hrpcs] at hsent
  have hok : m.Undisturbed job (.serveReduce call fun _ => true) := ⟨hconnected, fun _ _ => rfl⟩
  obtain ⟨files, hserved⟩ := (hs.drives hconnect).inv.run_reduce_task hok hsent
  have hstep : m.step job.toWorkers (.serveReduce call fun _ => true) = _ :=
    (if_pos hsent).trans (by rw [hserved])
  exact ⟨_, hconnect.trans (.one hstep hok), hsame,
    List.mem_append_right _ (List.mem_singleton.mpr rfl)⟩

end Going

/-- Whether a takeover leaves something to do can be tried out. -/
instance : ∀ l, Decidable (JobSystem.Resumes l)
  | .takeOver _ _ _ => inferInstanceAs (Decidable (_ ∧ _))
  | .mapStep _ | .serveMap _ _ _ | .abandonMap _ _ _ _ | .reduce | .reduceStep _
  | .serveReduce _ _ | .exchange _ | .push => inferInstanceAs (Decidable True)

end MapReduce
