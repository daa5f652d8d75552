import MapReduce.Job.Steps
import MapReduce.Master.ReduceOutputs

/-!
# The outcome of a job

What is in the storage when the leader leaves the reduce loop. Read `job_outputs_counted` first. It
speaks of every undisturbed run: any order of the steps, calls that fail or time out and are served
later, tasks that are served twice or in part, and any number of leaders.
-/

namespace MapReduce

open Machine (Along run)

/-- The leader has left the reduce loop. -/
def JobSystem.finished (s : JobSystem) : Bool :=
  match s.phase with
  | .mapping _ => false
  | .reducing d => d.pc = .exited

/-- When the leader leaves the reduce loop, the output of every reducer is stored. -/
theorem Inv.outputs {job : Job} {s : JobSystem} (hs : Inv job s) (hfinished : s.finished = true)
    {j : Nat} (hj : j < job.nreducers.toNat) :
    s.storage job.outcontainer (outFileName j) = some (job.output j) := by
  obtain ⟨d, hphase, hexit⟩ : ∃ d, s.phase = .reducing d ∧ d.pc = .exited := by
    unfold JobSystem.finished at hfinished
    split at hfinished
    · cases hfinished
    · next d hphase =>
      exact ⟨d, hphase, of_decide_eq_true hfinished⟩
  have hd := hs.phase
  rw [hphase] at hd
  obtain ⟨m, hm, hreach⟩ := hd.entered
  have hone := ReduceDispatch.exited_success hreach hexit (j : Int)
  rw [if_pos (by omega)] at hone
  obtain ⟨res, hres⟩ := List.length_eq_one_iff.mp hone
  have hmem : res ∈ ReduceDispatch.successes (j : Int) d.responseList := by simp [hres]
  obtain ⟨hres, hboth⟩ := List.mem_filter.mp hmem
  obtain ⟨hstatus, hjob⟩ := of_decide_eq_true hboth
  have hstored := hd.outputs res hres hstatus
  rwa [hjob] at hstored

/-- Every undisturbed run of a job that comes to its end leaves the counts of the whole input. The
blob of a reducer has one line for each of its words, with the sum of the counts of the word over
all pieces; the words of the reducers are those of the pieces, and no word is at two reducers. -/
theorem job_outputs_counted (job : Job) (s t : JobSystem) (ls : List SystemLabel)
    (hstart : s.Starts job)
    (hok : Along (JobSystem.step job.toWorkers) (JobSystem.Undisturbed job) s ls)
    (hrun : run (JobSystem.step job.toWorkers) s ls = some t) (hfinished : t.finished = true) :
    ∃ result : Nat → Dict Str Int,
      (∀ j < job.nreducers.toNat,
        t.storage (outContainerName job.containername) (outFileName j) =
          some ((result j).entries.flatMap (entryLine job.unicodePrintable))) ∧
      (∀ i j, i ≠ j → ∀ k ∈ (result i).keys, k ∉ (result j).keys) ∧
      (∀ k, (∃ j < job.nreducers.toNat, k ∈ (result j).keys) ↔
        ∃ shard ∈ job.shards, ∃ d ∈ shard.sets, k ∈ (job.pieceDict job.input d).keys) ∧
      ∀ j, ∀ k ∈ (result j).keys, (result j).get k =
        (job.shards.flatMap fun shard => shard.sets.map fun d =>
          (job.pieceDict job.input d).get k).sum := by
  have hinv := Inv.run hstart hok hrun
  obtain ⟨result, houtput, hdisjoint, hkeys, hget⟩ := job.output_counts
  refine ⟨result, fun j hj => ?_, hdisjoint, fun k => ?_, fun j k hk => ?_⟩
  · rw [← houtput j]
    exact hinv.outputs hfinished hj
  · rw [hkeys k]
    simp only [Job.dicts, Job.shardDicts, List.mem_flatMap, List.mem_map]
    constructor
    · intro hk
      obtain ⟨_, ⟨shard, hshard, d, hd, rfl⟩, hk⟩ := hk
      exact ⟨shard, hshard, d, hd, hk⟩
    · intro hk
      obtain ⟨shard, hshard, d, hd, hk⟩ := hk
      exact ⟨_, ⟨shard, hshard, d, hd, rfl⟩, hk⟩
  · rw [hget j k hk, Job.dicts, List.map_flatMap]
    simp only [Job.shardDicts, List.map_map, Function.comp_def]

/-- The outputs of a job do not depend on the run. Two undisturbed runs of the same job, on
whatever workers, with whatever failures, orders and leaders and whatever blobs of earlier jobs in
the containers, leave the same bytes in the blobs of the reducers. -/
theorem job_outputs_agree (job : Job) (s s' t t' : JobSystem) (ls ls' : List SystemLabel)
    (hstart : s.Starts job) (hstart' : s'.Starts job)
    (hok : Along (JobSystem.step job.toWorkers) (JobSystem.Undisturbed job) s ls)
    (hok' : Along (JobSystem.step job.toWorkers) (JobSystem.Undisturbed job) s' ls')
    (hrun : run (JobSystem.step job.toWorkers) s ls = some t)
    (hrun' : run (JobSystem.step job.toWorkers) s' ls' = some t')
    (hfinished : t.finished = true) (hfinished' : t'.finished = true) (j : Nat)
    (hj : j < job.nreducers.toNat) :
    t.storage (outContainerName job.containername) (outFileName j) =
      t'.storage (outContainerName job.containername) (outFileName j) := by
  have houtput := (Inv.run hstart hok hrun).outputs hfinished hj
  have houtput' := (Inv.run hstart' hok' hrun').outputs hfinished' hj
  exact houtput.trans houtput'.symm

/-! ## Two runs of one job -/

/-- Whether a step is undisturbed can be tried out. -/
instance (job : Job) (s : JobSystem) : ∀ l, Decidable (s.Undisturbed job l)
  | .serveMap _ _ _ | .abandonMap _ _ _ _ => inferInstanceAs (Decidable (_ ∧ _))
  | .serveReduce _ _ => inferInstanceAs (Decidable (_ ∧ _))
  | .mapStep _ | .reduce | .reduceStep _ | .exchange _ | .push | .takeOver _ _ _ =>
      inferInstanceAs (Decidable True)

/-- The first of two shards. -/
def firstShard : FileShard := ⟨0, [⟨['x'], 0, 3⟩]⟩

/-- The second of two shards. -/
def secondShard : FileShard := ⟨1, [⟨['y'], 0, 1⟩]⟩

/-- Two blobs of one shard each, for one reducer, on a cluster of two workers. -/
def twoShards : Job where
  hash := List.length
  unicodePrintable := fun _ => true
  mapScript := fun content => some (mapfunc content)
  target := fun client => if client = 0 then ['v'] else ['w']
  containername := ['c']
  nmappers := 2
  nreducers := 1
  input := fun name => if name = ['x'] then some ['a', ' ', 'b'] else
    if name = ['y'] then some ['b'] else none
  shards := [firstShard, secondShard]
  ids := by decide
  pieces := by decide
  offsets := by decide
  mappers := by decide
  reducers := by decide
  plain := by decide +kernel
  counts := by decide +kernel
  sums := by decide +kernel

/-- The job as its leader starts to map it. -/
def twoShardsStart : JobSystem where
  phase := .mapping (.enter (runMapper { Master.init with
    nmappers := 2
    nreducers := 1
    containername := ['c']
    shards := twoShards.shards
    clients := [0, 1] }))
  replicates := true
  connection := fun _ => none
  files := fun _ _ => none
  errorSet := fun _ => false
  storage := fun container => if container = ['c'] then twoShards.input else fun _ => none
  mapRpcs := []
  mapReplies := []
  reduceRpcs := []
  reduceReplies := []
  checkpoints := []

/-- The start is in order. -/
theorem two_shards_starts : twoShardsStart.Starts twoShards :=
  ⟨⟨_, rfl, rfl, rfl, rfl, rfl, fun _ => rfl⟩, rfl, fun _ => rfl, rfl, rfl, rfl, rfl, rfl⟩

/-- The steps of a map task that a worker serves. -/
def mapped (client : ClientId) (address : Str) (shard : FileShard) : List SystemLabel :=
  [.serveMap client (invokeMapTask shard 1) fun _ => true,
    .mapStep (.complete ⟨shard.shardId, client⟩
      (.ok twoShards.intcontainer (twoShards.blobNames address shard)))]

/-- The steps of the reduce phase, with the blobs of the two shards on the one client. -/
def reduced (client : ClientId) (blobs : List Str) : List SystemLabel :=
  [.reduce, .reduceStep (.dispatch client), .reduceStep .allDispatched,
    .serveReduce ⟨0, client, blobs, twoShards.intcontainer⟩ fun _ => true,
    .reduceStep (.complete ⟨0, client, blobs, twoShards.intcontainer⟩
      (.ok twoShards.outcontainer [])),
    .reduceStep .received, .reduceStep .collect, .reduceStep .test]

/-- One worker serves all tasks, and nothing fails. -/
def smoothRun : List SystemLabel :=
  [.exchange 0, .mapStep (.dispatch 0), .mapStep (.dispatch 0), .mapStep .allDispatched] ++
    mapped 0 ['v'] firstShard ++ mapped 0 ['v'] secondShard ++
    [.mapStep .received, .mapStep .handle, .mapStep .handle, .mapStep .test] ++
    reduced 0 [intermediateBlobName ['v'] 0 0 0, intermediateBlobName ['v'] 1 0 0]

/-- The checkpoint of a leader that has mapped the first shard. -/
def firstMapped : CheckPointData where
  reqId := 0
  nMappers := 2
  nReducers := 1
  inContainer := ['c']
  shardList := [⟨0, [⟨['x'], 0, 3⟩]⟩, ⟨1, [⟨['y'], 0, 1⟩]⟩]
  jobList := [⟨0, twoShards.intcontainer, twoShards.blobNames ['v'] firstShard⟩]
  reduceJobList := []

/-- The second task times out and is served after all, once for a leader that is gone; a follower
takes over and sends the task to the same worker, which ends and serves it again. -/
def failoverRun : List SystemLabel :=
  [.exchange 0, .exchange 1, .mapStep (.dispatch 0), .mapStep (.dispatch 1),
    .mapStep .allDispatched] ++ mapped 0 ['v'] firstShard ++
    [.mapStep (.complete ⟨1, 1⟩ (.error 4)), .push, .takeOver Master.init [firstMapped] [1],
      .serveMap 1 (invokeMapTask secondShard 1) fun _ => true, .mapStep (.dispatch 1),
      .mapStep .allDispatched,
      .abandonMap 1 (invokeMapTask secondShard 1) (fun _ => true) 1] ++
    mapped 1 ['w'] secondShard ++ [.mapStep .received, .mapStep .handle, .mapStep .test] ++
    reduced 1 [intermediateBlobName ['v'] 0 0 0, intermediateBlobName ['w'] 1 0 0]

/-- The run with a failover comes to its end, and `b`, which is in both blobs, is counted twice. -/
theorem job_outputs_counted_failover :
    ∃ t, run (JobSystem.step twoShards.toWorkers) twoShardsStart failoverRun = some t ∧
      ∃ result : Dict Str Int,
        t.storage (outContainerName ['c']) (outFileName 0) =
          some (result.entries.flatMap (entryLine fun _ => true)) ∧
        ['b'] ∈ result.keys ∧ result.get ['b'] = 2 := by
  have hends : (run (JobSystem.step twoShards.toWorkers) twoShardsStart failoverRun).any
      JobSystem.finished = true := by decide +kernel
  obtain ⟨t, hrun, hfinished⟩ := (Option.any_eq_true _ _).mp hends
  obtain ⟨result, hstored, -, hkeys, hget⟩ := job_outputs_counted twoShards twoShardsStart t
    failoverRun two_shards_starts (by decide +kernel) hrun hfinished
  obtain ⟨j, hj, hmem⟩ := (hkeys ['b']).mpr ⟨firstShard, by decide, ⟨['x'], 0, 3⟩, by decide,
    by decide +kernel⟩
  obtain rfl : j = 0 := Nat.lt_one_iff.mp hj
  exact ⟨t, hrun, result 0, hstored 0 hj, hmem, (hget 0 _ hmem).trans (by decide +kernel)⟩

/-- The run with a failover and the run without leave the same output. -/
theorem job_outputs_agree_failover :
    ∃ t t', run (JobSystem.step twoShards.toWorkers) twoShardsStart smoothRun = some t ∧
      run (JobSystem.step twoShards.toWorkers) twoShardsStart failoverRun = some t' ∧
      t.storage (outContainerName ['c']) (outFileName 0) =
        t'.storage (outContainerName ['c']) (outFileName 0) := by
  have hends : (run (JobSystem.step twoShards.toWorkers) twoShardsStart smoothRun).any
      JobSystem.finished = true := by decide +kernel
  have hends' : (run (JobSystem.step twoShards.toWorkers) twoShardsStart failoverRun).any
      JobSystem.finished = true := by decide +kernel
  obtain ⟨t, hrun, hfinished⟩ := (Option.any_eq_true _ _).mp hends
  obtain ⟨t', hrun', hfinished'⟩ := (Option.any_eq_true _ _).mp hends'
  exact ⟨t, t', hrun, hrun', job_outputs_agree twoShards twoShardsStart twoShardsStart t t'
    smoothRun failoverRun two_shards_starts two_shards_starts (by decide +kernel)
    (by decide +kernel) hrun hrun' hfinished hfinished' 0 (by decide)⟩

end MapReduce
