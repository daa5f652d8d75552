import MapReduce.Job.Outcome

/-!
# What a job writes

Between any two moments of an undisturbed run, not only from its start to its end, the storage
changes by right blobs only. Read `job_writes` first: the containers of other jobs and the input
stay as they are, an intermediate blob stays as it is or holds the lines of its piece for its
reducer, and an output stays as it is or becomes final. So nobody sees half of an output, and a
final output does not change when its task is served again.
-/

namespace MapReduce

open Machine (Along run)

namespace Job

variable (job : Job)

/-- From `before` to `storage` only blobs of the job were written, each with its content. -/
structure Writes (before storage : Str → Str → Option Str) : Prop where
  others : ∀ container, container ≠ job.intcontainer → container ≠ job.outcontainer →
    storage container = before container
  intermediate : ∀ name, storage job.intcontainer name = before job.intcontainer name ∨
    ∃ address, ∃ shard ∈ job.shards, ∃ content,
      (name, content) ∈ job.shardBlobs address shard ∧
        storage job.intcontainer name = some content
  outputs : ∀ name, storage job.outcontainer name = before job.outcontainer name ∨
    ∃ j < job.nreducers.toNat, name = outFileName j ∧
      storage job.outcontainer name = some (job.output j)

namespace Writes

variable {job} {before storage : Str → Str → Option Str}

/-- Nothing is written at first. -/
theorem refl (before : Str → Str → Option Str) : job.Writes before before :=
  ⟨fun _ _ _ => rfl, fun _ => .inl rfl, fun _ => .inl rfl⟩

/-- A map task writes blobs of its shard. -/
theorem put_blobs (h : job.Writes before storage) (address : Str) {shard : FileShard}
    (hshard : shard ∈ job.shards) {n : Nat} (hn : n ≤ shard.sets.length) :
    job.Writes before (Function.update storage job.intcontainer
      (putAll (storage job.intcontainer) (requestBlobs address job.nreducers shard.shardId
        (job.shardContents shard) 0 n))) := by
  have hne : job.outcontainer ≠ job.intcontainer :=
    (container_names job.containername).2.2.symm
  refine ⟨fun container hint hout => ?_, fun name => ?_, fun name => ?_⟩
  · rw [Function.update_of_ne hint]
    exact h.others container hint hout
  · rw [Function.update_self]
    generalize hl : requestBlobs address job.nreducers shard.shardId (job.shardContents shard) 0 n =
      l
    by_cases hname : name ∈ l.map Prod.fst
    · -- the last write of the name decides, and it is a blob of the shard
      obtain ⟨content, hmem, hstored⟩ := put_all_mem (storage job.intcontainer) hname
      refine .inr ⟨address, shard, hshard, content, ?_, hstored⟩
      rw [← hl] at hmem
      obtain ⟨i, hi, hpiece⟩ := job.mem_request_blobs.mp hmem
      exact job.mem_request_blobs.mpr ⟨i, Nat.lt_of_lt_of_le hi hn, hpiece⟩
    · rw [put_all_of_not_mem hname]
      exact h.intermediate name
  · rw [Function.update_of_ne hne]
    exact h.outputs name

/-- A reduce task writes its output. -/
theorem put_output (h : job.Writes before storage) {j : Nat} (hj : j < job.nreducers.toNat) :
    job.Writes before (Function.update storage job.outcontainer
      (put (storage job.outcontainer) (outFileName j) (job.output j))) := by
  have hne : job.intcontainer ≠ job.outcontainer := (container_names job.containername).2.2
  refine ⟨fun container hint hout => ?_, fun name => ?_, fun name => ?_⟩
  · rw [Function.update_of_ne hout]
    exact h.others container hint hout
  · rw [Function.update_of_ne hne]
    exact h.intermediate name
  · rw [Function.update_self]
    by_cases hname : name = outFileName j
    · refine .inr ⟨j, hj, hname, ?_⟩
      rw [hname, put, Function.update_self]
    · rw [put, Function.update_of_ne hname]
      exact h.outputs name

end Writes

end Job

/-- Every undisturbed step writes blobs of the job only. -/
theorem Inv.step_writes {job : Job} {s t : JobSystem} (hs : Inv job s)
    {before : Str → Str → Option Str} (hwrites : job.Writes before s.storage) {l : SystemLabel}
    (hok : s.Undisturbed job l) (h : s.step job.toWorkers l = some t) :
    job.Writes before t.storage := by
  cases JobSystem.step_effect job.toWorkers h with
  | serveMap client request readable reply hsent hrun =>
      have hall : request = { request with
          stuples := request.stuples.take request.stuples.length } := by rw [List.take_length]
      obtain ⟨outcome, t⟩ := reply
      rw [hall] at hrun
      obtain ⟨shard, hshard, n, hn, files, rfl⟩ := hs.begin_map hok hsent hrun
      cases outcome <;> exact hwrites.put_blobs (job.target client) hshard hn
  | abandonMap client request readable pieces reply hsent hrun =>
      obtain ⟨shard, hshard, n, hn, files, hreply⟩ := hs.begin_map hok hsent hrun
      rw [hreply]
      exact hwrites.put_blobs (job.target client) hshard hn
  | serveReduce call readable reply hsent hrun =>
      obtain ⟨files, hserved⟩ := hs.run_reduce_task hok hsent
      obtain rfl := Option.some.inj (hrun.symm.trans hserved)
      obtain ⟨-, -, -, j, hj, hjob, -⟩ := hs.reduceRpcs call hsent
      rw [hjob]
      exact hwrites.put_output hj
  | mapStep | reduce | reduceStep | exchange | push | takeOver => exact hwrites

/-- How the storage changes between any two moments `m` and `t` of an undisturbed run of a job. The
input and the containers of other jobs stay as they are; an intermediate blob stays as it is, or it
is named by the worker, shard, piece and reducer it is for, and holds the lines of the piece for the
reducer; and an output stays as it is, or becomes the final output of its reducer. -/
theorem job_writes (job : Job) (s m t : JobSystem) (first rest : List SystemLabel)
    (hstart : s.Starts job)
    (hok : Along (JobSystem.step job.toWorkers) (JobSystem.Undisturbed job) s (first ++ rest))
    (hfirst : run (JobSystem.step job.toWorkers) s first = some m)
    (hrest : run (JobSystem.step job.toWorkers) m rest = some t) :
    (∀ container, container ≠ JobSystem.intContainerName job.containername →
      container ≠ outContainerName job.containername →
        t.storage container = m.storage container) ∧
      (∀ name, t.storage (JobSystem.intContainerName job.containername) name =
          m.storage (JobSystem.intContainerName job.containername) name ∨
        ∃ address, ∃ shard ∈ job.shards, ∃ (i : Nat) (d : ShardData), shard.sets[i]? = some d ∧
          ∃ j < job.nreducers.toNat, name = intermediateBlobName address shard.shardId i (j : Nat) ∧
            t.storage (JobSystem.intContainerName job.containername) name =
              some (job.pieceFile d j)) ∧
      ∀ name, t.storage (outContainerName job.containername) name =
          m.storage (outContainerName job.containername) name ∨
        ∃ j < job.nreducers.toNat, name = outFileName j ∧
          t.storage (outContainerName job.containername) name = some (job.output j) := by
  have hm : Inv job m := .run hstart (hok.of_append (List.prefix_append first rest)) hfirst
  have hboth : Inv job t ∧ job.Writes m.storage t.storage := by
    refine (hok.of_run hfirst).invariant
      (motive := fun t => Inv job t ∧ job.Writes m.storage t.storage) ⟨hm, .refl _⟩ ?_ hrest
    intro u l v hu hok hstep
    exact ⟨hu.1.step hok hstep, hu.1.step_writes hu.2 hok hstep⟩
  obtain ⟨-, hothers, hintermediate, houtputs⟩ := hboth
  refine ⟨hothers, fun name => ?_, houtputs⟩
  refine (hintermediate name).imp_right fun hwritten => ?_
  obtain ⟨address, shard, hshard, content, hmem, hstored⟩ := hwritten
  obtain ⟨i, hi, j, hj, heq⟩ := job.mem_request_blobs.mp hmem
  obtain ⟨rfl, rfl⟩ := Prod.mk.inj heq
  have hget := List.getElem?_eq_getElem hi
  refine ⟨address, shard, hshard, i, _, hget, j, hj, rfl, ?_⟩
  rw [job.shard_contents_get hget hj] at hstored
  exact hstored

/-- From the takeover to the end of the run with a failover, the input stays as it is, and every
blob of the outputs stays as it is or becomes final. -/
theorem job_writes_failover :
    ∃ m t, run (JobSystem.step twoShards.toWorkers) twoShardsStart (failoverRun.take 10) = some m ∧
      run (JobSystem.step twoShards.toWorkers) m (failoverRun.drop 10) = some t ∧
      t.storage ['c'] = m.storage ['c'] ∧
      ∀ name, t.storage twoShards.outcontainer name = m.storage twoShards.outcontainer name ∨
        ∃ j < 1, name = outFileName (j : Nat) ∧
          t.storage twoShards.outcontainer name = some (twoShards.output j) := by
  have hends : ((run (JobSystem.step twoShards.toWorkers) twoShardsStart
      (failoverRun.take 10)).bind fun m => run (JobSystem.step twoShards.toWorkers) m
        (failoverRun.drop 10)).isSome = true := by decide +kernel
  obtain ⟨t, ht⟩ := Option.isSome_iff_exists.mp hends
  obtain ⟨m, hfirst, hrest⟩ := Option.bind_eq_some_iff.mp ht
  obtain ⟨hothers, -, houtputs⟩ := job_writes twoShards twoShardsStart m t (failoverRun.take 10)
    (failoverRun.drop 10) two_shards_starts (by decide +kernel) hfirst hrest
  exact ⟨m, t, hfirst, hrest, hothers ['c'] (by decide) (by decide), houtputs⟩

end MapReduce
