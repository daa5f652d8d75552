import MapReduce.Job.Blobs
import MapReduce.Master.LeaderCheckpoints

/-!
# What every undisturbed run of a job keeps

Every message of a run is about blobs that are stored: a result names the blobs one worker made of
one shard, a checkpoint carries such results, and a reduce task names the blobs of its reducer for
all shards, each made by some worker. Read `Inv` first. A step of one part keeps the facts about the
others, because nothing that is stored is lost (`Inv.keeps`).
-/

namespace MapReduce

open Machine (Reachable)
open Std (ExtTreeMap)

/-! ## Adding a result -/

/-- A recorded result joins the attempts. -/
theorem Attempts.snoc {t : ExtTreeMap Int MapperResult compare} {rs : List MapperResult}
    {r : MapperResult} (h : Attempts t rs) (hnew : r.shardId ∉ t) :
    Attempts (t.insertIfNew r.shardId r) (rs ++ [r]) := by
  have hfresh : r.shardId ∉ rs.map MapperResult.shardId := fun hmem => hnew ((h.keys _).mpr hmem)
  refine ⟨?_, ?_, ?_⟩
  · rw [List.map_append]
    refine h.once.append (by simp) ?_
    simpa [List.disjoint_singleton] using hfresh
  · intro r' hr'
    rcases List.mem_append.mp hr' with hold | hlast
    · have hne : r.shardId ≠ r'.shardId := fun heq => hfresh (heq ▸ List.mem_map_of_mem hold)
      rw [get_emplace hnew, if_neg hne]
      exact h.entry r' hold
    · obtain rfl := List.mem_singleton.mp hlast
      rw [get_emplace hnew, if_pos rfl]
  · intro i
    simp only [List.map_append, List.mem_append, List.map_cons, List.map_nil, List.mem_singleton]
    rw [mem_emplace, h.keys i, or_comm, @eq_comm _ i]

/-- A step of the loop leaves the dispatcher alone, or is a step of it. -/
theorem MapLoop.step_data {d d' : MapLoop} {l : LoopLabel} (h : d.step l = some d') :
    d'.data = d.data ∨ ∃ k, d.data.Effect k d'.data ∧
      ∀ call outcome, k = .complete call outcome → l = .complete call outcome := by
  cases MapLoop.step_effect h with
  | dispatch client data _ hdata =>
      exact Or.inr ⟨_, MapDispatch.step_effect hdata, fun _ _ heq => MapLabel.noConfusion heq⟩
  | complete call outcome data _ hdata =>
      refine Or.inr ⟨_, MapDispatch.step_effect hdata, fun call' outcome' heq => ?_⟩
      obtain ⟨rfl, rfl⟩ := MapLabel.complete.inj heq
      rfl
  | handle data _ hdata =>
      exact Or.inr ⟨_, MapDispatch.step_effect hdata, fun _ _ heq => MapLabel.noConfusion heq⟩
  | allDispatched | received | exit | again => exact Or.inl rfl

/-- The number of reducers and the container do not change. -/
theorem MapDispatch.Effect.request_eq {s t : MapDispatch} {l : MapLabel} (h : s.Effect l t) :
    t.nreducers = s.nreducers ∧ t.containername = s.containername := by
  cases h <;> exact ⟨rfl, rfl⟩

namespace Job

variable (job : Job)

/-! ## The parts -/

/-- The members of a leader of the job. -/
structure MemberOk (m : Master) : Prop where
  nmappers : m.nmappers = job.nmappers
  nreducers : m.nreducers = job.nreducers
  containername : m.containername = job.containername
  shards : m.shards = job.shards

/-- A result for a shard, whose blobs one worker made and stored. -/
def ResultOk (storage : Str → Str → Option Str) (r : MapperResult) : Prop :=
  ∃ address, ∃ shard ∈ job.shards, r.shardId = shard.shardId ∧ r.cname = job.intcontainer ∧
    r.blobList = job.blobNames address shard ∧ job.Stored storage address shard

/-- Results, one for each of some shards. -/
def ResultsOk (storage : Str → Str → Option Str) (rs : List MapperResult) : Prop :=
  (rs.map MapperResult.shardId).Nodup ∧ ∀ r ∈ rs, job.ResultOk storage r

/-- What the dispatcher has collected from the results `done`. -/
structure Collected (storage : Str → Str → Option Str) (s : MapDispatch)
    (done : List MapperResult) : Prop where
  attempts : Attempts s.intermediateResultMap done
  blobs : s.intblobList = done.flatMap MapperResult.blobList
  container : done ≠ [] → s.intcontainer = job.intcontainer
  results : ∀ r ∈ done, job.ResultOk storage r
  answered : ∀ r ∈ s.responseList, r.status = .success → job.ResultOk storage r

/-- A leader in the map phase. -/
structure MappingOk (storage : Str → Str → Option Str) (replicates : Bool) (d : MapLoop) :
    Prop where
  members : job.MemberOk d.data.toMaster
  entered : ∃ s₀ : MapDispatch, s₀.Entry ∧ (replicates = true → s₀.replList = []) ∧
    Reachable MapLoop.step (.enter s₀) d
  collected : ∃ done, job.Collected storage d.data done
  replicated : replicates = true → job.ResultsOk storage d.data.replList

/-- The shards of the job, each with the worker that stored its blobs. -/
structure Placed (storage : Str → Str → Option Str) (done : List (Str × FileShard)) : Prop where
  shards : (done.map Prod.snd).Perm job.shards
  stored : ∀ p ∈ done, job.Stored storage p.1 p.2

/-- A leader in the reduce phase. -/
structure ReducingOk (storage : Str → Str → Option Str) (replicates : Bool)
    (d : ReduceDispatch) : Prop where
  members : job.MemberOk d.toMaster
  entered : ∃ m : Master, m.nreducers = job.nreducers ∧
    Reachable ReduceDispatch.step (runReducer m) d
  collected : ∃ done, job.Placed storage done ∧
    d.intblobList = done.flatMap (fun p => job.blobNames p.1 p.2) ∧
    d.intcontainer = job.intcontainer
  outputs : ∀ res ∈ d.responseList, res.status = .success → job.OutStored storage res.jobid
  replicated : replicates = true → job.ResultsOk storage d.replList

/-- A leader in either phase. -/
def PhaseOk (storage : Str → Str → Option Str) (replicates : Bool) : LeaderPhase → Prop
  | .mapping d => job.MappingOk storage replicates d
  | .reducing d => job.ReducingOk storage replicates d

/-- A reduce task of the job: it names the blobs of its reducer, one for each piece. -/
def ReduceOk (storage : Str → Str → Option Str) (call : ReduceCall) : Prop :=
  ∃ done, job.Placed storage done ∧ call.containername = job.intcontainer ∧
    ∃ j < job.nreducers.toNat, call.jobid = (j : Int) ∧
      call.blobs = done.flatMap fun p => (List.range p.2.sets.length).map fun (i : Nat) =>
        intermediateBlobName p.1 p.2.shardId i j

/-- A checkpoint of the job. -/
structure CheckpointOk (storage : Str → Str → Option Str) (c : CheckPointData) : Prop where
  nMappers : c.nMappers = job.nmappers
  nReducers : c.nReducers = job.nreducers
  inContainer : c.inContainer = job.containername
  shardList : c.shardList.map (fun f =>
    (⟨f.shardId, f.stuples.map ShardTuple.toData⟩ : FileShard)) = job.shards
  results : job.ResultsOk storage c.results

/-! ## Nothing is lost -/

section Keeps

variable {job} {storage storage' : Str → Str → Option Str} (hkeeps : job.Keeps storage storage')

include hkeeps

theorem ResultOk.keeps {r : MapperResult} (h : job.ResultOk storage r) :
    job.ResultOk storage' r := by
  obtain ⟨address, shard, hshard, hid, hname, hblobs, hstored⟩ := h
  exact ⟨address, shard, hshard, hid, hname, hblobs, hkeeps.stored address shard hshard hstored⟩

theorem ResultsOk.keeps {rs : List MapperResult} (h : job.ResultsOk storage rs) :
    job.ResultsOk storage' rs :=
  ⟨h.1, fun r hr => (h.2 r hr).keeps hkeeps⟩

theorem Placed.keeps {done : List (Str × FileShard)} (h : job.Placed storage done) :
    job.Placed storage' done := by
  refine ⟨h.shards, fun p hp => hkeeps.stored p.1 p.2 ?_ (h.stored p hp)⟩
  exact h.shards.mem_iff.mp (List.mem_map_of_mem hp)

theorem ReduceOk.keeps {call : ReduceCall} (h : job.ReduceOk storage call) :
    job.ReduceOk storage' call := by
  obtain ⟨done, hplaced, hcall⟩ := h
  exact ⟨done, hplaced.keeps hkeeps, hcall⟩

theorem CheckpointOk.keeps {c : CheckPointData} (h : job.CheckpointOk storage c) :
    job.CheckpointOk storage' c :=
  { h with results := h.results.keeps hkeeps }

theorem PhaseOk.keeps {replicates : Bool} {phase : LeaderPhase}
    (h : job.PhaseOk storage replicates phase) : job.PhaseOk storage' replicates phase := by
  cases phase with
  | mapping d =>
      obtain ⟨hmembers, hentered, ⟨done, hdone⟩, hrepl⟩ := h
      refine ⟨hmembers, hentered, ⟨done, ?_⟩, fun hr => (hrepl hr).keeps hkeeps⟩
      exact { hdone with
        results := fun r hr => (hdone.results r hr).keeps hkeeps
        answered := fun r hr hstatus => (hdone.answered r hr hstatus).keeps hkeeps }
  | reducing d =>
      obtain ⟨hmembers, hentered, ⟨done, hplaced, hblobs⟩, houtputs, hrepl⟩ := h
      exact ⟨hmembers, hentered, ⟨done, hplaced.keeps hkeeps, hblobs⟩,
        fun res hres hstatus => hkeeps.outputs _ (houtputs res hres hstatus),
        fun hr => (hrepl hr).keeps hkeeps⟩

end Keeps

end Job

/-! ## The invariant -/

/-- What every undisturbed run of a job keeps. -/
structure Inv (job : Job) (s : JobSystem) : Prop where
  input : s.storage job.containername = job.input
  errorSet : ∀ address, s.errorSet address = false
  mapRpcs : ∀ rpc ∈ s.mapRpcs, ∃ shard ∈ job.shards, rpc.2 = invokeMapTask shard job.nreducers
  mapReplies : ∀ reply ∈ s.mapReplies,
    job.ResultOk s.storage (reply.1.result (.ok reply.2.1 reply.2.2))
  reduceRpcs : ∀ call ∈ s.reduceRpcs, job.ReduceOk s.storage call
  reduceReplies : ∀ reply ∈ s.reduceReplies, job.OutStored s.storage reply.1.jobid
  checkpoints : ∀ c ∈ s.checkpoints, job.CheckpointOk s.storage c
  phase : job.PhaseOk s.storage s.replicates s.phase

namespace Inv

variable {job : Job} {s : JobSystem}

/-- A task that leaves no exception changes no interpreter. -/
theorem error_set_eq (hs : Inv job s) (address : Str) :
    Function.update s.errorSet address false = s.errorSet := by
  rw [Function.update_eq_self_iff, hs.errorSet]

/-- Where the storage loses nothing, the invariant survives. -/
theorem keeps (hs : Inv job s) (files : Str → Str → Option Str)
    {storage : Str → Str → Option Str} (hkeeps : job.Keeps s.storage storage) :
    Inv job { s with storage := storage, files := files } where
  input := hkeeps.input.trans hs.input
  errorSet := hs.errorSet
  mapRpcs := hs.mapRpcs
  mapReplies := fun reply hreply => (hs.mapReplies reply hreply).keeps hkeeps
  reduceRpcs := fun call hcall => (hs.reduceRpcs call hcall).keeps hkeeps
  reduceReplies := fun reply hreply => hkeeps.outputs _ (hs.reduceReplies reply hreply)
  checkpoints := fun c hc => (hs.checkpoints c hc).keeps hkeeps
  phase := hs.phase.keeps hkeeps

end Inv

end MapReduce
