import MapReduce.Job.System

/-!
# The blobs of a job

What the workers of an undisturbed run leave in the storage. The name of an intermediate blob
determines the worker, the shard, the piece and the reducer, and the job determines its content, so
a task that is served again, late or in part writes what is there or will be there. Read
`Job.Keeps` first: no step destroys a stored blob or an output, which is why the facts about sent
messages survive the steps of the others.
-/

namespace MapReduce

open JobSystem (intContainerName)

/-! ## The containers -/

/-- The containers of a job are different. -/
theorem container_names (c : Str) :
    intContainerName c ≠ c ∧ outContainerName c ≠ c ∧ intContainerName c ≠ outContainerName c := by
  refine ⟨fun h => ?_, fun h => ?_, fun h => ?_⟩
  · have hlen := congrArg List.length h
    simp [intContainerName] at hlen
  · have hlen := congrArg List.length h
    simp [outContainerName] at hlen
  · exact absurd (List.append_cancel_left h) (by decide)

/-! ## The container of a reply -/

/-- The upload of a blob names the container of the worker. -/
theorem add_intermediate_blob_container {reducerId sid spid : Int} {s t : Serving}
    (h : addIntermediateBlob reducerId sid spid s = some t) :
    t.worker.wrkrcontainername = s.worker.wrkrcontainername ∧
      t.rescontainer = s.worker.wrkrcontainername := by
  obtain ⟨content, -, h⟩ := Option.bind_eq_some_iff.mp h
  cases h
  exact ⟨rfl, rfl⟩

/-- The uploads of a piece name the container of the worker. -/
theorem upload_container {sid spid : Int} {is : List Nat} {s t : Serving}
    (h : is.foldlM (fun s (i : Nat) => addIntermediateBlob i sid spid s) s = some t) :
    t.worker.wrkrcontainername = s.worker.wrkrcontainername ∧
      (is ≠ [] → t.rescontainer = s.worker.wrkrcontainername) := by
  induction is generalizing s with
  | nil =>
      cases h
      exact ⟨rfl, fun hne => absurd rfl hne⟩
  | cons i is ih =>
      rw [List.foldlM_cons] at h
      obtain ⟨m, hone, h⟩ := Option.bind_eq_some_iff.mp h
      obtain ⟨hname, hres⟩ := add_intermediate_blob_container hone
      obtain ⟨hname', hres'⟩ := ih h
      refine ⟨hname'.trans hname, fun _ => ?_⟩
      by_cases hnil : is = []
      · rw [hnil] at h
        cases h
        exact hres
      · exact (hres' hnil).trans hname

/-- A piece that is mapped for some reducer names the container of the worker. -/
theorem map_shard_container {env : MapEnv} {blobname : Str} {begin_ end_ : Nat}
    {nReducers sid : Int} {spid : Nat} {s : Serving} {reply : Bool × Serving} (hR : 1 ≤ nReducers)
    (h : mapShard env blobname begin_ end_ nReducers sid spid s = some reply) :
    reply.2.worker.wrkrcontainername = s.worker.wrkrcontainername ∧
      reply.2.rescontainer = s.worker.wrkrcontainername := by
  obtain ⟨files, -, h⟩ := Option.bind_eq_some_iff.mp h
  obtain ⟨t, hupload, h⟩ := Option.bind_eq_some_iff.mp h
  cases h
  obtain ⟨hname, hres⟩ := upload_container hupload
  refine ⟨hname, hres ?_⟩
  rw [ne_eq, List.range_eq_nil]
  omega

/-- The loop over the pieces of a request names the container of the worker. -/
theorem do_work_loop_container {env : MapEnv} {nReducers shardId : Int} (hR : 1 ≤ nReducers)
    {stuples : List ShardTuple} {pieceId : Nat} {s t : Serving}
    (h : doWorkLoop env nReducers shardId pieceId stuples s = some t) :
    t.worker.wrkrcontainername = s.worker.wrkrcontainername ∧
      (stuples ≠ [] → t.rescontainer = s.worker.wrkrcontainername) := by
  induction stuples generalizing pieceId s with
  | nil =>
      cases h
      exact ⟨rfl, fun hne => absurd rfl hne⟩
  | cons stuple stuples ih =>
      obtain ⟨reply, hone, h⟩ := Option.bind_eq_some_iff.mp h
      obtain ⟨hname, hres⟩ := map_shard_container hR hone
      obtain ⟨hname', hres'⟩ := ih h
      refine ⟨hname'.trans hname, fun _ => ?_⟩
      by_cases hnil : stuples = []
      · rw [hnil] at h
        cases h
        exact hres
      · exact (hres' hnil).trans hname

/-- A reply to a map task with pieces names the container of the worker. -/
theorem do_work_container {env : MapEnv} {request : MapperInput} {w w' : Worker}
    {containername : Str} {blobs : List Str} (hR : 1 ≤ request.npartition)
    (hne : request.stuples ≠ [])
    (h : doWork env request w = some (.ok containername blobs, w')) :
    containername = w.wrkrcontainername := by
  obtain ⟨t, hloop, h⟩ := Option.bind_eq_some_iff.mp h
  cases h
  exact (do_work_loop_container hR hloop).2 hne

/-! ## Writing what is determined -/

/-- Writes that agree with what is stored keep it. -/
theorem put_all_keeps {store : Str → Option Str} {l : List (Str × Str)} {name content : Str}
    (hl : ∀ e ∈ l, e.1 = name → e.2 = content) (h : store name = some content) :
    putAll store l name = some content := by
  induction l generalizing store with
  | nil => exact h
  | cons e l ih =>
      rw [List.forall_mem_cons] at hl
      refine ih hl.2 ?_
      show put store e.1 e.2 name = some content
      by_cases hname : name = e.1
      · rw [put, hname, Function.update_self, hl.1 hname.symm]
      · rw [put, Function.update_of_ne hname]
        exact h

/-- A name that is written holds what one of its writes put there. -/
theorem put_all_mem (store : Str → Option Str) {l : List (Str × Str)} {name : Str}
    (h : name ∈ l.map Prod.fst) :
    ∃ content, (name, content) ∈ l ∧ putAll store l name = some content := by
  induction l generalizing store with
  | nil => cases h
  | cons e l ih =>
      by_cases hlater : name ∈ l.map Prod.fst
      · obtain ⟨content, hmem, hstored⟩ := ih (put store e.1 e.2) hlater
        exact ⟨content, List.mem_cons_of_mem _ hmem, hstored⟩
      · obtain rfl : name = e.1 := (List.mem_cons.mp h).resolve_right hlater
        refine ⟨e.2, List.mem_cons_self, (put_all_of_not_mem hlater).trans ?_⟩
        exact Function.update_self ..

namespace Job

variable (job : Job)

/-- The container of the intermediate blobs. -/
def intcontainer : Str := intContainerName job.containername

/-- The container of the outputs. -/
def outcontainer : Str := outContainerName job.containername

/-- The contents of the files of a piece, one for each reducer. -/
def shardContents (shard : FileShard) (i : Nat) : List Str :=
  (shard.sets[i]?).elim [] fun d => (List.range job.nreducers.toNat).map (job.pieceFile d)

/-- The blobs a worker makes of a shard, with their contents. -/
def shardBlobs (address : Str) (shard : FileShard) : List (Str × Str) :=
  requestBlobs address job.nreducers shard.shardId (job.shardContents shard) 0 shard.sets.length

/-- The names of the blobs a worker makes of a shard. -/
def blobNames (address : Str) (shard : FileShard) : List Str :=
  (job.shardBlobs address shard).map Prod.fst

/-- The blobs of a piece, as requests list them. -/
theorem mem_request_blobs {address : Str} {sid : Int} {contents : Nat → List Str} {n : Nat}
    {e : Str × Str} :
    e ∈ requestBlobs address job.nreducers sid contents 0 n ↔
      ∃ i < n, ∃ j < job.nreducers.toNat,
        (intermediateBlobName address sid (i : Nat) (j : Nat), (contents i).getD j []) = e := by
  simp only [requestBlobs, pieceBlobs, List.mem_flatMap, List.mem_map, List.mem_range,
    ← List.range_eq_range']

/-- The content of a file of a piece. -/
theorem shard_contents_get {shard : FileShard} {i j : Nat} {d : ShardData}
    (hd : shard.sets[i]? = some d) (hj : j < job.nreducers.toNat) :
    (job.shardContents shard i).getD j [] = job.pieceFile d j := by
  simp [shardContents, hd, hj]

/-- Shards of the job with the same id are the same. -/
theorem shard_eq {shard shard' : FileShard} (hshard : shard ∈ job.shards)
    (hshard' : shard' ∈ job.shards) (h : shard.shardId = shard'.shardId) : shard = shard' := by
  obtain ⟨i, hi, rfl⟩ := List.mem_iff_getElem.mp hshard
  obtain ⟨i', hi', rfl⟩ := List.mem_iff_getElem.mp hshard'
  rw [job.ids i hi, job.ids i' hi', Int.natCast_inj] at h
  subst h
  rfl

/-- `Stored storage address shard`: the worker at `address` has left the blobs of the shard. -/
def Stored (storage : Str → Str → Option Str) (address : Str) (shard : FileShard) : Prop :=
  ∀ e ∈ job.shardBlobs address shard, storage job.intcontainer e.1 = some e.2

/-- The output of a reducer is in its container. -/
def OutStored (storage : Str → Str → Option Str) (jobid : Int) : Prop :=
  storage job.outcontainer (outFileName jobid) = some (job.output jobid.toNat)

/-- From `storage` to `storage'` the input is the same, and no blob of a shard and no output is
lost. -/
structure Keeps (storage storage' : Str → Str → Option Str) : Prop where
  input : storage' job.containername = storage job.containername
  stored : ∀ address, ∀ shard ∈ job.shards,
    job.Stored storage address shard → job.Stored storage' address shard
  outputs : ∀ jobid, job.OutStored storage jobid → job.OutStored storage' jobid

/-- Nothing is lost where nothing is written. -/
theorem Keeps.refl (storage : Str → Str → Option Str) : job.Keeps storage storage :=
  ⟨rfl, fun _ _ _ h => h, fun _ h => h⟩

end Job

/-! ## What a map task writes -/

namespace Job

variable (job : Job)

/-- The request for the first `n` pieces of a shard. -/
def request (shard : FileShard) (n : Nat) : MapperInput :=
  { invokeMapTask shard job.nreducers with
    stuples := (invokeMapTask shard job.nreducers).stuples.take n }

/-- A request has the pieces of its shard. -/
theorem request_length (shard : FileShard) :
    (invokeMapTask shard job.nreducers).stuples.length = shard.sets.length := by
  simp [invokeMapTask]

/-- The request of the leader is the one for all pieces. -/
theorem request_all (shard : FileShard) :
    job.request shard shard.sets.length = invokeMapTask shard job.nreducers := by
  simp [request, invokeMapTask]

/-- A piece of a request, as a worker without an exception maps it. -/
theorem request_contents {shard : FileShard} (hshard : shard ∈ job.shards) {n : Nat}
    {readable : Nat → Bool} (hread : ∀ i < shard.sets.length, readable i = true) {i : Nat}
    {stuple : ShardTuple} (hi : (job.request shard n).stuples[i]? = some stuple) :
    mapPiece (job.mapEnv job.input readable) job.nreducers false i stuple =
      some (job.shardContents shard i, false) := by
  simp only [request, invokeMapTask, List.getElem?_take, List.getElem?_map] at hi
  obtain ⟨-, hi⟩ := Option.ite_none_right_eq_some.mp hi
  obtain ⟨d, hd, rfl⟩ := Option.map_eq_some_iff.mp hi
  obtain ⟨hlt, -⟩ := List.getElem?_eq_some_iff.mp hd
  have hmem := List.mem_of_getElem? hd
  rw [job.map_piece_eq job.reducers.1 job.input (hread i hlt) (job.wire hshard hmem)
    (job.counts shard hshard d hmem), shardContents, hd]
  rfl

/-- A map task of the job, for the first `n` pieces of a shard: it is answered OK and puts the
blobs of these pieces into the container of the worker, and it leaves no exception. -/
theorem do_work_request {shard : FileShard} (hshard : shard ∈ job.shards) {n : Nat}
    (hn : n ≤ shard.sets.length) {readable : Nat → Bool}
    (hread : ∀ i < shard.sets.length, readable i = true) {w : Worker} (hw : w.errorSet = false) :
    ∃ containername blobs w',
      doWork (job.mapEnv job.input readable) (job.request shard n) w =
        some (.ok containername blobs, w') ∧
      blobs = (requestBlobs w.fullAddress job.nreducers shard.shardId (job.shardContents shard) 0
        n).map Prod.fst ∧
      w'.wrkrcontainer = putAll w.wrkrcontainer (requestBlobs w.fullAddress job.nreducers
        shard.shardId (job.shardContents shard) 0 n) ∧
      w'.errorSet = false := by
  have hlength : (job.request shard n).stuples.length = n := by
    simp [request, invokeMapTask, hn]
  have hpieces : ∀ i stuple, (job.request shard n).stuples[i]? = some stuple →
      mapPiece (job.mapEnv job.input readable) job.nreducers false (0 + i) stuple =
        some (job.shardContents shard (0 + i), false) := by
    intro i stuple hi
    rw [Nat.zero_add]
    exact job.request_contents hshard hread hi
  obtain ⟨t, hrun, hadded, herror⟩ := do_work_loop_spec (job.mapEnv job.input readable)
    shard.shardId (job.shardContents shard) (fun _ => false) hpieces (s := ⟨w, [], []⟩) hw
  rw [hlength] at hadded
  refine ⟨t.rescontainer, t.blobList, t.worker, ?_, ?_, hadded.container, herror⟩
  · exact Option.bind_eq_some_iff.mpr ⟨t, hrun, rfl⟩
  · rw [hadded.blobList, List.nil_append]

/-- Writing blobs of some pieces of a shard keeps what is stored. -/
theorem keeps_of_put_blobs (storage : Str → Str → Option Str) (address : Str)
    {shard : FileShard} (hshard : shard ∈ job.shards) (n : Nat) :
    job.Keeps storage (Function.update storage job.intcontainer
      (putAll (storage job.intcontainer) (requestBlobs address job.nreducers shard.shardId
        (job.shardContents shard) 0 n))) := by
  obtain ⟨hint, -, hout⟩ := container_names job.containername
  refine ⟨Function.update_of_ne hint.symm .., fun address' shard' hshard' hstored e he => ?_,
    fun jobid houtput => ?_⟩
  · rw [Function.update_self]
    refine put_all_keeps (fun e' he' hname => ?_) (hstored e he)
    -- two blobs of one name are of the same shard, piece and reducer
    obtain ⟨i, hi, j, hj, rfl⟩ := job.mem_request_blobs.mp he
    obtain ⟨i', hi', j', hj', rfl⟩ := job.mem_request_blobs.mp he'
    obtain ⟨-, hsid, hpiece, hreducer⟩ := intermediate_blob_name_inj hname
    obtain rfl := job.shard_eq hshard hshard' hsid
    obtain rfl := Int.ofNat.inj hpiece
    obtain rfl := Int.ofNat.inj hreducer
    rfl
  · unfold OutStored at houtput ⊢
    rw [Function.update_of_ne (show job.outcontainer ≠ job.intcontainer from hout.symm)]
    exact houtput

/-- After the blobs of all pieces are written, the shard is stored. -/
theorem stored_of_put_blobs (storage : Str → Str → Option Str) (address : Str)
    (shard : FileShard) :
    job.Stored (Function.update storage job.intcontainer
      (putAll (storage job.intcontainer) (job.shardBlobs address shard))) address shard := by
  intro e he
  rw [Function.update_self]
  exact put_all_of_mem (request_blobs_nodup ..) he

/-! ## What a reduce task reads and writes -/

/-- The blobs of a stored shard for one reducer, in the order of its pieces. -/
theorem Stored.read {storage : Str → Str → Option Str} {address : Str} {shard : FileShard}
    (h : job.Stored storage address shard) {j : Nat} (hj : j < job.nreducers.toNat)
    {readable : Str → Bool} (hread : ∀ i < shard.sets.length,
      readable (intermediateBlobName address shard.shardId (i : Nat) j) = true) :
    (List.range shard.sets.length).flatMap (fun (i : Nat) =>
      (if readable (intermediateBlobName address shard.shardId i j) then
        storage job.intcontainer (intermediateBlobName address shard.shardId i j) else none).getD
          []) = shard.sets.flatMap fun d => job.pieceFile d j := by
  rw [List.flatMap_def, List.flatMap_def]
  congr 1
  refine List.ext_getElem (by simp) fun i hi _ => ?_
  rw [List.length_map, List.length_range] at hi
  have hstored := h _ (job.mem_request_blobs.mpr ⟨i, hi, j, hj, rfl⟩)
  rw [job.shard_contents_get (List.getElem?_eq_getElem hi) hj] at hstored
  rw [List.getElem_map, List.getElem_map, List.getElem_range, if_pos (hread i hi), hstored,
    Option.getD_some]

/-- Writing the output of a reducer keeps what is stored. -/
theorem keeps_of_put_output (storage : Str → Str → Option Str) (jobid : Int) :
    job.Keeps storage (Function.update storage job.outcontainer
      (put (storage job.outcontainer) (outFileName jobid) (job.output jobid.toNat))) := by
  obtain ⟨-, hout, hne⟩ := container_names job.containername
  refine ⟨Function.update_of_ne hout.symm .., fun address shard _ hstored e he => ?_,
    fun jobid' houtput => ?_⟩
  · rw [Function.update_of_ne (show job.intcontainer ≠ job.outcontainer from hne)]
    exact hstored e he
  · unfold OutStored at houtput ⊢
    rw [Function.update_self, put]
    by_cases hname : outFileName jobid' = outFileName jobid
    · rw [hname, Function.update_self,
        Decimal.of_int_injective (List.append_cancel_left hname)]
    · rw [Function.update_of_ne hname]
      exact houtput

end Job

end MapReduce
