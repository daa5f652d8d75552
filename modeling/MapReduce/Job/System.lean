import MapReduce.Job.Spec
import MapReduce.Master.Failover

/-!
# The system that runs a job

The leader, the workers, the storage service and the followers while one job runs. The leader takes
the steps of `MapLoop` and then of `ReduceDispatch`; the requests it sends stay in the network,
where a worker may serve them late, again or never; a call completes with a reply that a worker
gave, or with an error at any time. The replication client pushes checkpoints, and when the leader
is gone a follower that received some of them takes over.

A step carries every choice of the environment, so a run is a list of labels. Read `step` first.
`Undisturbed` says which steps keep a job intact: no worker serves a task on a connection to another
container, and the storage answers every download.
-/

namespace MapReduce

/-! ## The state -/

/-- Where the job of a leader stands. -/
inductive LeaderPhase where
  | mapping (d : MapLoop)
  | reducing (d : ReduceDispatch)

/-- The members of the leader. -/
def LeaderPhase.master : LeaderPhase → Master
  | .mapping d => d.data.toMaster
  | .reducing d => d.toMaster

/-- A running job. `replicates` says whether the leader has a replication client; `connection` is
the container of the `m_dbConnection` of the worker at an address, `files` are its local files, and
`errorSet` says whether an exception is set in its interpreter; `storage` are the blobs of each
container. The lists hold what was sent. -/
structure JobSystem where
  phase : LeaderPhase
  replicates : Bool
  connection : Str → Option Str
  files : Str → Str → Option Str
  errorSet : Str → Bool
  storage : Str → Str → Option Str
  mapRpcs : List (ClientId × MapperInput)
  mapReplies : List (MapCall × Str × List Str)
  reduceRpcs : List ReduceCall
  reduceReplies : List (ReduceCall × Str × Str)
  checkpoints : List CheckPointData

/-- The steps. The leader steps; a worker serves a map task, ends after some of its pieces, serves a
reduce task, or is told the container of the job; the leader enters the reduce phase; the
replication client pushes a checkpoint; and a follower takes over with the workers it finds. -/
inductive SystemLabel where
  | mapStep (l : LoopLabel)
  | serveMap (client : ClientId) (request : MapperInput) (readable : Nat → Bool)
  | abandonMap (client : ClientId) (request : MapperInput) (readable : Nat → Bool) (pieces : Nat)
  | reduce
  | reduceStep (l : ReduceLabel)
  | serveReduce (call : ReduceCall) (readable : Str → Bool)
  | exchange (client : ClientId)
  | push
  | takeOver (follower : Master) (received : List CheckPointData) (clients : List ClientId)

/-! ## The requests of the leader -/

/-- The request that a step of the map loop sends, if it dispatches a task. -/
def MapLoop.sends (d : MapLoop) : LoopLabel → List (ClientId × MapperInput)
  | .dispatch client =>
      match d.data.jobQ with
      | [] => []
      | i :: _ => ((vectorAt d.data.shards i).map fun shard =>
          (client, invokeMapTask shard d.data.nreducers)).toList
  | _ => []

/-- The call that a step of the reduce loop makes, if it dispatches a task. -/
def ReduceDispatch.sends (d : ReduceDispatch) : ReduceLabel → List ReduceCall
  | .dispatch client =>
      match d.jobQ with
      | [] => []
      | jobid :: _ => ((reduceBlobVec jobid d.intblobList).map fun blobs =>
          ⟨jobid, client, blobs, d.intcontainer⟩).toList
  | _ => []

namespace JobSystem

/-- `findMinReqHealthyClient` returns a client of the leader, and a call only succeeds with a reply
to it. -/
def mapAllowed (s : JobSystem) (d : MapLoop) : LoopLabel → Bool
  | .dispatch client => client ∈ d.data.clients
  | .complete call (.ok containername blobs) => (call, containername, blobs) ∈ s.mapReplies
  | _ => true

/-- The same for the reduce loop. -/
def reduceAllowed (s : JobSystem) (d : ReduceDispatch) : ReduceLabel → Bool
  | .dispatch client => client ∈ d.clients
  | .complete call (.ok containername blobname) =>
      (call, containername, blobname) ∈ s.reduceReplies
  | _ => true

/-! ## The workers -/

/-- The container of the intermediate blobs, `m_wrkrcontainername`. -/
def intContainerName (mstrcontainername : Str) : Str := mstrcontainername ++ ['i', 'n', 't']

variable (workers : Workers)

/-- The worker that a client leads to runs a map task. Without a connection it crashes. -/
def runMapTask (client : ClientId) (request : MapperInput) (readable : Nat → Bool)
    (s : JobSystem) : Option (MapOutcome × JobSystem) := do
  let address := workers.target client
  let container ← s.connection address
  let (outcome, w) ← doWork (workers.mapEnv (s.storage container) readable) request
    ⟨address, intContainerName container, s.files address,
      s.storage (intContainerName container), s.errorSet address⟩
  some (outcome, { s with
    files := Function.update s.files address w.files
    errorSet := Function.update s.errorSet address w.errorSet
    storage := Function.update s.storage (intContainerName container) w.wrkrcontainer })

/-- The worker that the client of a call leads to runs its reduce task. -/
def runReduceTask (call : ReduceCall) (readable : Str → Bool) (s : JobSystem) :
    Option (ReduceOutcome × JobSystem) := do
  let address := workers.target call.client
  let container ← s.connection address
  let download := fun inContainer blob =>
    if readable blob then s.storage inContainer blob else none
  let (outcome, w) ← reduceDoWork workers.unicodePrintable download (invokeReduceTask call)
    ⟨address, container, s.files address, s.storage (outContainerName container),
      s.errorSet address⟩
  some (outcome, { s with
    files := Function.update s.files address w.files
    errorSet := Function.update s.errorSet address w.errorSet
    storage := Function.update s.storage (outContainerName container) w.outcontainer })

/-- The reply to a map task. -/
def replyMap (client : ClientId) (request : MapperInput) : MapOutcome × JobSystem → JobSystem
  | (.ok containername blobs, s) =>
      { s with mapReplies := s.mapReplies ++ [(⟨request.shardId, client⟩, containername, blobs)] }
  | (.error _, s) => s

/-- The reply to a reduce task. -/
def replyReduce (call : ReduceCall) : ReduceOutcome × JobSystem → JobSystem
  | (.ok containername blobname, s) =>
      { s with reduceReplies := s.reduceReplies ++ [(call, containername, blobname)] }
  | (.error _, s) => s

/-! ## The steps -/

/-- A follower that has applied the checkpoints it received, with the workers it finds. -/
def followerMaster (follower : Master) (received : List CheckPointData)
    (clients : List ClientId) : Master :=
  { received.foldl (fun m reply => deserializeData reply m) follower with clients := clients }

/-- One step. -/
def step (s : JobSystem) : SystemLabel → Option JobSystem
  | .mapStep l =>
      match s.phase with
      | .mapping d =>
          if s.mapAllowed d l then
            (d.step l).map fun d' => { s with
              phase := .mapping d'
              mapRpcs := s.mapRpcs ++ d.sends l }
          else none
      | .reducing _ => none
  | .serveMap client request readable =>
      if (client, request) ∈ s.mapRpcs then
        (s.runMapTask workers client request readable).map (replyMap client request)
      else none
  | .abandonMap client request readable pieces =>
      -- the worker ends before it replies
      if (client, request) ∈ s.mapRpcs then
        (s.runMapTask workers client { request with stuples := request.stuples.take pieces }
          readable).map Prod.snd
      else none
  | .reduce =>
      match s.phase with
      | .mapping d =>
          if d.pc = .exited then
            some { s with phase := .reducing (runReducer d.data.toMaster) }
          else none
      | .reducing _ => none
  | .reduceStep l =>
      match s.phase with
      | .mapping _ => none
      | .reducing d =>
          if s.reduceAllowed d l then
            (d.step l).map fun d' => { s with
              phase := .reducing d'
              reduceRpcs := s.reduceRpcs ++ d.sends l }
          else none
  | .serveReduce call readable =>
      if call ∈ s.reduceRpcs then
        (s.runReduceTask workers call readable).map (replyReduce call)
      else none
  | .exchange client =>
      some { s with
        connection := Function.update s.connection (workers.target client)
          (some s.phase.master.containername) }
  | .push =>
      if s.replicates then
        some { s with checkpoints := s.checkpoints ++ [serializeData s.phase.master] }
      else none
  | .takeOver follower received clients =>
      if received ≠ [] ∧ ∀ reply ∈ received, reply ∈ s.checkpoints then
        some { s with
          phase := .mapping (.enter (processReplicatedData
            (followerMaster follower received clients)))
          replicates := false }
      else none

/-! ## What a step does -/

/-- The effect of one step, one case for each kind of step. -/
inductive Effect (s : JobSystem) : SystemLabel → JobSystem → Prop where
  | mapStep (d d' : MapLoop) (l : LoopLabel) :
      s.phase = .mapping d → s.mapAllowed d l = true → d.step l = some d' →
      Effect s (.mapStep l) { s with phase := .mapping d', mapRpcs := s.mapRpcs ++ d.sends l }
  | serveMap (client : ClientId) (request : MapperInput) (readable : Nat → Bool)
      (reply : MapOutcome × JobSystem) :
      (client, request) ∈ s.mapRpcs → s.runMapTask workers client request readable = some reply →
      Effect s (.serveMap client request readable) (replyMap client request reply)
  | abandonMap (client : ClientId) (request : MapperInput) (readable : Nat → Bool) (pieces : Nat)
      (reply : MapOutcome × JobSystem) :
      (client, request) ∈ s.mapRpcs →
      s.runMapTask workers client { request with stuples := request.stuples.take pieces }
        readable = some reply →
      Effect s (.abandonMap client request readable pieces) reply.2
  | reduce (d : MapLoop) :
      s.phase = .mapping d → d.pc = .exited →
      Effect s .reduce { s with phase := .reducing (runReducer d.data.toMaster) }
  | reduceStep (d d' : ReduceDispatch) (l : ReduceLabel) :
      s.phase = .reducing d → s.reduceAllowed d l = true → d.step l = some d' →
      Effect s (.reduceStep l)
        { s with phase := .reducing d', reduceRpcs := s.reduceRpcs ++ d.sends l }
  | serveReduce (call : ReduceCall) (readable : Str → Bool) (reply : ReduceOutcome × JobSystem) :
      call ∈ s.reduceRpcs → s.runReduceTask workers call readable = some reply →
      Effect s (.serveReduce call readable) (replyReduce call reply)
  | exchange (client : ClientId) :
      Effect s (.exchange client) { s with
        connection := Function.update s.connection (workers.target client)
          (some s.phase.master.containername) }
  | push : s.replicates = true →
      Effect s .push { s with checkpoints := s.checkpoints ++ [serializeData s.phase.master] }
  | takeOver (follower : Master) (received : List CheckPointData) (clients : List ClientId) :
      received ≠ [] → (∀ reply ∈ received, reply ∈ s.checkpoints) →
      Effect s (.takeOver follower received clients) { s with
        phase := .mapping (.enter (processReplicatedData
          (followerMaster follower received clients)))
        replicates := false }

/-- Every step has one of the effects. -/
theorem step_effect {s t : JobSystem} {l : SystemLabel} (h : s.step workers l = some t) :
    s.Effect workers l t := by
  cases l with
  | mapStep l =>
      simp only [step] at h
      split at h
      · next d hphase =>
        obtain ⟨hallowed, h⟩ := Option.ite_none_right_eq_some.mp h
        obtain ⟨d', hd, rfl⟩ := Option.map_eq_some_iff.mp h
        exact .mapStep d d' l hphase hallowed hd
      · cases h
  | serveMap client request readable =>
      obtain ⟨hsent, h⟩ := Option.ite_none_right_eq_some.mp h
      obtain ⟨reply, hreply, rfl⟩ := Option.map_eq_some_iff.mp h
      exact .serveMap client request readable reply hsent hreply
  | abandonMap client request readable pieces =>
      obtain ⟨hsent, h⟩ := Option.ite_none_right_eq_some.mp h
      obtain ⟨reply, hreply, rfl⟩ := Option.map_eq_some_iff.mp h
      exact .abandonMap client request readable pieces reply hsent hreply
  | reduce =>
      simp only [step] at h
      split at h
      · next d hphase =>
        obtain ⟨hpc, h⟩ := Option.ite_none_right_eq_some.mp h
        cases h
        exact .reduce d hphase hpc
      · cases h
  | reduceStep l =>
      simp only [step] at h
      split at h
      · cases h
      · next d hphase =>
        obtain ⟨hallowed, h⟩ := Option.ite_none_right_eq_some.mp h
        obtain ⟨d', hd, rfl⟩ := Option.map_eq_some_iff.mp h
        exact .reduceStep d d' l hphase hallowed hd
  | serveReduce call readable =>
      obtain ⟨hsent, h⟩ := Option.ite_none_right_eq_some.mp h
      obtain ⟨reply, hreply, rfl⟩ := Option.map_eq_some_iff.mp h
      exact .serveReduce call readable reply hsent hreply
  | exchange client =>
      cases h
      exact .exchange client
  | push =>
      obtain ⟨hreplicates, h⟩ := Option.ite_none_right_eq_some.mp h
      cases h
      exact .push hreplicates
  | takeOver follower received clients =>
      obtain ⟨⟨hne, hall⟩, h⟩ := Option.ite_none_right_eq_some.mp h
      cases h
      exact .takeOver follower received clients hne hall

/-! ## The runs of a job -/

/-- The job as its leader starts to map it: the members are those of the request, the input is in
the container, no request of an earlier job is still in the network, and no exception is set in the
interpreter of a worker. With a replication client, the job is the first of its leader. -/
structure Starts (job : Job) (s : JobSystem) : Prop where
  phase : ∃ m : Master, s.phase = .mapping (.enter (runMapper m)) ∧
    m.containername = job.containername ∧ m.nmappers = job.nmappers ∧
    m.nreducers = job.nreducers ∧ m.shards = job.shards ∧
    (s.replicates = true → m.replList = [])
  input : s.storage job.containername = job.input
  errorSet : ∀ address, s.errorSet address = false
  mapRpcs : s.mapRpcs = []
  mapReplies : s.mapReplies = []
  reduceRpcs : s.reduceRpcs = []
  reduceReplies : s.reduceReplies = []
  checkpoints : s.checkpoints = []

/-- A worker that serves a task of the job is connected to its container, and the storage answers
its downloads. -/
def Undisturbed (job : Job) (s : JobSystem) : SystemLabel → Prop
  | .serveMap client request readable | .abandonMap client request readable _ =>
      s.connection (job.target client) = some job.containername ∧
        ∀ i < request.stuples.length, readable i = true
  | .serveReduce call readable =>
      s.connection (job.target call.client) = some job.containername ∧
        ∀ blob ∈ call.blobs, readable blob = true
  | _ => True

end JobSystem

end MapReduce
