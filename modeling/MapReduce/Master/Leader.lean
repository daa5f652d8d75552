import MapReduce.Master.MapLoop
import MapReduce.Master.ReduceDispatch
import MapReduce.Master.ShardCount

/-!
# A leader and its requests

`Master::run_as_leader` (`w7/src/master/masterimpl.cc`) and `req_handler::process`
(`w7/src/master/requesthandler.h`): a leader finishes the job it took over, if there is one, and
then serves upload requests one after the other. A request sets the parameters of the job, makes the
shards, and runs the map and the reduce phase, whose steps are those of `MapLoop` and
`ReduceDispatch`.

Three members are thread handles. Assigning a thread to a handle that is still joinable ends the
process. Read `terminated_iff` first: the handles `m_t1` and `m_r1` are always free when they are
assigned to, but `repl_clt_thd` is not joined between requests, so the leader survives one request
with a follower present and not a second one.
-/

namespace MapReduce

/-- Where the work of a leader stands: before `hasReplicationData()` is tested, between requests,
after the parameters of a request are set, after `create_sharding_data`, in `dispatchMapTasks`, and
in `dispatchReduceTasks`. -/
inductive JobPhase where
  | booting (m : Master)
  | idle (m : Master)
  | requested (m : Master)
  | sharded (m : Master)
  | mapping (s : MapLoop)
  | reducing (s : ReduceDispatch)

/-- The members of the master in a phase. -/
def JobPhase.master : JobPhase → Master
  | .booting m | .idle m | .requested m | .sharded m => m
  | .mapping s => s.data.toMaster
  | .reducing s => s.toMaster

/-- A leader process. `id` is the static counter of `request_id`, the three handles are `true`
where they are joinable, and `obtained` lists the successful map results of the current job. -/
structure Leader where
  phase : JobPhase
  id : Int
  replCltThd : Bool
  t1 : Bool
  r1 : Bool
  terminated : Bool
  obtained : List MapperResult

/-- The choices of one step. The parameters of a request, the workers it finds, what the storage
service lists, and whether there is another master under `/masters` are up to the environment. A
request may be rejected with an exception, before or after `m_shards` is cleared. -/
inductive LeaderLabel where
  | boot
  | request (clients : List ClientId) (nmappers nreducers : Int) (containername : Str)
  | shard (fuel : Nat) (db : Option (List ListBlobItem)) (follower : Bool)
  | reject (cleared : Bool)
  | map
  | mapStep (l : LoopLabel)
  | reduce
  | reduceStep (l : ReduceLabel)
  | finish

/-- The successful result that a step of the map loop brings, if any. -/
def LoopLabel.obtained : LoopLabel → List MapperResult
  | .complete call outcome => MapDispatch.successes [call.result outcome]
  | _ => []

namespace Leader

/-- The members of the master. -/
def master (s : Leader) : Master := s.phase.master

/-- A leader on entry to `run_as_leader`. -/
def start (m : Master) : Leader where
  phase := .booting m
  id := -1
  replCltThd := false
  t1 := false
  r1 := false
  terminated := false
  obtained := []

/-- `repl_clt_thd = std::thread(...)`. -/
def assignReplCltThd (s : Leader) : Leader :=
  if s.replCltThd then { s with terminated := true } else { s with replCltThd := true }

/-- `m_t1 = std::thread(...)`. -/
def assignT1 (s : Leader) : Leader :=
  if s.t1 then { s with terminated := true } else { s with t1 := true }

/-- `m_r1 = std::thread(...)`. -/
def assignR1 (s : Leader) : Leader :=
  if s.r1 then { s with terminated := true } else { s with r1 := true }

section Assign

variable (s : Leader)

/-- Assigning to a handle changes nothing else. -/
@[simp] theorem assign_repl_clt_thd_phase : s.assignReplCltThd.phase = s.phase := by
  unfold assignReplCltThd
  split <;> rfl

@[simp] theorem assign_repl_clt_thd_obtained : s.assignReplCltThd.obtained = s.obtained := by
  unfold assignReplCltThd
  split <;> rfl

@[simp] theorem assign_t1_phase : s.assignT1.phase = s.phase := by
  unfold assignT1
  split <;> rfl

@[simp] theorem assign_t1_obtained : s.assignT1.obtained = s.obtained := by
  unfold assignT1
  split <;> rfl

@[simp] theorem assign_r1_phase : s.assignR1.phase = s.phase := by
  unfold assignR1
  split <;> rfl

@[simp] theorem assign_r1_obtained : s.assignR1.obtained = s.obtained := by
  unfold assignR1
  split <;> rfl

end Assign

/-- One step of a process that has not ended. -/
def next (s : Leader) : LeaderLabel → Option Leader
  | .boot =>
      match s.phase with
      | .booting m =>
          some (if m.bReplicated then
            assignT1 { s with phase := .mapping (.enter (processReplicatedData m)) }
          else { s with phase := .idle m })
      | _ => none
  | .request clients nmappers nreducers containername =>
      match s.phase with
      | .idle m =>
          some { s with
            phase := .requested { m with
              clients := clients
              rid := s.id + 1
              nreducers := nreducers
              nmappers := nmappers
              containername := containername }
            id := s.id + 1
            obtained := [] }
      | _ => none
  | .shard fuel db follower =>
      match s.phase with
      | .requested m => do
          let m ← createShardingData fuel db m
          let s := { s with phase := .sharded m }
          -- without a connection the function returns before it looks for a follower
          some (if db.isSome && follower then s.assignReplCltThd else s)
      | _ => none
  | .reject cleared =>
      match s.phase with
      | .requested m => some { s with
          phase := .idle { m with shards := if cleared then [] else m.shards } }
      | .sharded m => some { s with phase := .idle m }
      | _ => none
  | .map =>
      match s.phase with
      | .sharded m => some (assignT1 { s with phase := .mapping (.enter (runMapper m)) })
      | _ => none
  | .mapStep l =>
      match s.phase with
      | .mapping d => (d.step l).map fun d =>
          { s with phase := .mapping d, obtained := s.obtained ++ l.obtained }
      | _ => none
  | .reduce =>
      match s.phase with
      | .mapping d =>
          if d.pc = .exited then
            some (assignR1 { s with phase := .reducing (runReducer d.data.toMaster) })
          else none
      | _ => none
  | .reduceStep l =>
      match s.phase with
      | .reducing d => (d.step l).map fun d => { s with phase := .reducing d }
      | _ => none
  | .finish =>
      match s.phase with
      | .reducing d =>
          if d.pc = .exited then
            -- `m_t1.join()` and `m_r1.join()`
            some { s with phase := .idle d.toMaster, t1 := false, r1 := false }
          else none
      | _ => none

/-- One step of a leader process. -/
def step (s : Leader) (l : LeaderLabel) : Option Leader :=
  if s.terminated then none else s.next l

/-! ## What a step does -/

/-- The effect of one step, one case for each branch of the source. -/
inductive Effect (s : Leader) : LeaderLabel → Leader → Prop where
  | takeOver (m : Master) :
      s.phase = .booting m →
      Effect s .boot (assignT1 { s with phase := .mapping (.enter (processReplicatedData m)) })
  | serve (m : Master) :
      s.phase = .booting m → Effect s .boot { s with phase := .idle m }
  | request (m : Master) (clients : List ClientId) (nmappers nreducers : Int)
      (containername : Str) :
      s.phase = .idle m →
      Effect s (.request clients nmappers nreducers containername) { s with
        phase := .requested { m with
          clients := clients
          rid := s.id + 1
          nreducers := nreducers
          nmappers := nmappers
          containername := containername }
        id := s.id + 1
        obtained := [] }
  | shardAlone (m m' : Master) (fuel : Nat) (db : Option (List ListBlobItem)) (follower : Bool) :
      s.phase = .requested m → createShardingData fuel db m = some m' →
      (db.isSome && follower) = false →
      Effect s (.shard fuel db follower) { s with phase := .sharded m' }
  | shardReplicated (m m' : Master) (fuel : Nat) (db : Option (List ListBlobItem))
      (follower : Bool) :
      s.phase = .requested m → createShardingData fuel db m = some m' →
      (db.isSome && follower) = true →
      Effect s (.shard fuel db follower) (assignReplCltThd { s with phase := .sharded m' })
  | rejectRequest (m : Master) (cleared : Bool) :
      s.phase = .requested m →
      Effect s (.reject cleared) { s with
        phase := .idle { m with shards := if cleared then [] else m.shards } }
  | rejectShards (m : Master) (cleared : Bool) :
      s.phase = .sharded m → Effect s (.reject cleared) { s with phase := .idle m }
  | map (m : Master) :
      s.phase = .sharded m →
      Effect s .map (assignT1 { s with phase := .mapping (.enter (runMapper m)) })
  | mapStep (d d' : MapLoop) (l : LoopLabel) :
      s.phase = .mapping d → d.step l = some d' →
      Effect s (.mapStep l) { s with phase := .mapping d', obtained := s.obtained ++ l.obtained }
  | reduce (d : MapLoop) :
      s.phase = .mapping d →
      Effect s .reduce (assignR1 { s with phase := .reducing (runReducer d.data.toMaster) })
  | reduceStep (d d' : ReduceDispatch) (l : ReduceLabel) :
      s.phase = .reducing d → d.step l = some d' →
      Effect s (.reduceStep l) { s with phase := .reducing d' }
  | finish (d : ReduceDispatch) :
      s.phase = .reducing d →
      Effect s .finish { s with phase := .idle d.toMaster, t1 := false, r1 := false }

/-- Every step is taken by a process that has not ended, and has one of the effects. -/
theorem step_effect {s t : Leader} {l : LeaderLabel} (h : s.step l = some t) :
    s.terminated = false ∧ s.Effect l t := by
  simp only [step, Option.ite_none_left_eq_some, Bool.not_eq_true] at h
  obtain ⟨halive, h⟩ := h
  refine ⟨halive, ?_⟩
  cases l with
  | boot =>
      simp only [next] at h
      split at h
      · next m hphase =>
        cases h
        split
        · exact .takeOver m hphase
        · exact .serve m hphase
      · cases h
  | request clients nmappers nreducers containername =>
      simp only [next] at h
      split at h
      · next m hphase =>
        cases h
        exact .request m clients nmappers nreducers containername hphase
      · cases h
  | shard fuel db follower =>
      simp only [next] at h
      split at h
      · next m hphase =>
        obtain ⟨m', hshards, h⟩ := Option.bind_eq_some_iff.mp h
        cases h
        split
        · next hfollower =>
          exact .shardReplicated m m' fuel db follower hphase hshards hfollower
        · next hfollower =>
          exact .shardAlone m m' fuel db follower hphase hshards (Bool.eq_false_iff.mpr hfollower)
      · cases h
  | reject cleared =>
      simp only [next] at h
      split at h
      · next m hphase =>
        cases h
        exact .rejectRequest m cleared hphase
      · next m hphase =>
        cases h
        exact .rejectShards m cleared hphase
      · cases h
  | map =>
      simp only [next] at h
      split at h
      · next m hphase =>
        cases h
        exact .map m hphase
      · cases h
  | mapStep l =>
      simp only [next] at h
      split at h
      · next d hphase =>
        obtain ⟨d', hd, rfl⟩ := Option.map_eq_some_iff.mp h
        exact .mapStep d d' l hphase hd
      · cases h
  | reduce =>
      simp only [next] at h
      split at h
      · next d hphase =>
        obtain ⟨-, h⟩ := Option.ite_none_right_eq_some.mp h
        cases h
        exact .reduce d hphase
      · cases h
  | reduceStep l =>
      simp only [next] at h
      split at h
      · next d hphase =>
        obtain ⟨d', hd, rfl⟩ := Option.map_eq_some_iff.mp h
        exact .reduceStep d d' l hphase hd
      · cases h
  | finish =>
      simp only [next] at h
      split at h
      · next d hphase =>
        obtain ⟨-, h⟩ := Option.ite_none_right_eq_some.mp h
        cases h
        exact .finish d hphase
      · cases h

/-! ## The thread handles -/

/-- The label starts a replication client: `create_sharding_data` of a connected leader finds a
second master. -/
def startsReplClient : LeaderLabel → Bool
  | .shard _ db follower => db.isSome && follower
  | _ => false

/-- The handles `m_t1` and `m_r1` in a phase: `m_t1` is joinable from `dispatchMapTasks` on and
`m_r1` from `dispatchReduceTasks` on, until `runReducer` joins both. -/
def phaseHandles : JobPhase → Bool × Bool
  | .mapping _ => (true, false)
  | .reducing _ => (true, true)
  | _ => (false, false)

/-- What a run leaves of the handles: the phase says which of `m_t1` and `m_r1` are joinable,
`repl_clt_thd` is joinable once a replication client was started, and the process ends with the
second one. -/
structure Handles (ls : List LeaderLabel) (s : Leader) : Prop where
  threads : s.terminated = false → (s.t1, s.r1) = phaseHandles s.phase
  alive : s.terminated = false →
    ls.countP startsReplClient = if s.replCltThd then 1 else 0
  ended : s.terminated = true → 2 ≤ ls.countP startsReplClient

/-- A step that assigns to no handle and starts no client. -/
theorem Handles.keep {ls : List LeaderLabel} {s t : Leader} {l : LeaderLabel}
    (hs : Handles ls s) (halive : s.terminated = false) (hl : startsReplClient l = false)
    (hthreads : (t.t1, t.r1) = phaseHandles t.phase) (hrepl : t.replCltThd = s.replCltThd)
    (ht : t.terminated = false) : Handles (ls ++ [l]) t := by
  refine ⟨fun _ => hthreads, fun _ => ?_, fun hended => ?_⟩
  · rw [List.countP_append, hs.alive halive, hrepl]
    simp [hl]
  · rw [ht] at hended
    cases hended

/-- A step keeps the account of the handles. -/
theorem Handles.step {ls : List LeaderLabel} {s t : Leader} {l : LeaderLabel}
    (hs : Handles ls s) (h : s.step l = some t) : Handles (ls ++ [l]) t := by
  obtain ⟨halive, heffect⟩ := step_effect h
  have hthreads := hs.threads halive
  cases heffect with
  | takeOver m hphase | map m hphase =>
      obtain ⟨ht1, hr1⟩ := Prod.mk.inj (hphase ▸ hthreads)
      exact hs.keep halive rfl (by simp [assignT1, ht1, hr1, phaseHandles])
        (by simp [assignT1, ht1]) (by simpa [assignT1, ht1] using halive)
  | reduce d hphase =>
      obtain ⟨ht1, hr1⟩ := Prod.mk.inj (hphase ▸ hthreads)
      exact hs.keep halive rfl (by simp [assignR1, ht1, hr1, phaseHandles])
        (by simp [assignR1, hr1]) (by simpa [assignR1, hr1] using halive)
  | serve m hphase | request m _ _ _ _ hphase | rejectRequest m _ hphase
  | rejectShards m _ hphase | mapStep d d' _ hphase | reduceStep d d' _ hphase =>
      rw [hphase] at hthreads
      exact hs.keep halive rfl hthreads rfl halive
  | shardAlone m m' fuel db follower hphase _ hfollower =>
      rw [hphase] at hthreads
      exact hs.keep halive hfollower hthreads rfl halive
  | finish d hphase => exact hs.keep halive rfl rfl rfl halive
  | shardReplicated m m' fuel db follower hphase _ hfollower =>
      have hcount : (ls ++ [LeaderLabel.shard fuel db follower]).countP startsReplClient =
          (if s.replCltThd then 1 else 0) + 1 := by
        rw [List.countP_append, hs.alive halive]
        simp [startsReplClient, hfollower]
      rw [hphase] at hthreads
      cases hrepl : s.replCltThd with
      | false =>
          refine ⟨fun _ => ?_, fun _ => ?_, fun hended => ?_⟩
          · simpa [assignReplCltThd, hrepl, phaseHandles] using hthreads
          · simp [assignReplCltThd, hrepl, hcount]
          · simp [assignReplCltThd, halive] at hended
      | true =>
          refine ⟨fun hended => ?_, fun hended => ?_, fun _ => ?_⟩
          · simp [assignReplCltThd] at hended
          · simp [assignReplCltThd] at hended
          · simp [hcount, hrepl]

/-- The leader survives exactly the runs in which at most one `create_sharding_data` finds a second
master. No assignment to `m_t1` or `m_r1` ever ends the process, and the second assignment to
`repl_clt_thd` does. -/
theorem terminated_iff (m : Master) (ls : List LeaderLabel) (s : Leader)
    (hrun : Machine.run step (start m) ls = some s) :
    s.terminated = false ↔ ls.countP startsReplClient ≤ 1 := by
  have hstart : Handles [] (start m) :=
    ⟨fun _ => rfl, fun _ => rfl, fun hended => by cases hended⟩
  have hhandles : Handles ls s :=
    Machine.run_induction hstart (fun _ _ _ _ _ hm hstep => hm.step hstep) hrun
  constructor
  · intro halive
    rw [hhandles.alive halive]
    split <;> omega
  · intro hcount
    by_contra hended
    have htwice := hhandles.ended (Bool.not_eq_false _ ▸ hended)
    omega

/-- A whole request: one blob of three bytes, one mapper and one reducer, and no call fails. -/
def oneJob (follower : Bool) : List LeaderLabel :=
  [.request [0] 1 1 ['c'], .shard 4 (some [.blob ['a'] 3]) follower, .map,
    .mapStep (.dispatch 0), .mapStep .allDispatched,
    .mapStep (.complete ⟨0, 0⟩ (.ok ['i'] [['b', '_', '0']])), .mapStep .received,
    .mapStep .handle, .mapStep .test, .reduce,
    .reduceStep (.dispatch 0), .reduceStep .allDispatched,
    .reduceStep (.complete ⟨0, 0, [['b', '_', '0']], ['i']⟩ (.ok ['o'] ['r'])),
    .reduceStep .received, .reduceStep .collect, .reduceStep .test, .finish]

/-- A leader serves two requests, the second with a follower present. -/
theorem terminated_iff_two_jobs :
    ∃ s, Machine.run step (start Master.init) (.boot :: oneJob false ++ oneJob true) = some s ∧
      s.terminated = false := by
  have hrun : Machine.run step (start Master.init) (.boot :: oneJob false ++ oneJob true) =
      some _ := rfl
  exact ⟨_, hrun, (terminated_iff _ _ _ hrun).mpr (by decide)⟩

/-- A follower is present in two requests. The second one assigns to `repl_clt_thd` while it is
joinable, and the process ends. -/
theorem second_repl_client_ends :
    ∃ s, Machine.run step (start Master.init) (.boot :: oneJob true ++ (oneJob true).take 2) =
        some s ∧
      s.terminated = true :=
  ⟨_, rfl, rfl⟩

end Leader

end MapReduce
