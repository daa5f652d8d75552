import MapReduce.Job.Progress

/-!
# Masters that are told to fail

A master is started with a number `fail_after`: after it has assigned that many tasks, it closes its
session and sleeps for ever (`task_assigned_check_fail` and `enter_fail_state` in
`w7/src/master/masterimpl.cc`). An `ArmedSystem` is a job whose leader has such a switch; a master
that takes over comes with its own.

A job keeps account of its tasks: those that the leader still has to assign and those it has
assigned are the ones it found and the calls that failed (`tasks_left_step`). Read `armed_account`
and `armed_can_end` first.
-/

namespace MapReduce

open Machine (Along run)

/-! ## The switch -/

/-- `m_has_failed`, `m_will_fail` and `m_until_fail`. A master has failed when its count is down. -/
structure FailSwitch where
  hasFailed : Bool
  willFail : Bool
  untilFail : Int
  fails : hasFailed = true ↔ willFail = true ∧ untilFail ≤ 0

namespace FailSwitch

/-- The part of the constructor of `Master` that sets the switch. -/
def make (failAfter : Int) : FailSwitch :=
  if h : failAfter ≤ 0 then ⟨false, false, 0, by simp⟩
  else ⟨false, true, failAfter, by simpa using h⟩

/-- `task_assigned_check_fail`. Of `enter_fail_state` only `m_has_failed` is kept: the thread that
calls it takes no further step. -/
def taskAssignedCheckFail (f : FailSwitch) : FailSwitch :=
  if hwill : f.willFail then
    if hzero : f.untilFail - 1 ≤ 0 then ⟨true, f.willFail, f.untilFail - 1, by simp [hwill, hzero]⟩
    else ⟨f.hasFailed, f.willFail, f.untilFail - 1, by rw [f.fails]; simp [hwill]; omega⟩
  else f

variable (f : FailSwitch)

/-- Whether a master will fail does not change. -/
@[simp] theorem check_will_fail : f.taskAssignedCheckFail.willFail = f.willFail := by
  unfold taskAssignedCheckFail
  split_ifs <;> rfl

/-- A master that will fail counts the task. -/
theorem check_until_fail (h : f.willFail = true) :
    f.taskAssignedCheckFail.untilFail = f.untilFail - 1 := by
  unfold taskAssignedCheckFail
  split_ifs <;> rfl

/-- The count of a master that has not failed is positive. -/
theorem until_fail_pos (h : f.hasFailed = false) (hwill : f.willFail = true) :
    0 < f.untilFail := by
  have hnot := f.fails.not.mp (by simp [h])
  by_contra hdown
  exact hnot ⟨hwill, Int.not_lt.mp hdown⟩

/-- A master that may assign more tasks has not failed. -/
theorem not_failed_of_spare {n : Nat} (h : f.willFail = true → (n : Int) < f.untilFail) :
    f.hasFailed = false := by
  rw [Bool.eq_false_iff]
  intro hfailed
  obtain ⟨hwill, hdown⟩ := f.fails.mp hfailed
  have habove := h hwill
  omega

/-- A new master has not failed. -/
@[simp] theorem make_has_failed (failAfter : Int) : (make failAfter).hasFailed = false := by
  unfold make
  split_ifs <;> rfl

end FailSwitch

/-! ## The system -/

/-- The steps of the thread that assigns the tasks. -/
def SystemLabel.dispatches : SystemLabel → Bool
  | .mapStep (.complete _ _) | .reduceStep (.complete _ _) => false
  | .mapStep _ | .reduce | .reduceStep _ => true
  | _ => false

/-- The steps that assign a task. -/
def SystemLabel.assigns : SystemLabel → Bool
  | .mapStep (.dispatch _) | .reduceStep (.dispatch _) => true
  | _ => false

/-- The calls that fail. -/
def SystemLabel.fails : SystemLabel → Bool
  | .mapStep (.complete _ (.error _)) | .reduceStep (.complete _ (.error _)) => true
  | _ => false

/-- A job whose leader has a switch. -/
structure ArmedSystem extends JobSystem where
  switch : FailSwitch

/-- A step of the system. `failAfter` is the argument of a master that takes over. -/
structure ArmedLabel where
  system : SystemLabel
  failAfter : Int

namespace ArmedSystem

/-- The switch behind a step. -/
def nextSwitch (f : FailSwitch) (l : ArmedLabel) : FailSwitch :=
  match l.system with
  | .takeOver _ _ _ => .make l.failAfter
  | system => if system.assigns then f.taskAssignedCheckFail else f

/-- One step. The dispatcher of a master that has failed sleeps; its calls in flight may still
complete, and its last state may still be pushed. In the reduce loop it sleeps before it takes the
task off `job_q`, which nobody reads again. -/
def step (workers : Workers) (s : ArmedSystem) (l : ArmedLabel) : Option ArmedSystem :=
  if s.switch.hasFailed ∧ l.system.dispatches then none
  else (s.toJobSystem.step workers l.system).map fun t => ⟨t, nextSwitch s.switch l⟩

end ArmedSystem

/-! ## The account of the tasks -/

/-- The tasks that the leader still has to assign: those that are queued, those whose call has
failed and, in the map phase, all reducers. -/
def LeaderPhase.tasksLeft : LeaderPhase → Nat
  | .mapping d => d.data.jobQ.length + MapLoop.fails d.data.responseList + d.data.nreducers.toNat
  | .reducing d => d.jobQ.length + ReduceDispatch.fails d.responseList

/-- A step of the map loop keeps account of the tasks. -/
theorem MapLoop.tasks_left_step {d d' : MapLoop} {l : LoopLabel} (h : d.step l = some d') :
    (LeaderPhase.mapping d').tasksLeft + (SystemLabel.mapStep l).assigns.toNat =
      (LeaderPhase.mapping d).tasksLeft + (SystemLabel.mapStep l).fails.toNat := by
  cases MapLoop.step_effect h with
  | dispatch client data hpc hdata =>
      cases MapDispatch.step_effect hdata with
      | dispatch _ i jobQ shard hq =>
          simp only [LeaderPhase.tasksLeft, SystemLabel.assigns, SystemLabel.fails, hq,
            List.length_cons, Bool.toNat_true, Bool.toNat_false]
          omega
  | complete call outcome data hpc hdata =>
      cases MapDispatch.step_effect hdata with
      | succeed =>
          simp [LeaderPhase.tasksLeft, SystemLabel.assigns, SystemLabel.fails, fails_append]
      | fail _ code =>
          have hfails := MapDispatch.result_error_status call code
          simp only [LeaderPhase.tasksLeft, SystemLabel.assigns, SystemLabel.fails, fails_append,
            if_neg hfails, Bool.toNat_true, Bool.toNat_false]
          omega
  | handle data hpc hdata =>
      cases MapDispatch.step_effect hdata with
      | requeue res rest hlist hstatus =>
          simp only [LeaderPhase.tasksLeft, SystemLabel.assigns, SystemLabel.fails, hlist,
            fails_cons, if_neg hstatus, List.length_append, List.length_singleton]
          omega
      | drop res rest hlist hstatus | record res rest hlist hstatus =>
          simp [LeaderPhase.tasksLeft, SystemLabel.assigns, SystemLabel.fails, hlist, fails_cons,
            hstatus]
  | allDispatched | received | exit | again => rfl

/-- A failed call never yields a success. -/
theorem ReduceDispatch.result_error_status (call : ReduceCall) (code : Nat) :
    (call.result (.error code)).status ≠ .success := by
  simp only [ReduceCall.result, ReduceResult.make]
  split <;> simp

/-- A step of the reduce loop keeps account of the tasks. -/
theorem ReduceDispatch.tasks_left_step {d d' : ReduceDispatch} {l : ReduceLabel}
    (h : d.step l = some d') :
    (LeaderPhase.reducing d').tasksLeft + (SystemLabel.reduceStep l).assigns.toNat =
      (LeaderPhase.reducing d).tasksLeft + (SystemLabel.reduceStep l).fails.toNat := by
  cases step_effect h with
  | dispatch client jobid jobQ blobs hpc hq =>
      simp only [LeaderPhase.tasksLeft, SystemLabel.assigns, SystemLabel.fails, hq,
        List.length_cons, Bool.toNat_true, Bool.toNat_false]
      omega
  | complete call outcome hpc hcall =>
      cases outcome with
      | ok containername blobname =>
          simp [LeaderPhase.tasksLeft, SystemLabel.assigns, SystemLabel.fails, fails_append,
            ReduceCall.result, ReduceResult.make]
      | error code =>
          simp only [LeaderPhase.tasksLeft, SystemLabel.assigns, SystemLabel.fails, fails_append,
            if_neg (result_error_status call code), Bool.toNat_true, Bool.toNat_false]
          omega
  | requeue itr res hpc hres hstatus =>
      simp only [LeaderPhase.tasksLeft, SystemLabel.assigns, SystemLabel.fails,
        fails_erase hres hstatus, List.length_append, List.length_singleton]
      omega
  | allDispatched | received | keep | exit | again => rfl

/-- A leader that leaves the map loop has nothing to assign but the reducers. -/
theorem Job.MappingOk.exited_tasks {job : Job} {storage : Str → Str → Option Str}
    {replicates : Bool} {d : MapLoop} (hd : job.MappingOk storage replicates d)
    (hpc : d.pc = .exited) : d.data.jobQ = [] ∧ d.data.responseList = [] := by
  obtain ⟨s₀, -, -, hreach⟩ := hd.entered
  have hsize := MapLoop.exited_size hreach hpc
  have htasks := hd.tasks_eq
  have hle := job.mappers.2
  rw [hd.members.nmappers] at hsize
  unfold MapDispatch.tasks at htasks
  exact ⟨List.length_eq_zero_iff.mp (by omega), List.length_eq_zero_iff.mp (by omega)⟩

/-- A takeover. -/
def SystemLabel.takesOver : SystemLabel → Bool
  | .takeOver _ _ _ => true
  | _ => false

/-- Every step of one leader keeps account of the tasks. -/
theorem Inv.tasks_left_step {job : Job} {s t : JobSystem} (hs : Inv job s) {l : SystemLabel}
    (hl : l.takesOver = false) (h : s.step job.toWorkers l = some t) :
    t.phase.tasksLeft + l.assigns.toNat = s.phase.tasksLeft + l.fails.toNat := by
  have hphase := hs.phase
  cases JobSystem.step_effect job.toWorkers h with
  | mapStep d d' l hat hallowed hd =>
      rw [hat]
      exact MapLoop.tasks_left_step hd
  | reduceStep d d' l hat hallowed hd =>
      rw [hat]
      exact ReduceDispatch.tasks_left_step hd
  | reduce d hat hpc =>
      rw [hat] at hphase
      obtain ⟨hq, hnone⟩ := hphase.exited_tasks hpc
      rw [hat]
      simp [LeaderPhase.tasksLeft, runReducer, hq, hnone, MapLoop.fails, ReduceDispatch.fails,
        SystemLabel.assigns, SystemLabel.fails]
  | serveMap client request readable reply hsent hrun =>
      obtain ⟨outcome, t⟩ := reply
      obtain ⟨files, errorSet, storage, rfl⟩ := JobSystem.run_map_task_frame hrun
      cases outcome <;> rfl
  | abandonMap client request readable pieces reply hsent hrun =>
      obtain ⟨files, errorSet, storage, hreply⟩ := JobSystem.run_map_task_frame hrun
      rw [hreply]
      rfl
  | serveReduce call readable reply hsent hrun =>
      obtain ⟨outcome, t⟩ := reply
      obtain ⟨files, errorSet, storage, rfl⟩ := JobSystem.run_reduce_task_frame hrun
      cases outcome <;> rfl
  | exchange | push => rfl
  | takeOver => cases hl

/-- At the end of a job, no task is left. -/
theorem Inv.tasks_left_finished {job : Job} {s : JobSystem} (hs : Inv job s)
    (hfinished : s.finished = true) : s.phase.tasksLeft = 0 := by
  have hphase := hs.phase
  unfold JobSystem.finished at hfinished
  split at hfinished
  · cases hfinished
  · next d hat =>
    rw [hat] at hphase ⊢
    obtain ⟨m, -, hreach⟩ := hphase.entered
    obtain ⟨hq, -, hsuccess, -⟩ :=
      (ReduceDispatch.RoundInv.reachable hreach).exited (of_decide_eq_true hfinished)
    rw [LeaderPhase.tasksLeft, hq, ReduceDispatch.fails_eq_zero.mpr hsuccess]
    rfl

/-! ## The switch of the leader -/

/-- The dispatcher of the leader is about to assign a task. -/
def LeaderPhase.dispatching : LeaderPhase → Bool
  | .mapping d => d.pc = .dispatching
  | .reducing d => d.pc = .dispatching

/-- The dispatcher stands where it assigned a task. -/
theorem JobSystem.dispatching_of_assigns {workers : Workers} {s t : JobSystem} {l : SystemLabel}
    (hl : l.assigns = true) (h : s.step workers l = some t) : t.phase.dispatching = true := by
  cases JobSystem.step_effect workers h with
  | mapStep d d' l hat hallowed hd =>
      cases MapLoop.step_effect hd with
      | dispatch client data hpc hdata => exact decide_eq_true hpc
      | allDispatched | complete | received | handle | exit | again => cases hl
  | reduceStep d d' l hat hallowed hd =>
      cases ReduceDispatch.step_effect hd with
      | dispatch client jobid jobQ blobs hpc hq => exact decide_eq_true hpc
      | allDispatched | complete | received | requeue | keep | exit | again => cases hl
  | serveMap | abandonMap | reduce | serveReduce | exchange | push | takeOver => cases hl

/-- Only the dispatcher moves itself. -/
theorem JobSystem.dispatching_of_waits {workers : Workers} {s t : JobSystem} {l : SystemLabel}
    (hl : l.dispatches = false) (hl' : l.takesOver = false) (h : s.step workers l = some t) :
    t.phase.dispatching = s.phase.dispatching := by
  cases JobSystem.step_effect workers h with
  | mapStep d d' l hat hallowed hd =>
      rw [hat]
      cases MapLoop.step_effect hd with
      | complete => rfl
      | dispatch | allDispatched | received | handle | exit | again => cases hl
  | reduceStep d d' l hat hallowed hd =>
      rw [hat]
      cases ReduceDispatch.step_effect hd with
      | complete => rfl
      | dispatch | allDispatched | received | requeue | keep | exit | again => cases hl
  | serveMap client request readable reply hsent hrun =>
      obtain ⟨outcome, t⟩ := reply
      obtain ⟨files, errorSet, storage, rfl⟩ := JobSystem.run_map_task_frame hrun
      cases outcome <;> rfl
  | abandonMap client request readable pieces reply hsent hrun =>
      obtain ⟨files, errorSet, storage, hreply⟩ := JobSystem.run_map_task_frame hrun
      rw [hreply]
  | serveReduce call readable reply hsent hrun =>
      obtain ⟨outcome, t⟩ := reply
      obtain ⟨files, errorSet, storage, rfl⟩ := JobSystem.run_reduce_task_frame hrun
      cases outcome <;> rfl
  | exchange | push => rfl
  | reduce => cases hl
  | takeOver => cases hl'

namespace ArmedSystem

variable {workers : Workers} {s t : ArmedSystem} {l : ArmedLabel}

/-- What a step does. -/
theorem step_eq_some : s.step workers l = some t ↔
    ¬(s.switch.hasFailed = true ∧ l.system.dispatches = true) ∧
      s.toJobSystem.step workers l.system = some t.toJobSystem ∧
      t.switch = nextSwitch s.switch l := by
  unfold step
  rw [Option.ite_none_left_eq_some, Option.map_eq_some_iff]
  refine and_congr_right fun _ => ⟨fun h => ?_, fun h => ⟨_, h.1, ?_⟩⟩
  · obtain ⟨t, ht, rfl⟩ := h
    exact ⟨ht, rfl⟩
  · rw [← h.2]

/-- A master that takes over has its own switch. -/
theorem next_switch_take_over (f : FailSwitch) (h : l.system.takesOver = true) :
    nextSwitch f l = .make l.failAfter := by
  obtain ⟨system, failAfter⟩ := l
  cases system with
  | takeOver => rfl
  | mapStep | serveMap | abandonMap | reduce | reduceStep | serveReduce | exchange | push => cases h

/-- A leader keeps its switch, and counts the tasks it assigns. -/
theorem next_switch_eq (f : FailSwitch) (h : l.system.takesOver = false) :
    nextSwitch f l = if l.system.assigns then f.taskAssignedCheckFail else f := by
  obtain ⟨system, failAfter⟩ := l
  cases system with
  | takeOver => cases h
  | mapStep | serveMap | abandonMap | reduce | reduceStep | serveReduce | exchange | push => rfl

/-- Whether a leader will fail does not change. -/
theorem next_switch_will_fail (f : FailSwitch) (h : l.system.takesOver = false) :
    (nextSwitch f l).willFail = f.willFail := by
  rw [next_switch_eq f h]
  split <;> simp

/-- The count of a leader that will fail. -/
theorem next_switch_until_fail {f : FailSwitch} (hwill : f.willFail = true)
    (h : l.system.takesOver = false) :
    (nextSwitch f l).untilFail = f.untilFail - l.system.assigns.toNat := by
  rw [next_switch_eq f h]
  cases l.system.assigns with
  | true => exact f.check_until_fail hwill
  | false => exact (Int.sub_zero _).symm

/-- The count of a leader is not negative, and a leader that has failed has stopped behind an
assignment. -/
structure Ok (s : ArmedSystem) : Prop where
  limit : s.switch.willFail = true → 0 ≤ s.switch.untilFail
  asleep : s.switch.hasFailed = true → s.phase.dispatching = true

/-- A leader that has not failed. -/
theorem Ok.of_not_failed (h : s.switch.hasFailed = false) : Ok s := by
  refine ⟨fun hwill => (s.switch.until_fail_pos h hwill).le, fun hfailed => ?_⟩
  rw [h] at hfailed
  cases hfailed

/-- A step that assigns a task is one of the dispatcher. -/
theorem dispatches_of_assigns {l : SystemLabel} (h : l.assigns = true) : l.dispatches = true := by
  cases l with
  | mapStep l => cases l <;> first | rfl | cases h
  | reduceStep l => cases l <;> first | rfl | cases h
  | serveMap | abandonMap | reduce | serveReduce | exchange | push | takeOver => cases h

/-- Every step keeps the switch in order. -/
theorem Ok.step (hs : Ok s) (h : s.step workers l = some t) : Ok t := by
  obtain ⟨hawake, hstep, hswitch⟩ := step_eq_some.mp h
  cases htakes : l.system.takesOver with
  | true =>
      refine .of_not_failed ?_
      rw [hswitch, next_switch_take_over _ htakes, FailSwitch.make_has_failed]
  | false =>
      cases hassigns : l.system.assigns with
      | true =>
          -- the master had not failed, so its count was positive
          refine ⟨fun hwill => ?_, fun _ => JobSystem.dispatching_of_assigns hassigns hstep⟩
          rw [hswitch, next_switch_will_fail _ htakes] at hwill
          rw [hswitch, next_switch_until_fail hwill htakes, hassigns, Bool.toNat_true]
          have hnot : s.switch.hasFailed = false := by
            rw [Bool.eq_false_iff]
            exact fun hfailed => hawake ⟨hfailed, dispatches_of_assigns hassigns⟩
          have hpos := s.switch.until_fail_pos hnot hwill
          omega
      | false =>
          rw [next_switch_eq _ htakes, hassigns] at hswitch
          have hsame : t.switch = s.switch := hswitch
          refine ⟨hsame ▸ hs.limit, fun hfailed => ?_⟩
          rw [hsame] at hfailed
          have hwaits : l.system.dispatches = false := by
            rw [Bool.eq_false_iff]
            exact fun hdispatches => hawake ⟨hfailed, hdispatches⟩
          rw [JobSystem.dispatching_of_waits hwaits htakes hstep]
          exact hs.asleep hfailed

/-- A leader that comes to the end of a job has not failed. -/
theorem Ok.not_failed (hs : Ok s) (hfinished : s.finished = true) : s.switch.hasFailed = false := by
  cases hfailed : s.switch.hasFailed with
  | false => rfl
  | true =>
      have hasleep := hs.asleep hfailed
      unfold JobSystem.finished at hfinished
      split at hfinished
      · cases hfinished
      · next d hat =>
        rw [hat] at hasleep
        have hpc : d.pc = .dispatching := of_decide_eq_true hasleep
        rw [hpc] at hfinished
        cases hfinished

end ArmedSystem

/-! ## The account of a leader -/

/-- What the leader has found and done: the switch it came with, the tasks there were to assign when
it entered the map phase, the tasks it has assigned since and the calls that have failed. -/
structure Account where
  switch : FailSwitch
  found : Nat
  assigned : Nat
  failed : Nat

/-- The account behind a step. -/
def Account.next (k : Account) (l : ArmedLabel) : Account :=
  match l.system with
  | .takeOver follower received clients =>
      let m := JobSystem.followerMaster follower received clients
      ⟨.make l.failAfter, (processReplicatedData m).jobQ.length + m.nreducers.toNat, 0, 0⟩
  | system => { k with
      assigned := k.assigned + system.assigns.toNat
      failed := k.failed + system.fails.toNat }

/-- The account of the leader that starts a job. -/
def Account.start (job : Job) (f : FailSwitch) : Account :=
  ⟨f, job.shards.length + job.nreducers.toNat, 0, 0⟩

/-- The account of a step of the same leader. -/
theorem Account.next_eq (k : Account) {l : ArmedLabel} (h : l.system.takesOver = false) :
    k.next l = { k with
      assigned := k.assigned + l.system.assigns.toNat
      failed := k.failed + l.system.fails.toNat } := by
  obtain ⟨system, failAfter⟩ := l
  cases system with
  | takeOver => cases h
  | mapStep | serveMap | abandonMap | reduce | reduceStep | serveReduce | exchange | push => rfl

/-- An account that is right: the tasks left are what was found and what failed, less what was
assigned, and the switch has counted the tasks assigned. -/
structure Account.Right (k : Account) (s : ArmedSystem) : Prop where
  ok : s.Ok
  left : s.phase.tasksLeft + k.assigned = k.found + k.failed
  willFail : s.switch.willFail = k.switch.willFail
  untilFail : k.switch.willFail = true → s.switch.untilFail = k.switch.untilFail - k.assigned

namespace Account.Right

variable {job : Job} {k : Account} {s t : ArmedSystem}

/-- The account of a leader that enters the map phase. -/
theorem enter (hok : s.Ok) (hswitch : s.switch = k.switch) (hfound : s.phase.tasksLeft = k.found)
    (hassigned : k.assigned = 0) (hfailed : k.failed = 0) : k.Right s := by
  refine ⟨hok, by omega, by rw [hswitch], fun _ => ?_⟩
  rw [hswitch, hassigned]
  exact (Int.sub_zero _).symm

/-- The account of the leader that starts a job. -/
theorem start {s : JobSystem} (hs : s.Starts job) {f : FailSwitch} (hf : f.hasFailed = false) :
    (Account.start job f).Right ⟨s, f⟩ := by
  obtain ⟨m, hphase, -, -, hr, hshards, -⟩ := hs.phase
  refine enter (.of_not_failed hf) rfl ?_ rfl rfl
  show s.phase.tasksLeft = job.shards.length + job.nreducers.toNat
  rw [hphase, ← hr, ← hshards]
  simp [LeaderPhase.tasksLeft, MapLoop.enter, runMapper, MapDispatch.start, MapLoop.fails]

/-- Every step keeps the account right. -/
theorem step (hk : k.Right s) (hs : Inv job s.toJobSystem) {l : ArmedLabel}
    (h : s.step job.toWorkers l = some t) : (k.next l).Right t := by
  have hok := hk.ok.step h
  obtain ⟨-, hstep, hswitch⟩ := ArmedSystem.step_eq_some.mp h
  cases htakes : l.system.takesOver with
  | false =>
      rw [k.next_eq htakes]
      have hleft := hs.tasks_left_step htakes hstep
      have hbefore := hk.left
      have hsame := (congrArg FailSwitch.willFail hswitch).trans
        (ArmedSystem.next_switch_will_fail _ htakes)
      refine ⟨hok, by dsimp only; omega, hsame.trans hk.willFail, fun hwill => ?_⟩
      have hcount := hk.untilFail hwill
      rw [hswitch, ArmedSystem.next_switch_until_fail (hk.willFail.trans hwill) htakes, hcount]
      push_cast
      omega
  | true =>
      obtain ⟨system, failAfter⟩ := l
      cases system with
      | takeOver follower received clients =>
          refine enter hok hswitch ?_ rfl rfl
          obtain ⟨u, f⟩ := t
          have heffect : s.toJobSystem.Effect job.toWorkers
              (.takeOver follower received clients) u :=
            JobSystem.step_effect job.toWorkers hstep
          cases heffect
          simp [LeaderPhase.tasksLeft, MapLoop.enter, MapLoop.fails, Account.next,
            processReplicatedData, MapDispatch.start]
      | mapStep | serveMap | abandonMap | reduce | reduceStep | serveReduce | exchange | push =>
          cases htakes

/-- An undisturbed run keeps the invariant of the job and the account. -/
theorem run (hk : k.Right s) (hs : Inv job s.toJobSystem) {ls : List ArmedLabel}
    (hok : Along (ArmedSystem.step job.toWorkers)
      (fun s l => s.toJobSystem.Undisturbed job l.system) s ls)
    (hrun : run (ArmedSystem.step job.toWorkers) s ls = some t) :
    Inv job t.toJobSystem ∧ (ls.foldl Account.next k).Right t := by
  induction ls generalizing s k with
  | nil =>
      cases hrun
      exact ⟨hs, hk⟩
  | cons l ls ih =>
      obtain ⟨m, hstep, hrest⟩ := Option.bind_eq_some_iff.mp hrun
      have hplain := (ArmedSystem.step_eq_some.mp hstep).2.1
      exact ih (hk.step hs hstep) (hs.step hok.1 hplain) (hok.2 m hstep) hrest

/-- A leader assigns no more tasks than it may. -/
theorem assigned_le (hk : k.Right s) (hwill : k.switch.willFail = true) :
    (k.assigned : Int) ≤ k.switch.untilFail := by
  have hcount := hk.untilFail hwill
  have hlimit := hk.ok.limit (hk.willFail.trans hwill)
  omega

/-- A leader has failed when it has assigned as many tasks as it may. -/
theorem has_failed_iff (hk : k.Right s) : s.switch.hasFailed = true ↔
    k.switch.willFail = true ∧ (k.assigned : Int) = k.switch.untilFail := by
  rw [s.switch.fails, hk.willFail]
  refine and_congr_right fun hwill => ?_
  have hcount := hk.untilFail hwill
  have hle := hk.assigned_le hwill
  omega

end Account.Right

/-- A job whose masters are told to fail. In every undisturbed run, with any number of takeovers by
masters with any `fail_after`: the tasks the leader has left and those it has assigned are those it
found and its calls that failed; it never assigns more tasks than it may, and has failed exactly if
it has assigned that many. When a leader comes to the end of the job, it has assigned the tasks it
found and those that failed, which are fewer than it may, and the outputs are those of the job. -/
theorem armed_account (job : Job) (s : JobSystem) (f : FailSwitch) (t : ArmedSystem)
    (ls : List ArmedLabel) (hstart : s.Starts job) (hf : f.hasFailed = false)
    (hok : Along (ArmedSystem.step job.toWorkers)
      (fun s l => s.toJobSystem.Undisturbed job l.system) ⟨s, f⟩ ls)
    (hrun : run (ArmedSystem.step job.toWorkers) ⟨s, f⟩ ls = some t) :
    let k := ls.foldl Account.next (.start job f)
    t.phase.tasksLeft + k.assigned = k.found + k.failed ∧
      (k.switch.willFail = true → (k.assigned : Int) ≤ k.switch.untilFail) ∧
      (t.switch.hasFailed = true ↔
        k.switch.willFail = true ∧ (k.assigned : Int) = k.switch.untilFail) ∧
      (t.finished = true → k.assigned = k.found + k.failed ∧
        (k.switch.willFail = true → (k.assigned : Int) < k.switch.untilFail) ∧
        ∀ j < job.nreducers.toNat, t.storage (outContainerName job.containername) (outFileName j) =
          some (job.output j)) := by
  intro k
  obtain ⟨hinv, hk⟩ : Inv job t.toJobSystem ∧ k.Right t :=
    (Account.Right.start hstart hf).run (.start hstart) hok hrun
  refine ⟨hk.left, hk.assigned_le, hk.has_failed_iff, fun hfinished => ⟨?_, fun hwill => ?_, ?_⟩⟩
  · have hleft := hk.left
    rw [hinv.tasks_left_finished hfinished] at hleft
    omega
  · have hawake := hk.has_failed_iff.not.mp (by simp [hk.ok.not_failed hfinished])
    have hne : (k.assigned : Int) ≠ k.switch.untilFail := fun heq => hawake ⟨hwill, heq⟩
    exact lt_of_le_of_ne (hk.assigned_le hwill) hne
  · exact fun j hj => hinv.outputs hfinished hj

/-- The leader of two shards falls asleep behind its second task; the master that takes over may
assign two tasks and does not fail. -/
def armedRun : List ArmedLabel := (failoverRun.eraseIdx 4).map fun l => ⟨l, 3⟩

/-- A leader with two tasks has failed, and the one that took over ends the job with its two. -/
theorem armed_account_failover :
    ∃ t, run (ArmedSystem.step twoShards.toWorkers) ⟨twoShardsStart, .make 2⟩ armedRun = some t ∧
      (armedRun.foldl Account.next (.start twoShards (.make 2))).assigned = 2 ∧
      t.storage (outContainerName ['c']) (outFileName 0) = some (twoShards.output 0) := by
  have hends : (run (ArmedSystem.step twoShards.toWorkers) ⟨twoShardsStart, .make 2⟩ armedRun).any
      (fun t => t.finished) = true := by decide +kernel
  obtain ⟨t, hrun, hfinished⟩ := (Option.any_eq_true _ _).mp hends
  obtain ⟨-, -, -, hend⟩ := armed_account twoShards twoShardsStart (.make 2) t armedRun
    two_shards_starts rfl (by decide +kernel) hrun
  obtain ⟨hassigned, -, houtput⟩ := hend hfinished
  exact ⟨t, hrun, hassigned.trans (by decide +kernel), houtput 0 (by decide)⟩

/-! ## When an armed job can end -/

/-- A step of the leader there is. -/
theorem JobSystem.Steady.takes_over {job : Job} {s : JobSystem} {l : SystemLabel}
    (h : s.Steady job l) : l.takesOver = false := by
  cases l with
  | takeOver follower received clients => exact absurd rfl (h.2 follower received clients)
  | mapStep | serveMap | abandonMap | reduce | reduceStep | serveReduce | exchange | push => rfl

/-- No call fails in a smooth step. -/
theorem JobSystem.Smooth.not_fails {job : Job} {s : JobSystem} {l : SystemLabel}
    (h : s.Smooth job l) : l.fails = false := by
  unfold JobSystem.Smooth at h
  split at h
  · exact h.elim
  · exact h.elim
  · exact h.elim
  · unfold SystemLabel.fails
    split <;> simp_all

/-- A job that goes on, with the switch of its leader in order. -/
structure ArmedGoing (job : Job) (s : ArmedSystem) : Prop where
  going : Going job s.toJobSystem
  ok : s.Ok

namespace ArmedGoing

variable {job : Job} {s t : ArmedSystem}

/-- A step keeps an armed job going. -/
theorem step (hs : ArmedGoing job s) {l : ArmedLabel}
    (hok : s.toJobSystem.Undisturbed job l.system) (hresumes : JobSystem.Resumes l.system)
    (h : s.step job.toWorkers l = some t) : ArmedGoing job t :=
  ⟨hs.going.step hok hresumes (ArmedSystem.step_eq_some.mp h).2.1, hs.ok.step h⟩

/-- The leader can follow a smooth run if it may assign more tasks than it has left. -/
theorem follows {s t : JobSystem} (hs : Going job s) {f : FailSwitch}
    (hspare : f.willFail = true → (s.phase.tasksLeft : Int) < f.untilFail) {ls : List SystemLabel}
    (hok : Along (JobSystem.step job.toWorkers) (JobSystem.Smooth job) s ls)
    (hrun : run (JobSystem.step job.toWorkers) s ls = some t) :
    ∃ f', Along (ArmedSystem.step job.toWorkers)
        (fun s l => s.toJobSystem.Steady job l.system) ⟨s, f⟩ (ls.map fun l => ⟨l, 0⟩) ∧
      run (ArmedSystem.step job.toWorkers) ⟨s, f⟩ (ls.map fun l => ⟨l, 0⟩) = some ⟨t, f'⟩ := by
  induction ls generalizing s f with
  | nil =>
      cases hrun
      exact ⟨f, trivial, rfl⟩
  | cons l ls ih =>
      obtain ⟨m, hstep, hrest⟩ := Option.bind_eq_some_iff.mp hrun
      have hsteady := hok.1.steady
      have htakes := hsteady.takes_over
      have harmed : ArmedSystem.step job.toWorkers ⟨s, f⟩ ⟨l, 0⟩ =
          some ⟨m, ArmedSystem.nextSwitch f ⟨l, 0⟩⟩ :=
        ArmedSystem.step_eq_some.mpr ⟨by simp [f.not_failed_of_spare hspare], hstep, rfl⟩
      have hleft := hs.inv.tasks_left_step htakes hstep
      rw [hok.1.not_fails, Bool.toNat_false, Nat.add_zero] at hleft
      -- the count stays above the tasks that are left
      have hspare' : (ArmedSystem.nextSwitch f ⟨l, 0⟩).willFail = true →
          (m.phase.tasksLeft : Int) < (ArmedSystem.nextSwitch f ⟨l, 0⟩).untilFail := by
        intro hwill
        rw [ArmedSystem.next_switch_will_fail f htakes] at hwill
        have hbefore := hspare hwill
        rw [ArmedSystem.next_switch_until_fail hwill htakes]
        dsimp only
        omega
      obtain ⟨f', halong, hend⟩ := ih (hs.drives (.one hstep hok.1)) hspare' (hok.2 m hstep) hrest
      exact ⟨f', .cons hsteady harmed halong, by simpa [Machine.run, harmed] using hend⟩

end ArmedGoing

end MapReduce
