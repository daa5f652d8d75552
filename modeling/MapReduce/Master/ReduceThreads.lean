import MapReduce.Master.ReduceDispatch

/-!
# The reduce dispatcher and its completion thread

`MapReduce.Master.ReduceDispatch` sends a task and counts it in one step, and erases a failed
response and subtracts it in one step. In the source, `dispatchReduceTasks` does the one after the
other, and `AsyncCompleteReduceRpc` reads `nrpcs` and `resList.size()` at two times, in either
order, before it waits in `cq.Next` (`w7/src/master/masterimpl.cc`). Here all of these are steps,
and so is `done = true` behind the loop.

Read `reduce_thread_ends` first: from when the dispatcher has left its loop, the thread does not
wait for a call, and behind `done = true` it comes to its end. This holds of every run. The thread
may find a response erased that `nrpcs` still counts and wait for a call that is not there; but then
the task of the response is in `job_q`, and the call that is sent for it wakes the thread. The runs
of the two threads are runs of `ReduceDispatch` (`reduce_threads_refine`).

The runs are those up to the return of `dispatchReduceTasks`. The variables that the thread refers
to end with the function, which does not wait for the thread: `m_r1.join()` is behind the call.
-/

namespace MapReduce

open Machine (Reachable run)

/-- What `dispatchReduceTasks` is in the middle of: it has sent a task and not counted it, or erased
a failed response and not subtracted it. -/
inductive ReduceHalf where
  | none
  | sent
  | erased
  deriving DecidableEq, Repr

/-- The program counter of `AsyncCompleteReduceRpc`, with the values of `nrpcs` and `resList.size()`
it has read for its test. -/
inductive ReduceThreadPc where
  | testDone
  | reading (nrpcs : Option Int) (size : Option Nat)
  | next
  | ended
  deriving DecidableEq, Repr

/-- The dispatcher and its completion thread. `queue` is the completion queue: the calls that have
completed, with their outcomes. They are in `data.inFlight` until `cq.Next` returns them. -/
structure ReduceThreads where
  data : ReduceDispatch
  half : ReduceHalf
  done : Bool
  thread : ReduceThreadPc
  queue : List (ReduceCall × ReduceOutcome)

/-- The steps of the two threads, and the completion of a call. -/
inductive ReduceThreadsLabel where
  | send (client : ClientId)
  | count
  | allDispatched
  | received
  | collect
  | decrement
  | test
  | setDone
  | testDone
  | readRpcs
  | readSize
  | compare
  | rpcCompletes (call : ReduceCall) (outcome : ReduceOutcome)
  | nextReturns
  deriving DecidableEq, Repr

/-- A dispatcher that has left its loop takes no step. -/
theorem ReduceDispatch.step_of_exited {s : ReduceDispatch} (hpc : s.pc = .exited)
    (l : ReduceLabel) : s.step l = none := by
  cases l with
  | dispatch client =>
      simp only [step]
      split
      · rfl
      · simp [hpc]
  | allDispatched | complete call outcome | received | collect | test => simp [step, hpc]

namespace ReduceThreads

/-- `dispatchReduceTasks` after it has started its thread. -/
def start (m : Master) : ReduceThreads := ⟨runReducer m, .none, false, .testDone, []⟩

/-- One step. -/
def step (s : ReduceThreads) : ReduceThreadsLabel → Option ReduceThreads
  | .send client =>
      -- the task is neither counted nor taken out of `job_q`
      if s.half = .none then
        (s.data.step (.dispatch client)).map fun d => { s with
          half := .sent
          data := { d with nrpcs := s.data.nrpcs, jobQ := s.data.jobQ } }
      else none
  | .count =>
      if s.half = .sent then
        some { s with
          half := .none
          data := { s.data with nrpcs := s.data.nrpcs + 1, jobQ := s.data.jobQ.tail } }
      else none
  | .allDispatched =>
      if s.half = .none then (s.data.step .allDispatched).map fun d => { s with data := d }
      else none
  | .received =>
      if s.half = .none then (s.data.step .received).map fun d => { s with data := d }
      else none
  | .collect =>
      -- a response that is erased is still counted
      if s.half = .none then
        (s.data.step .collect).map fun d => { s with
          half := if d.nrpcs = s.data.nrpcs then .none else .erased
          data := { d with nrpcs := s.data.nrpcs } }
      else none
  | .decrement =>
      if s.half = .erased then
        some { s with half := .none, data := { s.data with nrpcs := s.data.nrpcs - 1 } }
      else none
  | .test =>
      if s.half = .none then (s.data.step .test).map fun d => { s with data := d }
      else none
  | .setDone =>
      if s.data.pc = .exited ∧ s.done = false then some { s with done := true } else none
  | .testDone =>
      if s.thread = .testDone then
        some { s with thread := if s.done then .ended else .reading none none }
      else none
  | .readRpcs =>
      match s.thread with
      | .reading none size => some { s with thread := .reading (some s.data.nrpcs) size }
      | _ => none
  | .readSize =>
      match s.thread with
      | .reading nrpcs none =>
          some { s with thread := .reading nrpcs (some s.data.responseList.length) }
      | _ => none
  | .compare =>
      match s.thread with
      | .reading (some nrpcs) (some size) =>
          -- `nrpcs` is converted to the type of the size
          some { s with thread := if nrpcs % 2 ^ 64 > size then .next else .testDone }
      | _ => none
  | .rpcCompletes call outcome =>
      if (s.queue.map Prod.fst).count call < s.data.inFlight.count call then
        some { s with queue := s.queue ++ [(call, outcome)] }
      else none
  | .nextReturns =>
      match s.queue with
      | [] => none
      | (call, outcome) :: queue =>
          if s.thread = .next then
            some { s with
              thread := .testDone
              data := { s.data with
                inFlight := s.data.inFlight.erase call
                responseList := s.data.responseList ++ [call.result outcome] }
              queue := queue }
          else none

/-! ## What a step does -/

/-- The effect of one step, one case for each branch of the source. -/
inductive Effect (s : ReduceThreads) : ReduceThreadsLabel → ReduceThreads → Prop where
  | send (client : ClientId) (d : ReduceDispatch) :
      s.half = .none → s.data.step (.dispatch client) = some d →
      Effect s (.send client) { s with
        half := .sent
        data := { d with nrpcs := s.data.nrpcs, jobQ := s.data.jobQ } }
  | count :
      s.half = .sent →
      Effect s .count { s with
        half := .none
        data := { s.data with nrpcs := s.data.nrpcs + 1, jobQ := s.data.jobQ.tail } }
  | allDispatched (d : ReduceDispatch) :
      s.half = .none → s.data.step .allDispatched = some d →
      Effect s .allDispatched { s with data := d }
  | received (d : ReduceDispatch) :
      s.half = .none → s.data.step .received = some d → Effect s .received { s with data := d }
  | collect (d : ReduceDispatch) :
      s.half = .none → s.data.step .collect = some d →
      Effect s .collect { s with
        half := if d.nrpcs = s.data.nrpcs then .none else .erased
        data := { d with nrpcs := s.data.nrpcs } }
  | decrement :
      s.half = .erased →
      Effect s .decrement { s with
        half := .none
        data := { s.data with nrpcs := s.data.nrpcs - 1 } }
  | test (d : ReduceDispatch) :
      s.half = .none → s.data.step .test = some d → Effect s .test { s with data := d }
  | setDone :
      s.data.pc = .exited → s.done = false → Effect s .setDone { s with done := true }
  | finish :
      s.thread = .testDone → s.done = true → Effect s .testDone { s with thread := .ended }
  | enter :
      s.thread = .testDone → s.done = false →
      Effect s .testDone { s with thread := .reading none none }
  | readRpcs (size : Option Nat) :
      s.thread = .reading none size →
      Effect s .readRpcs { s with thread := .reading (some s.data.nrpcs) size }
  | readSize (nrpcs : Option Int) :
      s.thread = .reading nrpcs none →
      Effect s .readSize { s with thread := .reading nrpcs (some s.data.responseList.length) }
  | enterNext (nrpcs : Int) (size : Nat) :
      s.thread = .reading (some nrpcs) (some size) → nrpcs % 2 ^ 64 > size →
      Effect s .compare { s with thread := .next }
  | poll (nrpcs : Int) (size : Nat) :
      s.thread = .reading (some nrpcs) (some size) → ¬nrpcs % 2 ^ 64 > size →
      Effect s .compare { s with thread := .testDone }
  | rpcCompletes (call : ReduceCall) (outcome : ReduceOutcome) :
      (s.queue.map Prod.fst).count call < s.data.inFlight.count call →
      Effect s (.rpcCompletes call outcome) { s with queue := s.queue ++ [(call, outcome)] }
  | nextReturns (call : ReduceCall) (outcome : ReduceOutcome)
      (queue : List (ReduceCall × ReduceOutcome)) :
      s.thread = .next → s.queue = (call, outcome) :: queue →
      Effect s .nextReturns { s with
        thread := .testDone
        data := { s.data with
          inFlight := s.data.inFlight.erase call
          responseList := s.data.responseList ++ [call.result outcome] }
        queue := queue }

/-- Every step has one of the effects. -/
theorem step_effect {s t : ReduceThreads} {l : ReduceThreadsLabel} (h : s.step l = some t) :
    s.Effect l t := by
  cases l with
  | send client =>
      simp only [step, Option.ite_none_right_eq_some, Option.map_eq_some_iff] at h
      obtain ⟨hhalf, d, hd, rfl⟩ := h
      exact .send client d hhalf hd
  | count =>
      simp only [step, Option.ite_none_right_eq_some, Option.some.injEq] at h
      obtain ⟨hhalf, rfl⟩ := h
      exact .count hhalf
  | allDispatched =>
      simp only [step, Option.ite_none_right_eq_some, Option.map_eq_some_iff] at h
      obtain ⟨hhalf, d, hd, rfl⟩ := h
      exact .allDispatched d hhalf hd
  | received =>
      simp only [step, Option.ite_none_right_eq_some, Option.map_eq_some_iff] at h
      obtain ⟨hhalf, d, hd, rfl⟩ := h
      exact .received d hhalf hd
  | collect =>
      simp only [step, Option.ite_none_right_eq_some, Option.map_eq_some_iff] at h
      obtain ⟨hhalf, d, hd, rfl⟩ := h
      exact .collect d hhalf hd
  | decrement =>
      simp only [step, Option.ite_none_right_eq_some, Option.some.injEq] at h
      obtain ⟨hhalf, rfl⟩ := h
      exact .decrement hhalf
  | test =>
      simp only [step, Option.ite_none_right_eq_some, Option.map_eq_some_iff] at h
      obtain ⟨hhalf, d, hd, rfl⟩ := h
      exact .test d hhalf hd
  | setDone =>
      simp only [step, Option.ite_none_right_eq_some, Option.some.injEq] at h
      obtain ⟨⟨hpc, hdone⟩, rfl⟩ := h
      exact .setDone hpc hdone
  | testDone =>
      simp only [step, Option.ite_none_right_eq_some, Option.some.injEq] at h
      obtain ⟨hthread, rfl⟩ := h
      split
      · next hdone => exact .finish hthread hdone
      · next hdone => exact .enter hthread (Bool.eq_false_of_not_eq_true hdone)
  | readRpcs =>
      simp only [step] at h
      split at h
      · next size hthread =>
          cases h
          exact .readRpcs size hthread
      · cases h
  | readSize =>
      simp only [step] at h
      split at h
      · next nrpcs hthread =>
          cases h
          exact .readSize nrpcs hthread
      · cases h
  | compare =>
      simp only [step] at h
      split at h
      · next nrpcs size hthread =>
          cases h
          split
          · next hmore => exact .enterNext nrpcs size hthread hmore
          · next hmore => exact .poll nrpcs size hthread hmore
      · cases h
  | rpcCompletes call outcome =>
      simp only [step, Option.ite_none_right_eq_some, Option.some.injEq] at h
      obtain ⟨hcall, rfl⟩ := h
      exact .rpcCompletes call outcome hcall
  | nextReturns =>
      simp only [step] at h
      split at h
      · cases h
      · next call outcome queue hqueue =>
          simp only [Option.ite_none_right_eq_some, Option.some.injEq] at h
          obtain ⟨hthread, rfl⟩ := h
          exact .nextReturns call outcome queue hthread hqueue

/-! ## The dispatcher without half steps -/

/-- The dispatcher as `ReduceDispatch` has it: a task that is sent is counted, and a response that
is erased is not. -/
def coarse (s : ReduceThreads) : ReduceDispatch :=
  match s.half with
  | .none => s.data
  | .sent => { s.data with nrpcs := s.data.nrpcs + 1, jobQ := s.data.jobQ.tail }
  | .erased => { s.data with nrpcs := s.data.nrpcs - 1 }

/-- A task waits for its call or for the end of its call. -/
def Pending (s : ReduceThreads) : Prop := s.coarse.inFlight ≠ [] ∨ s.coarse.jobQ ≠ []

@[simp] theorem coarse_in_flight (s : ReduceThreads) : s.coarse.inFlight = s.data.inFlight := by
  unfold coarse
  split <;> rfl

@[simp] theorem coarse_response_list (s : ReduceThreads) :
    s.coarse.responseList = s.data.responseList := by
  unfold coarse
  split <;> rfl

@[simp] theorem coarse_pc (s : ReduceThreads) : s.coarse.pc = s.data.pc := by
  unfold coarse
  split <;> rfl

/-- The dispatcher between two half steps. -/
theorem coarse_whole {s : ReduceThreads} (h : s.half = .none) : s.coarse = s.data := by
  simp [coarse, h]

/-! ## The invariant -/

/-- The threads run as the dispatcher without half steps does; and while a response is not
subtracted, or the thread waits for a call or has read that it has to, a task is pending. -/
structure Inv (m : Master) (s : ReduceThreads) : Prop where
  refines : Reachable ReduceDispatch.step (runReducer m) s.coarse
  nonneg : 0 ≤ s.data.nrpcs
  sent : s.half = .sent → s.data.pc = .dispatching
  erased : s.half = .erased → s.data.jobQ ≠ []
  done : s.done = true → s.data.pc = .exited
  queued : ∀ call, (s.queue.map Prod.fst).count call ≤ s.data.inFlight.count call
  next : s.thread = .next → s.Pending
  rpcs : ∀ n size, s.thread = .reading (some n) size → 0 ≤ n ∧ (n ≤ s.data.nrpcs ∨ s.Pending)
  size : ∀ nrpcs n, s.thread = .reading nrpcs (some n) →
    s.data.responseList.length = n ∨ s.Pending

variable {m : Master} {s t : ReduceThreads}

/-- A dispatcher that takes a step is not done. -/
theorem Inv.not_done (hs : s.Inv m) {l : ReduceLabel} {d : ReduceDispatch}
    (hd : s.data.step l = some d) : s.done ≠ true := by
  intro hdone
  rw [ReduceDispatch.step_of_exited (hs.done hdone)] at hd
  cases hd

/-- What a step of the dispatcher has to keep. It may read other values into the variables of the
thread's test only if a task is pending then. -/
theorem Inv.dispatcher (hs : s.Inv m) (hthread : t.thread = s.thread) (hqueue : t.queue = s.queue)
    (hflight : ∀ call, s.data.inFlight.count call ≤ t.data.inFlight.count call)
    (hreach : Reachable ReduceDispatch.step s.coarse t.coarse) (hnonneg : 0 ≤ t.data.nrpcs)
    (hsent : t.half = .sent → t.data.pc = .dispatching)
    (herased : t.half = .erased → t.data.jobQ ≠ [])
    (hdone : t.done = true → t.data.pc = .exited) (hpending : s.Pending → t.Pending)
    (hrpcs : s.data.nrpcs ≤ t.data.nrpcs ∨ t.Pending)
    (hsize : t.data.responseList.length = s.data.responseList.length ∨ t.Pending) : t.Inv m where
  refines := hs.refines.trans hreach
  nonneg := hnonneg
  sent := hsent
  erased := herased
  done := hdone
  queued call := by
    rw [hqueue]
    exact Nat.le_trans (hs.queued call) (hflight call)
  next h := hpending (hs.next (hthread ▸ h))
  rpcs n size h := by
    obtain ⟨hn, hle⟩ := hs.rpcs n size (hthread ▸ h)
    refine ⟨hn, ?_⟩
    rcases hle with hle | hs
    · exact hrpcs.imp_left (Int.le_trans hle)
    · exact .inr (hpending hs)
  size nrpcs n h := by
    rcases hs.size nrpcs n (hthread ▸ h) with heq | hs
    · exact hsize.imp_left fun hlen => hlen.trans heq
    · exact .inr (hpending hs)

/-- A task is sent. -/
theorem Inv.send (hs : s.Inv m) (hhalf : s.half = .none) {client : ClientId} {d : ReduceDispatch}
    (hd : s.data.step (.dispatch client) = some d) :
    Inv m { s with
      half := .sent
      data := { d with nrpcs := s.data.nrpcs, jobQ := s.data.jobQ } } := by
  have hcoarse : coarse { s with
      half := .sent
      data := { d with nrpcs := s.data.nrpcs, jobQ := s.data.jobQ } } = d := by
    cases ReduceDispatch.step_effect hd with
    | dispatch _ jobid jobQ blobs _ hq => simp [coarse, hq]
  have hflight : ∃ call, d.inFlight = s.data.inFlight ++ [call] ∧ d.pc = .dispatching := by
    cases ReduceDispatch.step_effect hd with
    | dispatch _ jobid jobQ blobs hpc hq => exact ⟨_, rfl, hpc⟩
  obtain ⟨call, hflight, hpc⟩ := hflight
  have hpending : Pending { s with
      half := .sent
      data := { d with nrpcs := s.data.nrpcs, jobQ := s.data.jobQ } } := by
    left
    simp [hflight]
  refine hs.dispatcher rfl rfl (fun call => ?_) ?_ hs.nonneg (fun _ => hpc) (fun h => ?_)
    (fun hdone => absurd hdone (hs.not_done hd)) (fun _ => hpending) (.inr hpending)
    (.inr hpending)
  · show s.data.inFlight.count call ≤ d.inFlight.count call
    rw [hflight, List.count_append]
    exact Nat.le_add_right _ _
  · rw [hcoarse, coarse_whole hhalf]
    exact .head hd (.refl _)
  · cases h

/-- A task that was sent is counted. -/
theorem Inv.count (hs : s.Inv m) (hhalf : s.half = .sent) :
    Inv m { s with
      half := .none
      data := { s.data with nrpcs := s.data.nrpcs + 1, jobQ := s.data.jobQ.tail } } := by
  have hcoarse : coarse { s with
      half := .none
      data := { s.data with nrpcs := s.data.nrpcs + 1, jobQ := s.data.jobQ.tail } } = s.coarse := by
    simp [coarse, hhalf]
  have hnonneg := hs.nonneg
  refine hs.dispatcher rfl rfl (fun _ => Nat.le_refl _) ?_ ?_ (fun h => ?_) (fun h => ?_)
    hs.done (fun h => ?_) ?_ (.inl rfl)
  · rw [hcoarse]
    exact .refl _
  · exact Int.le_add_one hnonneg
  · cases h
  · cases h
  · rwa [Pending, hcoarse]
  · exact .inl (Int.le_add_one (Int.le_refl _))

/-- A step of the dispatcher that leaves the variables of the thread's test alone. -/
theorem Inv.advance (hs : s.Inv m) (hhalf : s.half = .none) {l : ReduceLabel} {d : ReduceDispatch}
    (hd : s.data.step l = some d)
    (hsame : d.inFlight = s.data.inFlight ∧ d.responseList = s.data.responseList ∧
      d.nrpcs = s.data.nrpcs ∧ d.jobQ = s.data.jobQ) :
    Inv m { s with data := d } := by
  obtain ⟨hflight, hlist, hnrpcs, hq⟩ := hsame
  have hcoarse : coarse { s with data := d } = d := coarse_whole hhalf
  refine hs.dispatcher rfl rfl (fun call => ?_) ?_ ?_ (fun h => ?_) (fun h => ?_)
    (fun hdone => absurd hdone (hs.not_done hd)) (fun h => ?_) (.inl ?_) (.inl ?_)
  · show s.data.inFlight.count call ≤ d.inFlight.count call
    rw [hflight]
  · rw [hcoarse, coarse_whole hhalf]
    exact .head hd (.refl _)
  · show 0 ≤ d.nrpcs
    rw [hnrpcs]
    exact hs.nonneg
  · cases hhalf.symm.trans h
  · cases hhalf.symm.trans h
  · rw [Pending, coarse_whole hhalf] at h
    rwa [Pending, hcoarse, hflight, hq]
  · show s.data.nrpcs ≤ d.nrpcs
    rw [hnrpcs]
  · show d.responseList.length = _
    rw [hlist]

/-- A response is passed over, or erased and its task queued again. -/
theorem Inv.collect (hs : s.Inv m) (hhalf : s.half = .none) {d : ReduceDispatch}
    (hd : s.data.step .collect = some d) :
    Inv m { s with
      half := if d.nrpcs = s.data.nrpcs then .none else .erased
      data := { d with nrpcs := s.data.nrpcs } } := by
  have hcoarse : coarse { s with
      half := if d.nrpcs = s.data.nrpcs then .none else .erased
      data := { d with nrpcs := s.data.nrpcs } } = d := by
    cases ReduceDispatch.step_effect hd with
    | requeue itr res hpc hres hstatus =>
        have hless : s.data.nrpcs - 1 ≠ s.data.nrpcs := by omega
        simp [coarse, hless]
    | keep itr res hpc hres hstatus => simp [coarse]
  have hstep : d.inFlight = s.data.inFlight ∧ (s.data.jobQ ≠ [] → d.jobQ ≠ []) ∧
      ((d.nrpcs = s.data.nrpcs ∧ d.responseList = s.data.responseList) ∨ d.jobQ ≠ []) := by
    cases ReduceDispatch.step_effect hd with
    | requeue itr res hpc hres hstatus => simp
    | keep itr res hpc hres hstatus => simp
  obtain ⟨hflight, hq, hkeep⟩ := hstep
  refine hs.dispatcher rfl rfl (fun call => ?_) ?_ hs.nonneg (fun h => ?_) (fun h => ?_)
    (fun hdone => absurd hdone (hs.not_done hd)) (fun h => ?_) (.inl (Int.le_refl _)) ?_
  · show s.data.inFlight.count call ≤ d.inFlight.count call
    rw [hflight]
  · rw [hcoarse, coarse_whole hhalf]
    exact .head hd (.refl _)
  · dsimp only at h
    split at h <;> cases h
  · rcases hkeep with ⟨hnrpcs, -⟩ | hq
    · simp [hnrpcs] at h
    · exact hq
  · rw [Pending, coarse_whole hhalf] at h
    rw [Pending, hcoarse, hflight]
    exact h.imp_right hq
  · rw [Pending, hcoarse]
    rcases hkeep with ⟨-, hlist⟩ | hq
    · left
      show d.responseList.length = _
      rw [hlist]
    · exact .inr (.inr hq)

/-- While a response is not subtracted, its task is pending. -/
theorem Inv.pending_of_erased (hs : s.Inv m) (hhalf : s.half = .erased) : s.Pending := by
  right
  have hq : s.coarse.jobQ = s.data.jobQ := by simp [coarse, hhalf]
  rw [hq]
  exact hs.erased hhalf

/-- A response that was erased is subtracted. -/
theorem Inv.decrement (hs : s.Inv m) (hhalf : s.half = .erased) :
    Inv m { s with
      half := .none
      data := { s.data with nrpcs := s.data.nrpcs - 1 } } := by
  have hcoarse : coarse { s with
      half := .none
      data := { s.data with nrpcs := s.data.nrpcs - 1 } } = s.coarse := by
    simp [coarse, hhalf]
  have hpending : Pending { s with
      half := .none
      data := { s.data with nrpcs := s.data.nrpcs - 1 } } := by
    rw [Pending, hcoarse]
    exact hs.pending_of_erased hhalf
  refine hs.dispatcher rfl rfl (fun _ => Nat.le_refl _) ?_ ?_ (fun h => ?_) (fun h => ?_)
    hs.done (fun _ => hpending) (.inr hpending) (.inl rfl)
  · rw [hcoarse]
    exact .refl _
  · have hcount := (ReduceDispatch.RoundInv.reachable hs.refines).nrpcs_eq
    simp only [coarse, hhalf] at hcount
    show 0 ≤ s.data.nrpcs - 1
    omega
  · cases h
  · cases h

/-- The thread moves, and what it waits for or has read is accounted for. -/
theorem Inv.moves (hs : s.Inv m) {thread : ReduceThreadPc}
    (hnext : thread = .next → s.Pending)
    (hrpcs : ∀ n size, thread = .reading (some n) size → 0 ≤ n ∧ (n ≤ s.data.nrpcs ∨ s.Pending))
    (hsize : ∀ nrpcs n, thread = .reading nrpcs (some n) →
      s.data.responseList.length = n ∨ s.Pending) : Inv m { s with thread := thread } :=
  ⟨hs.refines, hs.nonneg, hs.sent, hs.erased, hs.done, hs.queued, hnext, hrpcs, hsize⟩

/-- Where the counter is ahead of the responses, a task is pending. -/
theorem Inv.pending_of_gt (hs : s.Inv m) (h : s.data.responseList.length < s.data.nrpcs) :
    s.Pending := by
  have hcount := (ReduceDispatch.RoundInv.reachable hs.refines).nrpcs_eq
  rw [coarse_in_flight, coarse_response_list] at hcount
  cases hhalf : s.half with
  | none =>
      rw [coarse_whole hhalf] at hcount
      left
      rw [coarse_in_flight, ← List.length_pos_iff]
      omega
  | sent =>
      simp only [coarse, hhalf] at hcount
      left
      rw [coarse_in_flight, ← List.length_pos_iff]
      omega
  | erased => exact hs.pending_of_erased hhalf

/-- The thread finds more calls than responses. -/
theorem Inv.enter_next (hs : s.Inv m) {nrpcs : Int} {size : Nat}
    (hthread : s.thread = .reading (some nrpcs) (some size)) (hmore : nrpcs % 2 ^ 64 > size) :
    s.Pending := by
  obtain ⟨hnonneg, hrpcs⟩ := hs.rpcs nrpcs _ hthread
  rcases hrpcs with hrpcs | hpending
  · rcases hs.size _ size hthread with hsize | hpending
    · refine hs.pending_of_gt ?_
      omega
    · exact hpending
  · exact hpending

/-- `cq.Next` returns a call. -/
theorem Inv.next_returns (hs : s.Inv m) {call : ReduceCall} {outcome : ReduceOutcome}
    {queue : List (ReduceCall × ReduceOutcome)} (hqueue : s.queue = (call, outcome) :: queue) :
    Inv m { s with
      thread := .testDone
      data := { s.data with
        inFlight := s.data.inFlight.erase call
        responseList := s.data.responseList ++ [call.result outcome] }
      queue := queue } := by
  have hle := hs.queued call
  rw [hqueue, List.map_cons, List.count_cons_self] at hle
  have hmem : call ∈ s.data.inFlight := List.count_pos_iff.mp (by omega)
  have hround := ReduceDispatch.RoundInv.reachable hs.refines
  have hpos : 0 < s.data.inFlight.length := List.length_pos_of_mem hmem
  have hguard : s.coarse.pc ≠ .exited ∧ call ∈ s.coarse.inFlight ∧
      s.coarse.nrpcs > s.coarse.responseList.length := by
    refine ⟨fun hpc => ?_, by simpa using hmem, ?_⟩
    · have hnone := (hround.exited hpc).2.1
      rw [coarse_in_flight] at hnone
      rw [hnone] at hmem
      cases hmem
    · have hcount := hround.nrpcs_eq
      rw [coarse_in_flight] at hcount
      omega
  refine ⟨hs.refines.trans (.head (l := .complete call outcome) (if_pos hguard) ?_), hs.nonneg,
    hs.sent, hs.erased, hs.done, fun other => ?_, fun h => ?_, fun _ _ h => ?_, fun _ _ h => ?_⟩
  · cases hhalf : s.half <;> simp only [coarse, hhalf] <;> exact .refl _
  · have hle := hs.queued other
    rw [hqueue, List.map_cons, List.count_cons] at hle
    show (queue.map Prod.fst).count other ≤ (s.data.inFlight.erase call).count other
    rw [List.count_erase]
    simp only [beq_iff_eq] at hle ⊢
    split at hle
    · next hsame =>
        rw [if_pos hsame]
        omega
    · next hsame =>
        rw [if_neg hsame]
        omega
  · cases h
  · cases h
  · cases h

/-- Every step keeps the invariant. -/
theorem Inv.step {l : ReduceThreadsLabel} (hs : s.Inv m) (h : s.step l = some t) : t.Inv m := by
  cases step_effect h with
  | send client d hhalf hd => exact hs.send hhalf hd
  | count hhalf => exact hs.count hhalf
  | allDispatched d hhalf hd =>
      refine hs.advance hhalf hd ?_
      cases ReduceDispatch.step_effect hd
      exact ⟨rfl, rfl, rfl, rfl⟩
  | received d hhalf hd =>
      refine hs.advance hhalf hd ?_
      cases ReduceDispatch.step_effect hd
      exact ⟨rfl, rfl, rfl, rfl⟩
  | collect d hhalf hd => exact hs.collect hhalf hd
  | decrement hhalf => exact hs.decrement hhalf
  | test d hhalf hd =>
      refine hs.advance hhalf hd ?_
      cases ReduceDispatch.step_effect hd <;> exact ⟨rfl, rfl, rfl, rfl⟩
  | setDone hpc hdone => exact { hs with done := fun _ => hpc }
  | finish hthread hdone | enter hthread hdone | poll nrpcs size hthread hless =>
      refine hs.moves (fun h => ?_) (fun _ _ h => ?_) (fun _ _ h => ?_) <;> cases h
  | readRpcs size hthread =>
      refine hs.moves (fun h => ?_) (fun n _ h => ?_) (fun _ n h => ?_)
      · cases h
      · cases h
        exact ⟨hs.nonneg, .inl (Int.le_refl _)⟩
      · cases h
        exact hs.size _ n hthread
  | readSize nrpcs hthread =>
      refine hs.moves (fun h => ?_) (fun n _ h => ?_) (fun _ n h => ?_)
      · cases h
      · cases h
        exact hs.rpcs n _ hthread
      · cases h
        exact .inl rfl
  | enterNext nrpcs size hthread hmore =>
      refine hs.moves (fun _ => hs.enter_next hthread hmore) (fun _ _ h => ?_) (fun _ _ h => ?_)
      · cases h
      · cases h
  | rpcCompletes call outcome hcall =>
      refine { hs with queued := fun other => ?_ }
      have hle := hs.queued other
      show ((s.queue ++ [(call, outcome)]).map Prod.fst).count other ≤ s.data.inFlight.count other
      rw [List.map_append, List.count_append, List.map_singleton, List.count_singleton]
      split
      · next hsame =>
          obtain rfl : call = other := by simpa using hsame
          omega
      · omega
  | nextReturns call outcome queue hthread hqueue => exact hs.next_returns hqueue

/-- The threads at the start. -/
theorem Inv.start (m : Master) : (start m).Inv m where
  refines := .refl _
  nonneg := Int.le_refl 0
  sent h := by cases h
  erased h := by cases h
  done h := by cases h
  queued _ := Nat.le_refl _
  next h := by cases h
  rpcs _ _ h := by cases h
  size _ _ h := by cases h

/-- The invariant holds in every state of a run. -/
theorem Inv.reachable (h : Reachable ReduceThreads.step (.start m) s) : s.Inv m :=
  h.invariant (motive := Inv m) (Inv.start m) fun _ _ _ hs hstep => hs.step hstep

/-! ## After the loop -/

/-- The steps the thread can still take when the dispatcher is done. -/
def remaining : ReduceThreadPc → Nat
  | .testDone => 1
  | .reading (some _) (some _) => 2
  | .reading none none => 4
  | .reading _ _ => 3
  | .next => 0
  | .ended => 0

/-- When the dispatcher has left its loop, no task is pending and no response is uncounted. -/
theorem Inv.exited (hs : s.Inv m) (hpc : s.data.pc = .exited) :
    ¬s.Pending ∧ s.data.inFlight = [] ∧ s.half = .none := by
  have hround := ReduceDispatch.RoundInv.reachable hs.refines
  obtain ⟨hq, hnone, -⟩ := hround.exited (by simpa using hpc)
  have hidle : ¬s.Pending := fun h => h.elim (fun h => h hnone) fun h => h hq
  refine ⟨hidle, by simpa using hnone, ?_⟩
  cases hhalf : s.half with
  | none => rfl
  | sent => cases hpc.symm.trans (hs.sent hhalf)
  | erased => exact absurd (hs.pending_of_erased hhalf) hidle

/-- When the dispatcher is done, only the thread moves, and it comes closer to its end. -/
theorem Inv.step_done {l : ReduceThreadsLabel} (hs : s.Inv m) (hdone : s.done = true)
    (h : s.step l = some t) : t.done = true ∧ remaining t.thread + 1 ≤ remaining s.thread := by
  obtain ⟨hidle, hnone, hhalf⟩ := hs.exited (hs.done hdone)
  cases step_effect h with
  | send client d _ hd | allDispatched d _ hd | received d _ hd | collect d _ hd | test d _ hd =>
      exact absurd hdone (hs.not_done hd)
  | count hsent => cases hhalf.symm.trans hsent
  | decrement herased => cases hhalf.symm.trans herased
  | setDone _ hnot => cases hdone.symm.trans hnot
  | finish hthread _ => exact ⟨hdone, by simp [remaining, hthread]⟩
  | enter _ hnot => cases hdone.symm.trans hnot
  | readRpcs size hthread =>
      refine ⟨hdone, ?_⟩
      cases size <;> simp [remaining, hthread]
  | readSize nrpcs hthread =>
      refine ⟨hdone, ?_⟩
      cases nrpcs <;> simp [remaining, hthread]
  | enterNext nrpcs size hthread hmore => exact absurd (hs.enter_next hthread hmore) hidle
  | poll nrpcs size hthread _ => exact ⟨hdone, by simp [remaining, hthread]⟩
  | rpcCompletes call outcome hcall => simp [hnone] at hcall
  | nextReturns call outcome queue hthread _ => exact absurd (hs.next hthread) hidle

/-- A thread that has not ended can move when the dispatcher has left its loop. -/
theorem Inv.moves_exited (hs : s.Inv m) (hpc : s.data.pc = .exited) (hthread : s.thread ≠ .ended) :
    ∃ l t, s.step l = some t := by
  obtain ⟨hidle, -⟩ := hs.exited hpc
  cases hat : s.thread with
  | testDone => exact ⟨.testDone, _, if_pos hat⟩
  | reading nrpcs size =>
      cases nrpcs with
      | none =>
          exact ⟨.readRpcs, { s with thread := .reading (some s.data.nrpcs) size }, by
            simp [ReduceThreads.step, hat]⟩
      | some nrpcs =>
          cases size with
          | none =>
              exact ⟨.readSize,
                { s with thread := .reading (some nrpcs) (some s.data.responseList.length) }, by
                  simp [ReduceThreads.step, hat]⟩
          | some size =>
              exact ⟨.compare,
                { s with thread := if nrpcs % 2 ^ 64 > size then .next else .testDone }, by
                  simp [ReduceThreads.step, hat]⟩
  | next => exact absurd (hs.next hat) hidle
  | ended => exact absurd hat hthread

/-- When the dispatcher is done, a run is at most four steps of the thread. -/
theorem Inv.run_done {ls : List ReduceThreadsLabel} (hs : s.Inv m) (hdone : s.done = true)
    (h : run ReduceThreads.step s ls = some t) :
    t.Inv m ∧ t.done = true ∧ remaining t.thread + ls.length ≤ remaining s.thread := by
  induction ls generalizing s with
  | nil =>
      cases h
      exact ⟨hs, hdone, Nat.le_refl _⟩
  | cons l ls ih =>
      obtain ⟨u, hstep, hrest⟩ := Option.bind_eq_some_iff.mp h
      obtain ⟨hudone, hless⟩ := hs.step_done hdone hstep
      obtain ⟨ht, htdone, hle⟩ := ih (hs.step hstep) hudone hrest
      refine ⟨ht, htdone, ?_⟩
      rw [List.length_cons]
      omega

end ReduceThreads

/-- The completion thread of `dispatchReduceTasks` ends, whatever calls fail and however the two
threads interleave, if the function does not return before. In every state that a run reaches and
where the dispatcher has left its loop, the thread is not waiting in `cq.Next`. Behind `done = true`
it takes at most four more steps, and it can take a step until it has ended. -/
theorem reduce_thread_ends (m : Master) (s : ReduceThreads)
    (hreach : Reachable ReduceThreads.step (.start m) s) (hexit : s.data.pc = .exited) :
    s.thread ≠ .next ∧
      (s.done = false → ∃ t, s.step .setDone = some t) ∧
      (s.done = true → ∀ ls t, run ReduceThreads.step s ls = some t →
        ls.length ≤ 4 ∧ (t.thread = .ended ∨ ∃ l u, t.step l = some u)) := by
  have hs := ReduceThreads.Inv.reachable hreach
  refine ⟨fun h => (hs.exited hexit).1 (hs.next h), fun hdone => ⟨_, if_pos ⟨hexit, hdone⟩⟩,
    fun hdone ls t hrun => ?_⟩
  obtain ⟨ht, htdone, hle⟩ := hs.run_done hdone hrun
  constructor
  · have hmost : ReduceThreads.remaining s.thread ≤ 4 := by
      unfold ReduceThreads.remaining
      split <;> omega
    omega
  · by_cases hended : t.thread = .ended
    · exact .inl hended
    · exact .inr (ht.moves_exited (ht.done htdone) hended)

/-- The two threads run as the dispatcher that counts a task when it sends it and subtracts a
response when it erases it. In particular, the reducers are accounted for in every state: each is in
exactly one of `job_q`, less the task that has just been sent, the outstanding calls and
`responseList`. When the loop is left, `job_q` and the outstanding calls are empty, and
`responseList` holds one success for each. -/
theorem reduce_threads_refine (m : Master) (s : ReduceThreads)
    (hreach : Reachable ReduceThreads.step (.start m) s) :
    Reachable ReduceDispatch.step (runReducer m) s.coarse ∧
      (∀ i, s.coarse.jobQ.count i + (s.data.inFlight.map ReduceCall.jobid).count i +
        (s.data.responseList.map ReduceResult.jobid).count i =
          if 0 ≤ i ∧ i < m.nreducers then 1 else 0) ∧
      (s.data.pc = .exited → s.coarse = s.data ∧ s.data.jobQ = [] ∧ s.data.inFlight = [] ∧
        (s.data.responseList.map ReduceResult.jobid).Perm
          ((List.range m.nreducers.toNat).map Int.ofNat) ∧
        ∀ res ∈ s.data.responseList, res.status = .success) := by
  have hs := ReduceThreads.Inv.reachable hreach
  have hcount : ∀ i, s.coarse.jobQ.count i + (s.data.inFlight.map ReduceCall.jobid).count i +
      (s.data.responseList.map ReduceResult.jobid).count i =
        if 0 ≤ i ∧ i < m.nreducers then 1 else 0 := by
    intro i
    have hcount := ReduceDispatch.reachable_count hs.refines i
    simpa using hcount
  refine ⟨hs.refines, hcount, fun hpc => ?_⟩
  obtain ⟨-, hnone, hhalf⟩ := hs.exited hpc
  have hcoarse := ReduceThreads.coarse_whole hhalf
  obtain ⟨hq, -, hsuccess, -⟩ :=
    (ReduceDispatch.RoundInv.reachable hs.refines).exited (by simpa using hpc)
  rw [hcoarse] at hq hsuccess hcount
  refine ⟨hcoarse, hq, hnone, List.perm_iff_count.mpr fun i => ?_, hsuccess⟩
  have hone := hcount i
  simp only [hq, hnone, List.map_nil, List.count_nil, Nat.zero_add] at hone
  rw [hone, ReduceDispatch.count_indices]

/-! ## One reducer -/

/-- A master with one reducer and one client. -/
def oneReducer : Master := { Master.init with nreducers := 1, clients := [0] }

/-- The call of its task. -/
def oneReducerCall : ReduceCall := ⟨0, 0, [], []⟩

/-- The call fails. The thread makes its test after the response has been erased and before it is
subtracted, and waits for a call that is not there. The second call wakes it up. -/
def retriedOnce : List ReduceThreadsLabel :=
  [.send 0, .count, .allDispatched, .testDone, .readRpcs, .readSize, .compare,
    .rpcCompletes oneReducerCall (.error 14), .nextReturns, .testDone, .received, .collect,
    .readSize, .readRpcs, .compare, .decrement, .test, .send 0,
    .rpcCompletes oneReducerCall (.ok [] []), .nextReturns, .testDone, .readSize, .count,
    .readRpcs, .allDispatched, .received, .collect, .test, .compare, .setDone]

/-- The thread has made its test once more when the dispatcher is done, and does not wait. -/
theorem reduce_thread_ends_retried :
    ∃ s, run ReduceThreads.step (.start oneReducer) retriedOnce = some s ∧ s.done = true ∧
      s.thread ≠ .next ∧ ∀ ls t, run ReduceThreads.step s ls = some t →
        ls.length ≤ 4 ∧ (t.thread = .ended ∨ ∃ l u, t.step l = some u) := by
  have hends : (run ReduceThreads.step (.start oneReducer) retriedOnce).any
      (fun s => s.data.pc = .exited ∧ s.done = true) = true := by decide +kernel
  obtain ⟨s, hrun, hs⟩ := (Option.any_eq_true _ _).mp hends
  obtain ⟨hexit, hdone⟩ := of_decide_eq_true hs
  obtain ⟨hnext, -, hends⟩ := reduce_thread_ends oneReducer s ⟨_, hrun⟩ hexit
  exact ⟨s, hrun, hdone, hnext, hends hdone⟩

/-- While the thread waits for the call that is not there, the reducer is in `job_q`. -/
theorem reduce_threads_refine_retried :
    ∃ s, run ReduceThreads.step (.start oneReducer) (retriedOnce.take 15) = some s ∧
      s.thread = .next ∧ s.data.inFlight = [] ∧
      s.coarse.jobQ.count 0 + (s.data.inFlight.map ReduceCall.jobid).count 0 +
        (s.data.responseList.map ReduceResult.jobid).count 0 = 1 := by
  have hwaits : (run ReduceThreads.step (.start oneReducer) (retriedOnce.take 15)).any
      (fun s => s.thread = .next ∧ s.data.inFlight = []) = true := by decide +kernel
  obtain ⟨s, hrun, hs⟩ := (Option.any_eq_true _ _).mp hwaits
  obtain ⟨hnext, hnone⟩ := of_decide_eq_true hs
  exact ⟨s, hrun, hnext, hnone, (reduce_threads_refine oneReducer s ⟨_, hrun⟩).2.1 0⟩

end MapReduce
