import MapReduce.Master.MapDispatch

/-!
# The map dispatcher and its completion thread

`MapReduce.Master.MapLoop` handles a response in one step. In the source, `dispatchMapTasks` erases
a handled response and subtracts it from `nrpcs` afterwards, and `AsyncCompleteMapRpc` reads both in
its test `nrpcs > resList.size()` before it waits in `cq.Next` (`w7/src/master/masterimpl.cc`). Here
these are steps of their own, and so are the completion of a call, the return of `cq.Next`, and what
is behind the loop: `m_map_done = true` and `responseList.clear()`.

Read `never_waits_on_nothing` first: as long as the thread does not make its test between an erase
and its decrement while no call is outstanding, and no response comes in behind the loop, the thread
is never left waiting after the dispatcher has exited. `last_response_wedges` is a run where it is,
and `waits_forever` says that it then stays there, so that `m_t1.join()` does not return. The runs
without such steps are runs of `MapDispatch` (`run_refines`). Sending a task and counting it is one
step; the variables of `dispatchMapTasks` that the thread refers to stay alive here after the
function has returned.
-/

namespace MapReduce

open Machine (Reachable)

/-- The program counter of `dispatchMapTasks`, with the point between the erase of a response and
`nrpcs--`, and the points behind the loop, after `m_map_done = true` and after
`responseList.clear()`. -/
inductive DispatcherPc where
  | dispatching
  | waiting
  | handling
  | decrementing
  | exiting
  | exited
  | cleared
  deriving DecidableEq, Repr

/-- The program counter of `AsyncCompleteMapRpc`. -/
inductive CompletionPc where
  | testDone
  | testRpcs
  | next
  | ended
  deriving DecidableEq, Repr

/-- The dispatcher and its completion thread. `queue` is the completion queue: the calls that have
completed, with their outcomes. They are outstanding, and in `data.inFlight`, until `cq.Next`
returns them. -/
structure MapThreads where
  pc : DispatcherPc
  thread : CompletionPc
  data : MapDispatch
  queue : List (MapCall × MapOutcome)

/-- The steps of the two threads, and the completion of a call. -/
inductive ThreadsLabel where
  | dispatch (client : ClientId)
  | allDispatched
  | received
  | erase
  | decrement
  | test
  | setDone
  | clear
  | testDone
  | testRpcs
  | rpcCompletes (call : MapCall) (outcome : MapOutcome)
  | nextReturns
  deriving DecidableEq, Repr

/-- What the completion thread does with a call that `cq.Next` returns. -/
def MapDispatch.completeCall (s : MapDispatch) (call : MapCall) (outcome : MapOutcome) :
    MapDispatch :=
  let res := call.result outcome
  let s := { s with
    inFlight := s.inFlight.erase call
    responseList := s.responseList ++ [res] }
  if res.status = .success then { s with replData := true, replList := s.replList ++ [res] } else s

namespace MapThreads

/-- `dispatchMapTasks` after it has started its thread. -/
def start (m : Master) (jobQ : List Int) : MapThreads :=
  ⟨.dispatching, .testDone, .start m jobQ, []⟩

/-- `m_map_done`. -/
def mapDone (s : MapThreads) : Bool := s.pc = .exited || s.pc = .cleared

/-- One step. -/
def step (s : MapThreads) : ThreadsLabel → Option MapThreads
  | .dispatch client =>
      if s.pc = .dispatching then
        (s.data.step (.dispatch client)).map fun data => { s with data := data }
      else none
  | .allDispatched =>
      if s.pc = .dispatching ∧ (s.data.jobQ = [] ∨ s.data.nrpcs > 10) then
        some { s with pc := .waiting }
      else none
  | .received =>
      if s.pc = .waiting ∧ s.data.responseList ≠ [] then some { s with pc := .handling }
      else none
  | .erase =>
      -- the response is handled and erased, and `nrpcs` still counts it
      if s.pc = .handling then
        (s.data.step .handle).map fun data =>
          { s with pc := .decrementing, data := { data with nrpcs := s.data.nrpcs } }
      else none
  | .decrement =>
      if s.pc = .decrementing then
        some { s with pc := .handling, data := { s.data with nrpcs := s.data.nrpcs - 1 } }
      else none
  | .test =>
      if s.pc = .handling ∧ s.data.responseList = [] then
        some { s with
          pc := if (s.data.intermediateResultMap.size : Int) = s.data.nmappers then .exiting
            else .dispatching }
      else none
  | .setDone => if s.pc = .exiting then some { s with pc := .exited } else none
  | .clear =>
      if s.pc = .exited then
        some { s with pc := .cleared, data := { s.data with responseList := [] } }
      else none
  | .testDone =>
      if s.thread = .testDone then
        some { s with thread := if s.mapDone then .ended else .testRpcs }
      else none
  | .testRpcs =>
      if s.thread = .testRpcs then
        some { s with
          thread := if s.data.nrpcs > s.data.responseList.length then .next else .testDone }
      else none
  | .rpcCompletes call outcome =>
      if (s.queue.map Prod.fst).count call < s.data.inFlight.count call then
        some { s with queue := s.queue ++ [(call, outcome)] }
      else none
  | .nextReturns =>
      match s.queue with
      | [] => none
      | (call, outcome) :: queue =>
          if s.thread = .next then
            some { s with
              thread := .testDone
              data := s.data.completeCall call outcome
              queue := queue }
          else none

/-- The dispatcher is past its exit, and the completion thread is inside `cq.Next` although no call
is outstanding. -/
def WaitsOnNothing (s : MapThreads) : Prop :=
  s.mapDone = true ∧ s.thread = .next ∧ s.data.inFlight = []

instance (s : MapThreads) : Decidable s.WaitsOnNothing := inferInstanceAs (Decidable (_ ∧ _))

/-- The thread does not test `nrpcs` between an erase and its decrement while no call is
outstanding, and the response list is clear already when it is cleared. -/
def Guarded (s : MapThreads) : ThreadsLabel → Prop
  | .testRpcs => s.pc = .decrementing → s.data.inFlight ≠ []
  | .clear => s.data.responseList = []
  | _ => True

instance (s : MapThreads) (l : ThreadsLabel) : Decidable (s.Guarded l) :=
  match l with
  | .testRpcs => inferInstanceAs (Decidable (s.pc = .decrementing → s.data.inFlight ≠ []))
  | .clear => inferInstanceAs (Decidable (s.data.responseList = []))
  | .dispatch _ | .allDispatched | .received | .erase | .decrement | .test | .setDone | .testDone
  | .rpcCompletes _ _ | .nextReturns => isTrue trivial

/-! ## What a step does -/

/-- The effect of one step, one case for each branch of the source. -/
inductive Effect (s : MapThreads) : ThreadsLabel → MapThreads → Prop where
  | dispatch (client : ClientId) (data : MapDispatch) :
      s.pc = .dispatching → s.data.step (.dispatch client) = some data →
      Effect s (.dispatch client) { s with data := data }
  | allDispatched : s.pc = .dispatching → Effect s .allDispatched { s with pc := .waiting }
  | received : s.pc = .waiting → Effect s .received { s with pc := .handling }
  | erase (data : MapDispatch) :
      s.pc = .handling → s.data.step .handle = some data →
      Effect s .erase
        { s with pc := .decrementing, data := { data with nrpcs := s.data.nrpcs } }
  | decrement :
      s.pc = .decrementing →
      Effect s .decrement
        { s with pc := .handling, data := { s.data with nrpcs := s.data.nrpcs - 1 } }
  | test (pc : DispatcherPc) :
      s.pc = .handling → pc = .exiting ∨ pc = .dispatching → Effect s .test { s with pc := pc }
  | setDone : s.pc = .exiting → Effect s .setDone { s with pc := .exited }
  | clear :
      s.pc = .exited →
      Effect s .clear { s with pc := .cleared, data := { s.data with responseList := [] } }
  | testDone (thread : CompletionPc) :
      s.thread = .testDone → thread = .ended ∨ thread = .testRpcs →
      Effect s .testDone { s with thread := thread }
  | enterNext :
      s.thread = .testRpcs → s.data.nrpcs > s.data.responseList.length →
      Effect s .testRpcs { s with thread := .next }
  | poll :
      s.thread = .testRpcs → ¬s.data.nrpcs > s.data.responseList.length →
      Effect s .testRpcs { s with thread := .testDone }
  | rpcCompletes (call : MapCall) (outcome : MapOutcome) :
      (s.queue.map Prod.fst).count call < s.data.inFlight.count call →
      Effect s (.rpcCompletes call outcome) { s with queue := s.queue ++ [(call, outcome)] }
  | nextReturns (call : MapCall) (outcome : MapOutcome) (queue : List (MapCall × MapOutcome)) :
      s.thread = .next → s.queue = (call, outcome) :: queue →
      Effect s .nextReturns { s with
        thread := .testDone
        data := s.data.completeCall call outcome
        queue := queue }

/-- Every step has one of the effects. -/
theorem step_effect {s t : MapThreads} {l : ThreadsLabel} (h : s.step l = some t) :
    s.Effect l t := by
  cases l with
  | dispatch client =>
      simp only [step, Option.ite_none_right_eq_some, Option.map_eq_some_iff] at h
      obtain ⟨hpc, data, hdata, rfl⟩ := h
      exact .dispatch client data hpc hdata
  | allDispatched =>
      simp only [step, Option.ite_none_right_eq_some, Option.some.injEq] at h
      obtain ⟨⟨hpc, -⟩, rfl⟩ := h
      exact .allDispatched hpc
  | received =>
      simp only [step, Option.ite_none_right_eq_some, Option.some.injEq] at h
      obtain ⟨⟨hpc, -⟩, rfl⟩ := h
      exact .received hpc
  | erase =>
      simp only [step, Option.ite_none_right_eq_some, Option.map_eq_some_iff] at h
      obtain ⟨hpc, data, hdata, rfl⟩ := h
      exact .erase data hpc hdata
  | decrement =>
      simp only [step, Option.ite_none_right_eq_some, Option.some.injEq] at h
      obtain ⟨hpc, rfl⟩ := h
      exact .decrement hpc
  | test =>
      simp only [step, Option.ite_none_right_eq_some, Option.some.injEq] at h
      obtain ⟨⟨hpc, -⟩, rfl⟩ := h
      exact .test _ hpc (by split <;> simp)
  | setDone =>
      simp only [step, Option.ite_none_right_eq_some, Option.some.injEq] at h
      obtain ⟨hpc, rfl⟩ := h
      exact .setDone hpc
  | clear =>
      simp only [step, Option.ite_none_right_eq_some, Option.some.injEq] at h
      obtain ⟨hpc, rfl⟩ := h
      exact .clear hpc
  | testDone =>
      simp only [step, Option.ite_none_right_eq_some, Option.some.injEq] at h
      obtain ⟨hthread, rfl⟩ := h
      exact .testDone _ hthread (by split <;> simp)
  | testRpcs =>
      simp only [step, Option.ite_none_right_eq_some, Option.some.injEq] at h
      obtain ⟨hthread, rfl⟩ := h
      split
      · next htest => exact .enterNext hthread htest
      · next htest => exact .poll hthread htest
  | rpcCompletes call outcome =>
      simp only [step, Option.ite_none_right_eq_some, Option.some.injEq] at h
      obtain ⟨hcall, rfl⟩ := h
      exact .rpcCompletes call outcome hcall
  | nextReturns =>
      simp only [step] at h
      split at h
      · cases h
      · next call outcome queue hqueue =>
          simp only [Option.ite_none_right_eq_some, Option.some.injEq] at h
          obtain ⟨hthread, rfl⟩ := h
          exact .nextReturns call outcome queue hthread hqueue

/-- What the return of a call changes, however it ended. -/
theorem complete_call_eq (s : MapDispatch) (call : MapCall) (outcome : MapOutcome) :
    (s.completeCall call outcome).inFlight = s.inFlight.erase call ∧
      (s.completeCall call outcome).responseList = s.responseList ++ [call.result outcome] ∧
      (s.completeCall call outcome).nrpcs = s.nrpcs := by
  unfold MapDispatch.completeCall
  simp only
  split <;> exact ⟨rfl, rfl, rfl⟩

/-! ## The counter -/

/-- How many handled responses `nrpcs` still counts. -/
def uncounted (s : MapThreads) : Int := if s.pc = .decrementing then 1 else 0

/-- `nrpcs` counts the outstanding calls and the responses, and the thread waits for a call that is
outstanding. -/
structure Inv (s : MapThreads) : Prop where
  counter : s.data.nrpcs = s.data.inFlight.length + s.data.responseList.length + s.uncounted
  queued : ∀ call, (s.queue.map Prod.fst).count call ≤ s.data.inFlight.count call
  waiting : s.thread = .next → s.data.inFlight ≠ []

/-- The call that `cq.Next` returns is outstanding. -/
theorem Inv.mem_in_flight {s : MapThreads} (h : s.Inv) {call : MapCall} {outcome : MapOutcome}
    {queue : List (MapCall × MapOutcome)} (hqueue : s.queue = (call, outcome) :: queue) :
    call ∈ s.data.inFlight := by
  have hle := h.queued call
  rw [hqueue, List.map_cons, List.count_cons_self] at hle
  exact List.count_pos_iff.mp (by omega)

/-- A task is sent. -/
theorem Inv.dispatch {s : MapThreads} (h : s.Inv) (hpc : s.pc = .dispatching) {client : ClientId}
    {data : MapDispatch} (hdata : s.data.step (.dispatch client) = some data) :
    Inv { s with data := data } := by
  have hcounter := h.counter
  cases MapDispatch.step_effect hdata with
  | dispatch _ i jobQ shard _ _ _ =>
      refine ⟨?_, ?_, ?_⟩
      · simp only [uncounted, hpc, reduceCtorEq, if_false, List.length_append,
          List.length_singleton] at hcounter ⊢
        push_cast
        omega
      · intro call
        have hle := h.queued call
        show (s.queue.map Prod.fst).count call ≤ (s.data.inFlight ++ [_]).count call
        rw [List.count_append]
        omega
      · intro _
        simp

/-- A response is handled and erased. -/
theorem Inv.erase {s : MapThreads} (h : s.Inv) (hpc : s.pc = .handling) {data : MapDispatch}
    (hdata : s.data.step .handle = some data) :
    Inv { s with pc := .decrementing, data := { data with nrpcs := s.data.nrpcs } } := by
  have hcounter := h.counter
  have hlist : data.inFlight = s.data.inFlight ∧
      s.data.responseList.length = data.responseList.length + 1 := by
    cases MapDispatch.step_effect hdata with
    | requeue res rest hlist _ | drop res rest hlist _ _ | record res rest hlist _ _ =>
        rw [hlist]
        exact ⟨rfl, rfl⟩
  refine ⟨?_, ?_, ?_⟩
  · simp only [uncounted, hpc, reduceCtorEq, if_false, if_true] at hcounter ⊢
    rw [hlist.1]
    omega
  · intro call
    rw [hlist.1]
    exact h.queued call
  · intro hthread
    rw [hlist.1]
    exact h.waiting hthread

/-- `cq.Next` returns a call. -/
theorem Inv.next_returns {s : MapThreads} (h : s.Inv) {call : MapCall} {outcome : MapOutcome}
    {queue : List (MapCall × MapOutcome)} (hqueue : s.queue = (call, outcome) :: queue) :
    Inv { s with
      thread := .testDone
      data := s.data.completeCall call outcome
      queue := queue } := by
  have hmem := h.mem_in_flight hqueue
  have hpos : 0 < s.data.inFlight.length := List.length_pos_of_mem hmem
  obtain ⟨hflight, hlist, hnrpcs⟩ := complete_call_eq s.data call outcome
  refine ⟨?_, ?_, nofun⟩
  · show (s.data.completeCall call outcome).nrpcs = _
    rw [hnrpcs, h.counter]
    simp only [hflight, hlist, List.length_erase_of_mem hmem, List.length_append,
      List.length_singleton, uncounted]
    omega
  · intro other
    have hle := h.queued other
    rw [hqueue, List.map_cons, List.count_cons] at hle
    show (queue.map Prod.fst).count other ≤ (s.data.completeCall call outcome).inFlight.count other
    rw [hflight, List.count_erase]
    simp only [beq_iff_eq] at hle ⊢
    split at hle
    · next hsame =>
        rw [if_pos hsame]
        omega
    · next hsame =>
        rw [if_neg hsame]
        omega

/-- Every guarded step keeps the invariant. -/
theorem Inv.step {s t : MapThreads} {l : ThreadsLabel} (h : s.Inv) (hguard : s.Guarded l)
    (hstep : s.step l = some t) : t.Inv := by
  have hcounter := h.counter
  unfold uncounted at hcounter
  cases step_effect hstep with
  | dispatch client data hpc hdata => exact h.dispatch hpc hdata
  | erase data hpc hdata => exact h.erase hpc hdata
  | nextReturns call outcome queue hthread hqueue => exact h.next_returns hqueue
  | allDispatched hpc | received hpc | setDone hpc =>
      refine ⟨?_, h.queued, h.waiting⟩
      simpa [uncounted, hpc] using hcounter
  | decrement hpc =>
      refine ⟨?_, h.queued, h.waiting⟩
      simp only [uncounted, hpc, reduceCtorEq, if_false, if_true] at hcounter ⊢
      omega
  | test pc hpc hnext =>
      refine ⟨?_, h.queued, h.waiting⟩
      rcases hnext with rfl | rfl <;> simpa [uncounted, hpc] using hcounter
  | clear hpc =>
      refine ⟨?_, h.queued, h.waiting⟩
      have hempty : s.data.responseList = [] := hguard
      simpa [uncounted, hpc, hempty] using hcounter
  | testDone thread hthread hnext =>
      refine ⟨h.counter, h.queued, ?_⟩
      intro heq
      rcases hnext with rfl | rfl <;> cases heq
  | enterNext hthread htest =>
      -- outside the window, what `nrpcs` counts beyond the responses is outstanding
      refine ⟨h.counter, h.queued, ?_⟩
      intro _
      by_cases hpc : s.pc = .decrementing
      · exact hguard hpc
      · rw [if_neg hpc] at hcounter
        intro hempty
        rw [hempty, List.length_nil] at hcounter
        omega
  | poll hthread htest => exact ⟨h.counter, h.queued, nofun⟩
  | rpcCompletes call outcome hcall =>
      refine ⟨h.counter, ?_, h.waiting⟩
      intro other
      have hle := h.queued other
      show ((s.queue ++ [(call, outcome)]).map Prod.fst).count other ≤
        s.data.inFlight.count other
      rw [List.map_append, List.count_append, List.map_singleton, List.count_singleton]
      split
      · next hsame =>
          obtain rfl : call = other := by simpa using hsame
          omega
      · omega

/-- The threads at the start. -/
theorem start_inv (m : Master) (jobQ : List Int) : (start m jobQ).Inv :=
  ⟨rfl, fun _ => Nat.le_refl _, nofun⟩

/-- In a run whose steps are all guarded, the completion thread is never left waiting for a call
when the dispatcher has exited and no call is outstanding. -/
theorem never_waits_on_nothing {m : Master} {jobQ : List Int} {ls : List ThreadsLabel}
    {s : MapThreads} (hrun : Machine.run step (start m jobQ) ls = some s)
    (hguarded : Machine.Along step Guarded (start m jobQ) ls) : ¬s.WaitsOnNothing := by
  have hinv : s.Inv := hguarded.invariant (start_inv m jobQ)
    (fun _ _ _ hm hok hstep => hm.step hok hstep) hrun
  intro hwaits
  obtain ⟨-, hthread, hempty⟩ := hwaits
  exact hinv.waiting hthread hempty

/-- The dispatcher as `MapDispatch` has it, where a response is subtracted when it is erased. -/
def coarse (s : MapThreads) : MapDispatch := { s.data with nrpcs := s.data.nrpcs - s.uncounted }

/-- The return of a call is a completion of the dispatcher. -/
theorem coarse_complete {s : MapThreads} (h : s.Inv) {call : MapCall}
    (hcall : call ∈ s.data.inFlight) (outcome : MapOutcome) :
    s.coarse.step (.complete call outcome) =
      some { s.data.completeCall call outcome with nrpcs := s.data.nrpcs - s.uncounted } := by
  have hpos : 0 < s.data.inFlight.length := List.length_pos_of_mem hcall
  have hguard : call ∈ s.coarse.inFlight ∧ s.coarse.nrpcs > s.coarse.responseList.length := by
    refine ⟨hcall, ?_⟩
    show s.data.nrpcs - s.uncounted > s.data.responseList.length
    rw [h.counter]
    omega
  simp only [MapDispatch.step, if_pos hguard, MapDispatch.completeCall]
  split <;> rfl

/-- A guarded step is at most one step of the dispatcher. -/
theorem coarse_step {s t : MapThreads} {l : ThreadsLabel} (h : s.Inv) (hguard : s.Guarded l)
    (hstep : s.step l = some t) : Reachable MapDispatch.step s.coarse t.coarse := by
  have hcounted : s.pc ≠ .decrementing → s.coarse = s.data := by
    intro hpc
    simp [coarse, uncounted, hpc]
  cases step_effect hstep with
  | dispatch client data hpc hdata =>
      have hsame : coarse { s with data := data } = data := by simp [coarse, uncounted, hpc]
      rw [hcounted (by simp [hpc]), hsame]
      exact .head hdata (.refl _)
  | erase data hpc hdata =>
      have hnrpcs : data.nrpcs = s.data.nrpcs - 1 := by
        cases MapDispatch.step_effect hdata <;> rfl
      have hsame : coarse { s with
          pc := .decrementing, data := { data with nrpcs := s.data.nrpcs } } = data := by
        simp [coarse, uncounted, ← hnrpcs]
      rw [hcounted (by simp [hpc]), hsame]
      exact .head hdata (.refl _)
  | nextReturns call outcome queue hthread hqueue =>
      refine .head (coarse_complete h (h.mem_in_flight hqueue) outcome) ?_
      have hnrpcs := (complete_call_eq s.data call outcome).2.2
      simp only [coarse, hnrpcs]
      exact .refl _
  | decrement hpc =>
      have hsame : coarse { s with
          pc := .handling, data := { s.data with nrpcs := s.data.nrpcs - 1 } } = s.coarse := by
        simp [coarse, uncounted, hpc]
      rw [hsame]
      exact .refl _
  | clear hpc =>
      have hempty : s.data.responseList = [] := hguard
      have hsame : coarse { s with
          pc := .cleared, data := { s.data with responseList := [] } } = s.coarse := by
        simp [coarse, uncounted, hpc, ← hempty]
      rw [hsame]
      exact .refl _
  | allDispatched hpc | received hpc | setDone hpc =>
      rw [hcounted (by simp [hpc])]
      simp only [coarse, uncounted, reduceCtorEq, if_false, Int.sub_zero]
      exact .refl _
  | test pc hpc hnext =>
      rw [hcounted (by simp [hpc])]
      rcases hnext with rfl | rfl
      all_goals
        simp only [coarse, uncounted, reduceCtorEq, if_false, Int.sub_zero]
        exact .refl _
  | testDone thread _ _ | enterNext _ _ | poll _ _ | rpcCompletes _ _ _ => exact .refl _

/-- Every run whose steps are all guarded is, from the view of the dispatcher, a run of
`MapDispatch`. -/
theorem run_refines {m : Master} {jobQ : List Int} {ls : List ThreadsLabel} {s : MapThreads}
    (hrun : Machine.run step (start m jobQ) ls = some s)
    (hguarded : Machine.Along step Guarded (start m jobQ) ls) :
    Reachable MapDispatch.step (.start m jobQ) s.coarse := by
  refine (hguarded.invariant (motive := fun s => s.Inv ∧
    Reachable MapDispatch.step (.start m jobQ) s.coarse) ⟨start_inv m jobQ, .refl _⟩ ?_ hrun).2
  intro n l t hn hok hstep
  exact ⟨hn.1.step hok hstep, hn.2.trans (coarse_step hn.1 hok hstep)⟩

/-- A thread that waits on nothing is not woken again. -/
theorem waits_forever {s t : MapThreads} (h : s.WaitsOnNothing) (hqueue : s.queue = [])
    (hreach : Reachable step s t) : t.WaitsOnNothing := by
  refine (hreach.invariant (motive := fun s => s.WaitsOnNothing ∧ s.queue = []) ⟨h, hqueue⟩ ?_).1
  intro m l t hm hstep
  obtain ⟨⟨hdone, hthread, hempty⟩, hqueue⟩ := hm
  have hpc : m.pc = .exited ∨ m.pc = .cleared := by simpa [mapDone] using hdone
  cases step_effect hstep with
  | dispatch _ _ hnot _ | allDispatched hnot | received hnot | erase _ hnot _ | decrement hnot
  | test _ hnot _ | setDone hnot => simp [hnot] at hpc
  | clear _ => exact ⟨⟨rfl, hthread, hempty⟩, hqueue⟩
  | testDone _ hnot _ | enterNext hnot _ | poll hnot _ => simp [hnot] at hthread
  | rpcCompletes call outcome hcall => simp [hempty] at hcall
  | nextReturns call outcome queue _ hsome => simp [hsome] at hqueue

/-! ## One shard -/

/-- A master with one shard and one mapper. -/
def oneShard : Master := { Master.init with nmappers := 1, shards := [⟨0, []⟩] }

/-- The task of the shard is sent and answered, the dispatcher is about to handle the answer, and
the completion thread has found that it is not done. -/
def answeredOnce : List ThreadsLabel :=
  [.dispatch 0, .testDone, .testRpcs, .rpcCompletes ⟨0, 0⟩ (.ok [] []), .nextReturns,
    .allDispatched, .received, .testDone]

/-- The thread tests `nrpcs` after the decrement. -/
theorem never_waits_one_shard :
    ∃ s, Machine.run step (start oneShard [0])
        (answeredOnce ++ [.erase, .decrement, .testRpcs, .test, .setDone, .testDone]) = some s ∧
      s.mapDone = true ∧ ¬s.WaitsOnNothing := by
  have hdone : (Machine.run step (start oneShard [0])
      (answeredOnce ++ [.erase, .decrement, .testRpcs, .test, .setDone, .testDone])).any
        mapDone = true := by
    decide +kernel
  obtain ⟨s, hrun, hs⟩ := (Option.any_eq_true _ _).mp hdone
  exact ⟨s, hrun, hs, never_waits_on_nothing hrun (by decide +kernel)⟩

/-- The thread tests `nrpcs` after the only response has been erased and before it is subtracted.
It waits for a call that is not there, and the dispatcher exits. -/
theorem last_response_wedges :
    ∃ s, Machine.run step (start oneShard [0])
        (answeredOnce ++ [.erase, .testRpcs, .decrement, .test, .setDone]) = some s ∧
      ∀ t, Reachable step s t → t.WaitsOnNothing := by
  have hwedge : (Machine.run step (start oneShard [0])
      (answeredOnce ++ [.erase, .testRpcs, .decrement, .test, .setDone])).any
        (fun s => s.WaitsOnNothing ∧ s.queue = []) = true := by
    decide +kernel
  obtain ⟨s, hrun, hs⟩ := (Option.any_eq_true _ _).mp hwedge
  obtain ⟨hwaits, hqueue⟩ := of_decide_eq_true hs
  exact ⟨s, hrun, fun t hreach => waits_forever hwaits hqueue hreach⟩

/-- Two shards and one mapper. The second response comes in behind the loop, the thread finds that
the dispatcher is not done, and the response is cleared before the thread tests `nrpcs`. -/
example :
    (Machine.run step (start { oneShard with shards := [⟨0, []⟩, ⟨1, []⟩] } [0, 1])
      [.dispatch 0, .dispatch 0, .testDone, .testRpcs, .rpcCompletes ⟨0, 0⟩ (.ok [] []),
        .nextReturns, .allDispatched, .received, .erase, .decrement, .testDone, .testRpcs, .test,
        .rpcCompletes ⟨1, 0⟩ (.ok [] []), .nextReturns, .testDone, .setDone, .clear,
        .testRpcs]).any (fun s => s.WaitsOnNothing) = true := by
  decide +kernel

end MapThreads

end MapReduce
