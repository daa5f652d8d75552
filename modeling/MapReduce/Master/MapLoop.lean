import MapReduce.Master.MapDispatch

/-!
# The loop of `dispatchMapTasks`

`MapDispatch` leaves the order of the steps open. Here the program counter of the dispatcher is
added: it sends tasks until the queue is empty or more than ten calls are out, spins until
`responseList` is not empty, handles responses until the list is empty, and leaves the loop when
`m_IntermediateResultMap` has as many entries as there are mappers. The completion thread may
step at any point before the loop is left.

Every run of the loop is a run of the dispatcher (`data_reachable`), which gives its invariants.
What can go wrong is shown by building runs: `pass` says that from a pass of the loop that starts
with nothing outstanding, the environment can complete any number of the tasks sent.
-/

namespace MapReduce

open Machine (Reachable)

/-- The program counter of `dispatchMapTasks`. -/
inductive MapPc where
  | dispatching
  | waiting
  | handling
  | exited
  deriving DecidableEq, Repr

/-- A dispatcher with its program counter. -/
structure MapLoop where
  pc : MapPc
  data : MapDispatch

/-- The steps of the loop. `allDispatched` and `received` are the points where the source logs
these words; `test` is the exit test. -/
inductive LoopLabel where
  | dispatch (client : ClientId)
  | allDispatched
  | complete (call : MapCall) (outcome : MapOutcome)
  | received
  | handle
  | test
  deriving DecidableEq, Repr

namespace MapLoop

/-- The loop on entry. -/
def enter (s : MapDispatch) : MapLoop := ⟨.dispatching, s⟩

/-- One step of the loop or of the completion thread. -/
def step (s : MapLoop) : LoopLabel → Option MapLoop
  | .dispatch client =>
      if s.pc = .dispatching then
        (s.data.step (.dispatch client)).map fun data => { s with data := data }
      else none
  | .allDispatched =>
      if s.pc = .dispatching ∧ (s.data.jobQ = [] ∨ s.data.nrpcs > 10) then
        some { s with pc := .waiting }
      else none
  | .complete call outcome =>
      if s.pc ≠ .exited then
        (s.data.step (.complete call outcome)).map fun data => { s with data := data }
      else none
  | .received =>
      if s.pc = .waiting ∧ s.data.responseList ≠ [] then some { s with pc := .handling }
      else none
  | .handle =>
      if s.pc = .handling then
        (s.data.step .handle).map fun data => { s with data := data }
      else none
  | .test =>
      if s.pc = .handling ∧ s.data.responseList = [] then
        some { s with
          pc := if (s.data.intermediateResultMap.size : Int) = s.data.nmappers then .exited
            else .dispatching }
      else none

/-- The effect of one step of the loop, one case for each branch of the source. -/
inductive Effect (s : MapLoop) : LoopLabel → MapLoop → Prop where
  | dispatch (client : ClientId) (data : MapDispatch) :
      s.pc = .dispatching → s.data.step (.dispatch client) = some data →
      Effect s (.dispatch client) { s with data := data }
  | complete (call : MapCall) (outcome : MapOutcome) (data : MapDispatch) :
      s.pc ≠ .exited → s.data.step (.complete call outcome) = some data →
      Effect s (.complete call outcome) { s with data := data }
  | handle (data : MapDispatch) :
      s.pc = .handling → s.data.step .handle = some data →
      Effect s .handle { s with data := data }
  | allDispatched :
      s.pc = .dispatching → s.data.jobQ = [] ∨ s.data.nrpcs > 10 →
      Effect s .allDispatched { s with pc := .waiting }
  | received :
      s.pc = .waiting → s.data.responseList ≠ [] →
      Effect s .received { s with pc := .handling }
  | exit :
      s.pc = .handling → s.data.responseList = [] →
      (s.data.intermediateResultMap.size : Int) = s.data.nmappers →
      Effect s .test { s with pc := .exited }
  | again :
      s.pc = .handling → s.data.responseList = [] →
      (s.data.intermediateResultMap.size : Int) ≠ s.data.nmappers →
      Effect s .test { s with pc := .dispatching }

/-- Every step has one of the effects. -/
theorem step_effect {s t : MapLoop} {l : LoopLabel} (h : s.step l = some t) : s.Effect l t := by
  cases l with
  | dispatch client =>
      simp only [step, Option.ite_none_right_eq_some, Option.map_eq_some_iff] at h
      obtain ⟨hpc, data, hdata, rfl⟩ := h
      exact .dispatch client data hpc hdata
  | complete call outcome =>
      simp only [step, Option.ite_none_right_eq_some, Option.map_eq_some_iff] at h
      obtain ⟨hpc, data, hdata, rfl⟩ := h
      exact .complete call outcome data hpc hdata
  | handle =>
      simp only [step, Option.ite_none_right_eq_some, Option.map_eq_some_iff] at h
      obtain ⟨hpc, data, hdata, rfl⟩ := h
      exact .handle data hpc hdata
  | allDispatched =>
      simp only [step, Option.ite_none_right_eq_some, Option.some.injEq] at h
      obtain ⟨⟨hpc, hguard⟩, rfl⟩ := h
      exact .allDispatched hpc hguard
  | received =>
      simp only [step, Option.ite_none_right_eq_some, Option.some.injEq] at h
      obtain ⟨⟨hpc, hguard⟩, rfl⟩ := h
      exact .received hpc hguard
  | test =>
      simp only [step, Option.ite_none_right_eq_some, Option.some.injEq] at h
      obtain ⟨⟨hpc, hguard⟩, rfl⟩ := h
      split
      · exact .exit hpc hguard ‹_›
      · exact .again hpc hguard ‹_›

/-- What the effects of the dispatcher keep, a step of the loop keeps. -/
theorem data_invariant {P : MapDispatch → Prop} {s t : MapLoop} {l : LoopLabel}
    (keep : ∀ {k d}, s.data.Effect k d → P d) (hs : P s.data) (h : s.step l = some t) :
    P t.data := by
  cases step_effect h with
  | dispatch _ data _ hdata | complete _ _ data _ hdata | handle data _ hdata =>
      exact keep (MapDispatch.step_effect hdata)
  | allDispatched | received | exit | again => exact hs

/-- Every run of the loop is a run of the dispatcher. -/
theorem data_reachable {s t : MapLoop} (h : Reachable step s t) :
    Reachable MapDispatch.step s.data t.data := by
  refine h.simulation (I := fun _ => True) trivial (fun _ _ _ _ _ => trivial) ?_
  intro m l t _ hstep
  cases step_effect hstep with
  | dispatch _ data _ hdata | complete _ _ data _ hdata | handle data _ hdata =>
      exact .head hdata (.refl _)
  | allDispatched | received | exit | again => exact .refl _

/-- The loop is only left through its exit test. -/
theorem exited_size {s₀ : MapDispatch} {s : MapLoop} (h : Reachable step (enter s₀) s)
    (hpc : s.pc = .exited) : (s.data.intermediateResultMap.size : Int) = s.data.nmappers := by
  refine h.invariant (motive := fun s => s.pc = .exited →
    (s.data.intermediateResultMap.size : Int) = s.data.nmappers) (fun hstart => ?_) ?_ hpc
  · cases hstart
  · intro m l t hm hstep
    cases step_effect hstep with
    | dispatch _ _ hat | handle _ hat => exact fun hpc => by simp [hat] at hpc
    | complete _ _ _ hat => exact fun hpc => absurd hpc hat
    | allDispatched | received | again => exact fun hpc => by cases hpc
    | exit _ _ heq => exact fun _ => heq

/-! ## The invariants of a pass -/

/-- A dispatcher whose tasks and counter are in order. -/
structure Sound (s : MapDispatch) : Prop where
  pool : s.PoolInv
  counter : s.CounterInv

/-- The entry of `dispatchMapTasks` is in order. -/
theorem Sound.of_entry {s : MapDispatch} (hs : s.Entry) : Sound s := ⟨hs.poolInv, hs.counterInv⟩

/-- A loop keeps its dispatcher in order, and changes neither the shards nor the number of
mappers nor the number of tasks. -/
theorem Sound.reachable {s t : MapLoop} (hs : Sound s.data) (h : Reachable step s t) :
    Sound t.data ∧ t.data.shards = s.data.shards ∧ t.data.nmappers = s.data.nmappers ∧
      t.data.tasks = s.data.tasks := by
  refine (data_reachable h).invariant (motive := fun t => Sound t ∧ t.shards = s.data.shards ∧
    t.nmappers = s.data.nmappers ∧ t.tasks = s.data.tasks) ⟨hs, rfl, rfl, rfl⟩ ?_
  intro m l t hinv hstep
  obtain ⟨hm, hshards, hn, htasks⟩ := hinv
  have heffect := MapDispatch.step_effect hstep
  exact ⟨⟨hm.pool.step heffect, hm.counter.step heffect⟩, heffect.shards_eq.trans hshards,
    heffect.nmappers_eq.trans hn, (heffect.tasks_eq hm.pool).trans htasks⟩

/-! ## Building a pass -/

/-- The dispatcher can send tasks until the queue is empty or more than ten calls are out. -/
theorem fill {s : MapLoop} (hs : Sound s.data) (hpc : s.pc = .dispatching) :
    ∃ t, Reachable step s t ∧ t.pc = .dispatching ∧
      t.data.responseList = s.data.responseList ∧
      t.data.intermediateResultMap = s.data.intermediateResultMap ∧
      (t.data.jobQ = [] ∨ t.data.nrpcs > 10) := by
  generalize hq : s.data.jobQ = q
  induction q generalizing s with
  | nil => exact ⟨s, .refl s, hpc, rfl, rfl, Or.inl hq⟩
  | cons i q ih =>
      by_cases hn : s.data.nrpcs > 10
      · exact ⟨s, .refl s, hpc, rfl, rfl, Or.inr hn⟩
      · obtain ⟨shard, hshard, -⟩ := hs.pool.queued_shard (i := i) (by simp [hq])
        have hstep : s.step (.dispatch 0) = some { s with data := { s.data with
            inFlight := s.data.inFlight ++ [⟨shard.shardId, 0⟩]
            nrpcs := s.data.nrpcs + 1
            jobQ := q } } := by
          simp [step, hpc, MapDispatch.step, hq, hn, hshard]
        have hone := Reachable.head hstep (.refl _)
        obtain ⟨t, hreach, ht⟩ := ih (hs.reachable hone).1 hpc rfl
        exact ⟨t, hone.trans hreach, ht⟩

/-- The completion thread can answer every call in flight, `j` of them with success. -/
theorem answer_all {s : MapLoop} (hs : Sound s.data) (hpc : s.pc ≠ .exited) {j : Nat}
    (hj : j ≤ s.data.inFlight.length) :
    ∃ t, Reachable step s t ∧ t.pc = s.pc ∧ t.data.inFlight = [] ∧ t.data.jobQ = s.data.jobQ ∧
      t.data.intermediateResultMap = s.data.intermediateResultMap ∧
      t.data.nrpcs = s.data.nrpcs ∧
      (MapDispatch.successes t.data.responseList).length =
        (MapDispatch.successes s.data.responseList).length + j := by
  generalize hf : s.data.inFlight = calls
  induction calls generalizing s j with
  | nil =>
      obtain rfl : j = 0 := by simpa [hf] using hj
      exact ⟨s, .refl s, rfl, hf, rfl, rfl, rfl, rfl⟩
  | cons call calls ih =>
      have hn : s.data.nrpcs > s.data.responseList.length := by
        rw [hs.counter.nrpcs_eq, hf, List.length_cons]
        omega
      rw [hf, List.length_cons] at hj
      cases j with
      | zero =>
          have hstep : s.step (.complete call (.error 4)) = some { s with data := { s.data with
              inFlight := calls
              responseList := s.data.responseList ++ [call.result (.error 4)] } } := by
            simp [step, hpc, MapDispatch.step, hf, hn, MapCall.result]
          have hone := Reachable.head hstep (.refl _)
          obtain ⟨t, hreach, hpc', hinFlight, hjobQ, hmap, hnrpcs, hsucc⟩ :=
            ih (j := 0) (hs.reachable hone).1 hpc (Nat.zero_le _) rfl
          refine ⟨t, hone.trans hreach, hpc', hinFlight, hjobQ, hmap, hnrpcs, ?_⟩
          simpa [MapDispatch.successes, MapCall.result] using hsucc
      | succ j =>
          have hstep : s.step (.complete call (.ok [] [])) = some { s with data := { s.data with
              inFlight := calls
              responseList := s.data.responseList ++ [call.result (.ok [] [])]
              replData := true
              replList := s.data.replList ++ [call.result (.ok [] [])] } } := by
            simp [step, hpc, MapDispatch.step, hf, hn, MapCall.result]
          have hone := Reachable.head hstep (.refl _)
          obtain ⟨t, hreach, hpc', hinFlight, hjobQ, hmap, hnrpcs, hsucc⟩ :=
            ih (j := j) (hs.reachable hone).1 hpc (by simpa using hj) rfl
          refine ⟨t, hone.trans hreach, hpc', hinFlight, hjobQ, hmap, hnrpcs, ?_⟩
          simp only [MapDispatch.successes, MapCall.result, List.filter_append,
            List.length_append] at hsucc ⊢
          simp only [hsucc]
          simp
          omega

/-- The dispatcher handles the whole response list, and its successes become entries. -/
theorem drain {s : MapLoop} (hs : Sound s.data) (hpc : s.pc = .handling) :
    ∃ t, Reachable step s t ∧ t.pc = .handling ∧ t.data.responseList = [] ∧
      t.data.inFlight = s.data.inFlight ∧
      t.data.intermediateResultMap.size = s.data.intermediateResultMap.size +
        (MapDispatch.successes s.data.responseList).length := by
  generalize hlist : s.data.responseList = rs
  induction rs generalizing s with
  | nil => exact ⟨s, .refl s, hpc, hlist, rfl, by simp [MapDispatch.successes]⟩
  | cons res rs ih =>
      by_cases hstatus : res.status = .success
      · have hmem := hs.pool.not_answered (show res ∈ s.data.responseList by simp [hlist])
        have hstep : s.step .handle = some { s with data := { s.data with
            responseList := rs
            nrpcs := s.data.nrpcs - 1
            intermediateResultMap := s.data.intermediateResultMap.insertIfNew res.shardId res
            intblobList := s.data.intblobList ++ res.blobList
            intcontainer := res.cname } } := by
          simp [step, hpc, MapDispatch.step, hlist, hstatus, hmem]
        have hone := Reachable.head hstep (.refl _)
        obtain ⟨t, hreach, hpc', hresp, hinFlight, hsize⟩ := ih (hs.reachable hone).1 hpc rfl
        refine ⟨t, hone.trans hreach, hpc', hresp, hinFlight, ?_⟩
        simp only [size_emplace hmem] at hsize
        rw [hsize]
        simp only [MapDispatch.successes, List.filter_cons, hstatus, decide_true, if_true,
          List.length_cons]
        omega
      · have hstep : s.step .handle = some { s with data := { s.data with
            responseList := rs
            nrpcs := s.data.nrpcs - 1
            jobQ := s.data.jobQ ++ [res.shardId] } } := by
          simp [step, hpc, MapDispatch.step, hlist, hstatus]
        have hone := Reachable.head hstep (.refl _)
        obtain ⟨t, hreach, hpc', hresp, hinFlight, hsize⟩ := ih (hs.reachable hone).1 hpc rfl
        refine ⟨t, hone.trans hreach, hpc', hresp, hinFlight, hsize.trans ?_⟩
        simp [MapDispatch.successes, hstatus]

/-- Nothing is outstanding: no call is in flight and no response waits. -/
def Idle (s : MapDispatch) : Prop := s.inFlight = [] ∧ s.responseList = []

/-- The tasks of an idle dispatcher are queued or done. -/
theorem Idle.tasks_eq {s : MapDispatch} (h : Idle s) :
    s.tasks = s.jobQ.length + s.intermediateResultMap.size := by
  simp [MapDispatch.tasks, h.1, h.2]

/-- From the start of a pass with nothing outstanding, the loop can come to its exit test with
nothing outstanding and `j` more shards done, for every `j` the throttle admits. -/
theorem pass {s : MapLoop} (hs : Sound s.data) (hidle : Idle s.data) (hpc : s.pc = .dispatching)
    (hq : s.data.jobQ ≠ []) {j : Nat} (hj : j ≤ min 11 s.data.jobQ.length) :
    ∃ t, Reachable step s t ∧ t.pc = .handling ∧ Idle t.data ∧
      t.data.intermediateResultMap.size = s.data.intermediateResultMap.size + j := by
  obtain ⟨t₁, h₁, hpc₁, hresp₁, hmap₁, hfull⟩ := fill hs hpc
  obtain ⟨hs₁, -, -, htasks₁⟩ := hs.reachable h₁
  have hnrpcs := hs₁.counter.nrpcs_eq
  have hlen : 1 ≤ t₁.data.inFlight.length ∧ j ≤ t₁.data.inFlight.length := by
    have hpos := List.length_pos_iff.mpr hq
    rw [hidle.tasks_eq] at htasks₁
    simp only [MapDispatch.tasks, hresp₁, hidle.2, hmap₁, List.length_nil] at htasks₁ hnrpcs
    rcases hfull with hnil | hmany
    · simp only [hnil, List.length_nil] at htasks₁
      omega
    · omega
  have hwait : t₁.step .allDispatched = some { t₁ with pc := .waiting } := by
    simp [step, hpc₁, hfull]
  have h₂ := h₁.trans (.head hwait (.refl _))
  obtain ⟨t₃, h₃, hpc₃, hinFlight₃, hjobQ₃, hmap₃, hnrpcs₃, hsucc⟩ :=
    answer_all (s := { t₁ with pc := .waiting }) hs₁ (by simp) hlen.2
  have hs₃ := (hs.reachable (h₂.trans h₃)).1
  have hresp₃ : t₃.data.responseList ≠ [] := by
    intro hnil
    have hcount := hs₃.counter.nrpcs_eq
    simp only [hinFlight₃, hnil, hnrpcs₃, List.length_nil] at hcount
    omega
  have hreceive : t₃.step .received = some { t₃ with pc := .handling } := by
    simp [step, hpc₃, hresp₃]
  obtain ⟨t₅, h₅, hpc₅, hresp₅, hinFlight₅, hsize⟩ :=
    drain (s := { t₃ with pc := .handling }) hs₃ rfl
  refine ⟨t₅, (h₂.trans h₃).trans (.head hreceive h₅), hpc₅, ⟨hinFlight₅.trans hinFlight₃, hresp₅⟩,
    ?_⟩
  simp only [hmap₃, hmap₁] at hsize
  simp only [hresp₁, hidle.2, MapDispatch.successes, List.filter_nil, List.length_nil,
    Nat.zero_add] at hsucc
  rw [hsize, MapDispatch.successes, hsucc]

/-- The loop can be left with exactly as many shards done as there are mappers. -/
theorem reach_exit {s : MapLoop} (hs : Sound s.data) (hidle : Idle s.data)
    (hpc : s.pc = .dispatching)
    (hlt : (s.data.intermediateResultMap.size : Int) < s.data.nmappers)
    (hle : s.data.nmappers ≤ s.data.tasks) :
    ∃ t, Reachable step s t ∧ t.pc = .exited ∧ Idle t.data ∧
      (t.data.intermediateResultMap.size : Int) = s.data.nmappers := by
  generalize hd : (s.data.nmappers - s.data.intermediateResultMap.size).toNat = d
  induction d using Nat.strong_induction_on generalizing s with
  | _ d ih =>
      have htasks := hidle.tasks_eq
      have hq : s.data.jobQ ≠ [] := fun hnil => by
        simp only [hnil, List.length_nil] at htasks
        omega
      have hpos := List.length_pos_iff.mpr hq
      obtain ⟨t, hreach, hpc', hidle', hsize⟩ :=
        pass hs hidle hpc hq (j := min (min 11 s.data.jobQ.length) d) (by omega)
      obtain ⟨ht, -, hn, htasks'⟩ := hs.reachable hreach
      by_cases heq : (t.data.intermediateResultMap.size : Int) = t.data.nmappers
      · have htest : t.step .test = some { t with pc := .exited } := by
          simp [step, hpc', hidle'.2, heq]
        exact ⟨_, hreach.trans (.head htest (.refl _)), rfl, hidle', heq.trans hn⟩
      · have htest : t.step .test = some { t with pc := .dispatching } := by
          simp [step, hpc', hidle'.2, heq]
        obtain ⟨u, hreach', hu⟩ := ih (t.data.nmappers - t.data.intermediateResultMap.size).toNat
          (by omega) (s := { t with pc := .dispatching }) ht hidle' rfl (by simp only; omega)
          (by simp only; omega) rfl
        rw [← hn]
        exact ⟨u, (hreach.trans (.head htest (.refl _))).trans hreach', hu⟩

/-- The loop waits although nothing is outstanding. -/
def Stuck (s : MapLoop) : Prop := s.pc = .waiting ∧ Idle s.data

/-- Unless there are as many tasks as mappers, the loop can come to wait with nothing
outstanding. -/
theorem reach_stuck {s : MapLoop} (hs : Sound s.data) (hidle : Idle s.data)
    (hpc : s.pc = .dispatching) (hne : (s.data.tasks : Int) ≠ s.data.nmappers) :
    ∃ t, Reachable step s t ∧ Stuck t := by
  generalize hd : s.data.jobQ.length = d
  induction d using Nat.strong_induction_on generalizing s with
  | _ d ih =>
      have htasks := hidle.tasks_eq
      by_cases hq : s.data.jobQ = []
      · have hwait : s.step .allDispatched = some { s with pc := .waiting } := by
          simp [step, hpc, hq]
        exact ⟨_, .head hwait (.refl _), rfl, hidle⟩
      -- one of the calls fails where their number would take the loop to its exit
      · have hpos := List.length_pos_iff.mpr hq
        obtain ⟨j, hj, hj', hmiss⟩ : ∃ j, 1 ≤ j ∧ j ≤ min 11 s.data.jobQ.length ∧
            ((s.data.intermediateResultMap.size + j : Nat) : Int) ≠ s.data.nmappers := by
          by_cases hall : ((s.data.intermediateResultMap.size + min 11 s.data.jobQ.length : Nat) :
              Int) = s.data.nmappers
          · exact ⟨min 11 s.data.jobQ.length - 1, by omega, by omega, by omega⟩
          · exact ⟨min 11 s.data.jobQ.length, by omega, by omega, hall⟩
        obtain ⟨t, hreach, hpc', hidle', hsize⟩ := pass hs hidle hpc hq hj'
        obtain ⟨ht, -, hn, htasks'⟩ := hs.reachable hreach
        have htest : t.step .test = some { t with pc := .dispatching } := by
          rw [← hsize, ← hn] at hmiss
          simp [step, hpc', hidle'.2, hmiss]
        have hfewer := hidle'.tasks_eq
        obtain ⟨u, hreach', hu⟩ := ih t.data.jobQ.length (by omega)
          (s := { t with pc := .dispatching }) ht hidle' rfl (by rw [htasks', hn]; exact hne) rfl
        exact ⟨u, (hreach.trans (.head htest (.refl _))).trans hreach', hu⟩

/-! ## When the loop never waits in vain -/

/-- While tasks are sent not all shards are done, and the loop only waits when the queue is empty
or more than ten calls are out. -/
structure Unfinished (s : MapLoop) : Prop where
  dispatching : s.pc = .dispatching →
    (s.data.intermediateResultMap.size : Int) ≠ s.data.nmappers
  waiting : s.pc = .waiting → (s.data.intermediateResultMap.size : Int) ≠ s.data.nmappers ∧
    (s.data.jobQ = [] ∨ s.data.nrpcs > 10)

/-- A step keeps the loop unfinished until its exit test says otherwise. -/
theorem Unfinished.step {s t : MapLoop} {l : LoopLabel} (hs : Unfinished s)
    (h : s.step l = some t) : Unfinished t := by
  cases step_effect h with
  | dispatch client data hpc hdata =>
      refine ⟨fun _ => ?_, fun hwait => by simp [hpc] at hwait⟩
      cases MapDispatch.step_effect hdata
      exact hs.dispatching hpc
  | complete call outcome data hpc hdata =>
      cases MapDispatch.step_effect hdata with
      | succeed | fail => exact ⟨hs.dispatching, hs.waiting⟩
  | handle data hpc hdata => exact ⟨fun h => by simp [hpc] at h, fun h => by simp [hpc] at h⟩
  | allDispatched hpc hguard => exact ⟨fun h => by simp at h, fun _ => ⟨hs.dispatching hpc, hguard⟩⟩
  | received => exact ⟨fun h => by simp at h, fun h => by simp at h⟩
  | exit => exact ⟨fun h => by simp at h, fun h => by simp at h⟩
  | again _ _ hne => exact ⟨fun _ => hne, fun h => by simp at h⟩

/-- From the entry of `dispatchMapTasks`, the loop never waits with nothing outstanding exactly if
the tasks are as many as the mappers and one of them is still to be done. -/
theorem never_stuck_iff {s₀ : MapDispatch} (hs : s₀.Entry) :
    (∀ s, Reachable step (enter s₀) s → ¬ Stuck s) ↔
      (s₀.tasks : Int) = s₀.nmappers ∧ s₀.jobQ ≠ [] := by
  have hsound := Sound.of_entry hs
  have hidle : Idle s₀ := ⟨hs.inFlight, hs.responseList⟩
  constructor
  · intro hnever
    constructor
    · by_contra hne
      obtain ⟨t, hreach, hstuck⟩ := reach_stuck (s := enter s₀) hsound hidle rfl hne
      exact hnever t hreach hstuck
    · intro hq
      have hwait : (enter s₀).step .allDispatched = some ⟨.waiting, s₀⟩ := by
        simp [step, enter, hq]
      exact hnever _ (.head hwait (.refl _)) ⟨rfl, hidle⟩
  · intro hcond s hreach hstuck
    obtain ⟨heq, hq⟩ := hcond
    obtain ⟨hpc, hnone⟩ := hstuck
    have hstart : Unfinished (enter s₀) := by
      have hpos := List.length_pos_iff.mpr hq
      rw [hidle.tasks_eq] at heq
      exact ⟨fun _ => by simp only [enter]; omega, fun h => by simp [enter] at h⟩
    have hunfinished : Unfinished s :=
      hreach.invariant hstart fun m l t hm hstep => hm.step hstep
    obtain ⟨hs', -, hn, htasks⟩ := Sound.reachable (s := enter s₀) hsound hreach
    obtain ⟨hsize, hguard⟩ := hunfinished.waiting hpc
    have hcount := hs'.counter.nrpcs_eq
    simp only [hnone.1, hnone.2, List.length_nil] at hcount
    have hrest := hnone.tasks_eq
    simp only [enter] at hn htasks
    rcases hguard with hnil | hmany
    · simp only [hnil, List.length_nil] at hrest
      omega
    · omega

end MapLoop

end MapReduce
