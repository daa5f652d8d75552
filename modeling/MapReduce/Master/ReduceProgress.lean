import MapReduce.Master.ReduceThreads
import MapReduce.Shuffle

/-!
# The reduce phase can always end

Whatever calls of the reduce phase have failed and however its two threads have interleaved, there
is a way on that ends it. Read `reduce_can_end` first.

The dispatcher without half steps has such a way (`can_exit`): it ends its round, and the next
rounds dispatch at least one task each, which succeed. Its threads can follow it (`follows`), once
the calls that have completed already are received (`flush`).
-/

namespace MapReduce

open Machine (Reachable Drives run)

/-! ## The rounds of the dispatcher -/

namespace ReduceDispatch

/-- A step where tasks are sent to the given client only, and calls succeed with the given reply. -/
def Uses (client : ClientId) (reply : Str × Str) (_ : ReduceDispatch) : ReduceLabel → Prop
  | .dispatch c => c = client
  | .complete _ outcome => outcome = .ok reply.1 reply.2
  | _ => True

variable {m : Master} {s : ReduceDispatch}

/-- The blobs are those of the master, and the iterator does not run past the end. -/
structure Fixed (m : Master) (s : ReduceDispatch) : Prop where
  intblobs : s.intblobList = m.intblobList
  itr : ∀ itr, s.pc = .collecting itr → itr ≤ s.responseList.length

/-- What is fixed stays fixed. -/
theorem Fixed.reachable (h : Reachable step (runReducer m) s) : Fixed m s := by
  refine h.invariant (motive := Fixed m) ⟨rfl, fun itr hpc => by cases hpc⟩ ?_
  intro s l t hs hstep
  cases step_effect hstep with
  | dispatch client jobid jobQ blobs hpc hq => exact ⟨hs.intblobs, hs.itr⟩
  | allDispatched | exit | again => exact ⟨hs.intblobs, fun itr hpc => by cases hpc⟩
  | complete call outcome hpc hcall =>
      refine ⟨hs.intblobs, fun itr hat => ?_⟩
      have hle := hs.itr itr hat
      rw [List.length_append]
      omega
  | received hlen =>
      refine ⟨hs.intblobs, fun itr hat => ?_⟩
      cases hat
      exact Nat.zero_le _
  | requeue itr res hpc hres hstatus =>
      obtain ⟨hlt, -⟩ := List.getElem?_eq_some_iff.mp hres
      refine ⟨hs.intblobs, fun itr' hat => ?_⟩
      cases hpc.symm.trans hat
      rw [List.length_eraseIdx_of_lt hlt]
      omega
  | keep itr res hpc hres hstatus =>
      obtain ⟨hlt, -⟩ := List.getElem?_eq_some_iff.mp hres
      refine ⟨hs.intblobs, fun itr' hat => ?_⟩
      cases hat
      exact hlt

/-- The responses that are no successes. -/
def fails (responseList : List ReduceResult) : Nat :=
  responseList.countP fun res => res.status ≠ .success

/-- No response failed. -/
theorem fails_eq_zero {rs : List ReduceResult} :
    fails rs = 0 ↔ ∀ res ∈ rs, res.status = .success := by
  simp [fails, List.countP_eq_zero]

/-- The failed responses with one more. -/
theorem fails_append (rs : List ReduceResult) (res : ReduceResult) :
    fails (rs ++ [res]) = fails rs + if res.status = .success then 0 else 1 := by
  by_cases h : res.status = .success <;> simp [fails, h]

/-- A failed response is taken out. -/
theorem fails_erase {rs : List ReduceResult} {itr : Nat} {res : ReduceResult}
    (hres : rs[itr]? = some res) (hstatus : res.status ≠ .success) :
    fails rs = fails (rs.eraseIdx itr) + 1 := by
  obtain ⟨hlt, rfl⟩ := List.getElem?_eq_some_iff.mp hres
  have hperm := (List.getElem_cons_eraseIdx_perm hlt).countP_eq
    fun res => decide (res.status ≠ .success)
  rw [List.countP_cons, if_pos (by simpa using hstatus)] at hperm
  exact hperm.symm

/-- When the loop is left, each reducer has an output. -/
theorem mem_outputs_exited (hs : Reachable step (runReducer m) s) (hpc : s.pc = .exited) (i : Int) :
    i ∈ s.outputResultMap ↔ 0 ≤ i ∧ i < m.nreducers := by
  obtain ⟨hq, hnone, hsuccess, houtput⟩ := (RoundInv.reachable hs).exited hpc
  have hcount := reachable_count hs i
  simp only [hq, hnone, List.map_nil, List.count_nil, Nat.zero_add] at hcount
  have hmem : i ∈ s.responseList.map ReduceResult.jobid ↔ 0 ≤ i ∧ i < m.nreducers := by
    rw [← List.count_pos_iff, hcount]
    split <;> simp [*]
  rw [houtput, mem_outputs, ← hmem, List.mem_map]
  exact exists_congr fun res => and_congr_right fun hres => by simp [hsuccess res hres]

section Rounds

variable (hnames : ∀ item ∈ m.intblobList, reducerOf item ≠ none) (client : ClientId)
  (reply : Str × Str)

include hnames in
/-- The front of `job_q` can be dispatched, unless too many calls are unanswered. -/
theorem dispatch_step (hs : Reachable step (runReducer m) s) (hpc : s.pc = .dispatching)
    {jobid : Int} {jobQ : List Int} (hq : s.jobQ = jobid :: jobQ)
    (hfew : ¬s.unanswered > s.clients.length) :
    ∃ call, s.step (.dispatch client) = some { s with
      inFlight := s.inFlight ++ [call]
      nrpcs := s.nrpcs + 1
      jobQ := jobQ } := by
  have hblobs := (Fixed.reachable hs).intblobs
  have hvec := reduce_blob_vec_eq (hblobs ▸ hnames) jobid
  exact ⟨_, by simp only [step, hq, hpc, hfew, hvec]; rfl⟩

include hnames in
/-- The dispatcher comes to wait for responses. If no call was in flight, it has dispatched a
task. -/
theorem dispatch_all (hs : Reachable step (runReducer m) s) (hpc : s.pc = .dispatching) :
    ∃ t, Drives step (Uses client reply) s t ∧ t.pc = .waiting ∧ t.responseList = s.responseList ∧
      t.jobQ.length ≤ s.jobQ.length ∧
      (s.inFlight = [] → s.jobQ ≠ [] → t.jobQ.length < s.jobQ.length) := by
  generalize hn : s.jobQ.length = n
  induction n generalizing s with
  | zero =>
      have hq : s.jobQ = [] := List.length_eq_zero_iff.mp hn
      refine ⟨{ s with pc := .waiting }, .one (l := .allDispatched) (if_pos ⟨hpc, .inl hq⟩)
        trivial, rfl, rfl, Nat.le_of_eq hn, fun _ hne => absurd hq hne⟩
  | succ n ih =>
      by_cases hfew : s.unanswered > s.clients.length
      · refine ⟨{ s with pc := .waiting }, .one (l := .allDispatched) (if_pos ⟨hpc, .inr hfew⟩)
          trivial, rfl, rfl, Nat.le_of_eq hn, fun hnone _ => ?_⟩
        -- nothing is unanswered, which is not more than there are clients
        have hcount := (RoundInv.reachable hs).nrpcs_eq
        rw [hnone, List.length_nil] at hcount
        unfold unanswered at hfew
        omega
      · obtain ⟨jobid, jobQ, hq⟩ := List.exists_cons_of_length_eq_add_one hn
        obtain ⟨call, hstep⟩ := dispatch_step hnames client hs hpc hq hfew
        obtain ⟨t, hdrive, hwaits, hlist, hle, -⟩ := ih (hs.trans (.head hstep (.refl _))) hpc (by
          rw [hq] at hn
          exact Nat.succ.inj hn)
        refine ⟨t, .trans (.one hstep rfl) hdrive, hwaits, hlist,
          by omega, fun _ _ => by omega⟩

/-- All calls in flight can succeed. -/
theorem complete_all (hs : Reachable step (runReducer m) s) (hpc : s.pc = .waiting) :
    ∃ t, Drives step (Uses client reply) s t ∧ t.pc = .waiting ∧ t.inFlight = [] ∧ t.jobQ = s.jobQ ∧
      fails t.responseList = fails s.responseList := by
  generalize hn : s.inFlight.length = n
  induction n generalizing s with
  | zero => exact ⟨s, .refl s, hpc, List.length_eq_zero_iff.mp hn, rfl, rfl⟩
  | succ n ih =>
      obtain ⟨call, rest, hflight⟩ := List.exists_cons_of_length_eq_add_one hn
      have hmem : call ∈ s.inFlight := by simp [hflight]
      have hcount := (RoundInv.reachable hs).nrpcs_eq
      have hstep : s.step (.complete call (.ok reply.1 reply.2)) = some { s with
          inFlight := s.inFlight.erase call
          responseList := s.responseList ++ [call.result (.ok reply.1 reply.2)] } :=
        if_pos ⟨by simp [hpc], hmem, by omega⟩
      obtain ⟨t, hdrive, hwaits, hnone, hq, hfails⟩ := ih (hs.trans (.head hstep (.refl _))) hpc (by
        rw [List.length_erase_of_mem hmem]
        omega)
      refine ⟨t, .trans (.one hstep rfl) hdrive, hwaits, hnone, hq, ?_⟩
      rw [hfails, fails_append]
      rfl

/-- The responses of a round are collected: the tasks of the failed ones are queued again. -/
theorem collect_all (hs : Reachable step (runReducer m) s) {itr : Nat}
    (hpc : s.pc = .collecting itr) :
    ∃ t, Drives step (Uses client reply) s t ∧ t.pc = .collecting t.responseList.length ∧
      t.jobQ.length = s.jobQ.length + fails s.responseList := by
  generalize hn : s.responseList.length - itr = n
  induction n generalizing s itr with
  | zero =>
      have hitr := (Fixed.reachable hs).itr itr hpc
      obtain rfl : itr = s.responseList.length := by omega
      have hpassed := ((RoundInv.reachable hs).collecting _ hpc).2
      rw [List.take_length] at hpassed
      exact ⟨s, .refl s, hpc, by rw [fails_eq_zero.mpr hpassed]; rfl⟩
  | succ n ih =>
      have hlt : itr < s.responseList.length := by omega
      have hres := List.getElem?_eq_getElem hlt
      by_cases hstatus : s.responseList[itr].status = .success
      · have hstep : s.step .collect = some { s with pc := .collecting (itr + 1) } := by
          simp [step, hpc, hres, hstatus]
        obtain ⟨t, hdrive, hend, hq⟩ := ih (hs.trans (.head hstep (.refl _))) rfl (by
          show s.responseList.length - (itr + 1) = n
          omega)
        exact ⟨t, .trans (.one hstep trivial) hdrive, hend, hq⟩
      · have hstep : s.step .collect = some { s with
            jobQ := s.jobQ ++ [s.responseList[itr].jobid]
            responseList := s.responseList.eraseIdx itr
            nrpcs := s.nrpcs - 1 } := by
          simp [step, hpc, hres, hstatus]
        obtain ⟨t, hdrive, hend, hq⟩ := ih (hs.trans (.head hstep (.refl _))) hpc (by
          show (s.responseList.eraseIdx itr).length - itr = n
          rw [List.length_eraseIdx_of_lt hlt]
          omega)
        refine ⟨t, .trans (.one hstep trivial) hdrive, hend, ?_⟩
        have hcount := fails_erase hres hstatus
        dsimp only at hq
        rw [List.length_append, List.length_singleton] at hq
        omega

/-- A round ends with an exit, or the next one starts without a failed response. -/
theorem end_round (hs : Reachable step (runReducer m) s) {itr : Nat}
    (hpc : s.pc = .collecting itr) :
    ∃ t, Drives step (Uses client reply) s t ∧ (t.pc = .exited ∨
      (t.pc = .dispatching ∧ t.inFlight = [] ∧ fails t.responseList = 0 ∧ t.jobQ ≠ [] ∧
        t.jobQ.length = s.jobQ.length + fails s.responseList)) := by
  obtain ⟨t, hdrive, hend, hq⟩ := collect_all client reply hs hpc
  obtain ⟨hnone, hpassed⟩ := (RoundInv.reachable (hs.trans hdrive.reachable)).collecting _ hend
  rw [List.take_length] at hpassed
  by_cases hempty : t.jobQ = []
  · have hstep : t.step .test = some { t with
        pc := .exited
        outputResultMap := outputs t.responseList } := by simp [step, hend, hempty]
    exact ⟨_, hdrive.trans (.one hstep trivial), .inl rfl⟩
  · have hstep : t.step .test = some { t with pc := .dispatching } := by simp [step, hend, hempty]
    exact ⟨_, hdrive.trans (.one hstep trivial),
      .inr ⟨rfl, hnone, fails_eq_zero.mpr hpassed, hempty, hq⟩⟩

/-- A dispatcher that waits for responses can end its round. -/
theorem answer_round (hs : Reachable step (runReducer m) s) (hpc : s.pc = .waiting) :
    ∃ t, Drives step (Uses client reply) s t ∧ (t.pc = .exited ∨
      (t.pc = .dispatching ∧ t.inFlight = [] ∧ fails t.responseList = 0 ∧ t.jobQ ≠ [] ∧
        t.jobQ.length = s.jobQ.length + fails s.responseList)) := by
  obtain ⟨t, hdrive, hwaits, hnone, hq, hfails⟩ := complete_all client reply hs hpc
  have ht := hs.trans hdrive.reachable
  have hcount := (RoundInv.reachable ht).nrpcs_eq
  rw [hnone, List.length_nil] at hcount
  have hstep : t.step .received = some { t with pc := .collecting 0 } :=
    if_pos ⟨hwaits, by omega⟩
  obtain ⟨u, hround, hu⟩ := end_round client reply (ht.trans (.head hstep (.refl _))) rfl
  refine ⟨u, (hdrive.trans (.one hstep trivial)).trans hround, ?_⟩
  rw [← hq, ← hfails]
  exact hu

include hnames in
/-- Rounds without a failed response come to an end: each dispatches a task that succeeds. -/
theorem can_exit_fresh (n : Nat) (hs : Reachable step (runReducer m) s)
    (hpc : s.pc = .dispatching) (hnone : s.inFlight = []) (hfails : fails s.responseList = 0)
    (hn : s.jobQ.length ≤ n) : ∃ t, Drives step (Uses client reply) s t ∧ t.pc = .exited := by
  induction n generalizing s with
  | zero =>
      obtain ⟨t, hdrive, hwaits, hlist, hle, -⟩ := dispatch_all hnames client reply hs hpc
      obtain ⟨u, hround, hexit | ⟨-, -, -, hne, hq⟩⟩ :=
        answer_round client reply (hs.trans hdrive.reachable) hwaits
      · exact ⟨u, hdrive.trans hround, hexit⟩
      · rw [hlist, hfails] at hq
        exact absurd (List.length_eq_zero_iff.mp (by omega)) hne
  | succ n ih =>
      obtain ⟨t, hdrive, hwaits, hlist, hle, hless⟩ := dispatch_all hnames client reply hs hpc
      obtain ⟨u, hround, hexit | ⟨hupc, hunone, hufails, hne, hq⟩⟩ :=
        answer_round client reply (hs.trans hdrive.reachable) hwaits
      · exact ⟨u, hdrive.trans hround, hexit⟩
      · rw [hlist, hfails] at hq
        have hbusy : s.jobQ ≠ [] := by
          intro hempty
          rw [hempty, List.length_nil] at hle
          exact hne (List.length_eq_zero_iff.mp (by omega))
        have hfewer := hless hnone hbusy
        obtain ⟨v, hrest, hexit⟩ := ih ((hs.trans hdrive.reachable).trans hround.reachable) hupc
          hunone hufails (by omega)
        exact ⟨v, (hdrive.trans hround).trans hrest, hexit⟩

include hnames in
/-- The dispatcher can leave its loop from every state of a run. -/
theorem can_exit (hs : Reachable step (runReducer m) s) :
    ∃ t, Drives step (Uses client reply) s t ∧ t.pc = .exited := by
  -- after the round that is under way, no response is a failure
  have hrounds : ∀ {t}, Drives step (Uses client reply) s t → (t.pc = .exited ∨
      (t.pc = .dispatching ∧ t.inFlight = [] ∧ fails t.responseList = 0)) →
      ∃ t, Drives step (Uses client reply) s t ∧ t.pc = .exited := by
    intro t hdrive ht
    rcases ht with hexit | ⟨hpc, hnone, hfails⟩
    · exact ⟨t, hdrive, hexit⟩
    · obtain ⟨u, hrest, hexit⟩ := can_exit_fresh hnames client reply _
        (hs.trans hdrive.reachable) hpc hnone hfails (Nat.le_refl _)
      exact ⟨u, hdrive.trans hrest, hexit⟩
  cases hpc : s.pc with
  | dispatching =>
      obtain ⟨t, hdrive, hwaits, -⟩ := dispatch_all hnames client reply hs hpc
      obtain ⟨u, hround, hu⟩ := answer_round client reply (hs.trans hdrive.reachable) hwaits
      exact hrounds (hdrive.trans hround) (hu.imp_right fun h => ⟨h.1, h.2.1, h.2.2.1⟩)
  | waiting =>
      obtain ⟨t, hround, ht⟩ := answer_round client reply hs hpc
      exact hrounds hround (ht.imp_right fun h => ⟨h.1, h.2.1, h.2.2.1⟩)
  | collecting itr =>
      obtain ⟨t, hround, ht⟩ := end_round client reply hs hpc
      exact hrounds hround (ht.imp_right fun h => ⟨h.1, h.2.1, h.2.2.1⟩)
  | exited => exact ⟨s, .refl s, hpc⟩

end Rounds

end ReduceDispatch

/-! ## The threads follow -/

namespace ReduceThreads

/-- A step that sends tasks to the given client only. -/
def Uses (client : ClientId) (_ : ReduceThreads) : ReduceThreadsLabel → Prop
  | .send c => c = client
  | _ => True

variable {m : Master} {s : ReduceThreads} (client : ClientId)

/-- The thread ends only when the dispatcher is done. -/
theorem running (h : Reachable step (start m) s) : s.thread = .ended → s.done = true := by
  refine h.invariant (motive := fun s => s.thread = .ended → s.done = true)
    (fun h => by cases h) ?_
  intro s l t hs hstep hended
  cases step_effect hstep with
  | send client d _ hd | allDispatched d _ hd | received d _ hd | collect d _ hd | test d _ hd
  | count hhalf | decrement hhalf | rpcCompletes call outcome hcall => exact hs hended
  | setDone _ _ => rfl
  | finish hthread hdone => exact hdone
  | enter _ _ | readRpcs _ _ | readSize _ _ | enterNext _ _ _ _ | poll _ _ _ _
  | nextReturns _ _ _ _ _ => cases hended

/-- A half step can be completed. -/
theorem settle (s : ReduceThreads) :
    ∃ t, Drives step (Uses client) s t ∧ t.half = .none ∧ t.thread = s.thread := by
  cases hhalf : s.half with
  | none => exact ⟨s, .refl s, hhalf, rfl⟩
  | sent => exact ⟨_, .one (l := .count) (if_pos hhalf) trivial, rfl, rfl⟩
  | erased => exact ⟨_, .one (l := .decrement) (if_pos hhalf) trivial, rfl, rfl⟩

/-- The thread reads what it has not read yet. -/
theorem read_both {nrpcs : Option Int} {size : Option Nat}
    (hthread : s.thread = .reading nrpcs size) :
    Drives step (Uses client) s { s with
      thread := .reading (some (nrpcs.getD s.data.nrpcs))
        (some (size.getD s.data.responseList.length)) } := by
  have hsize : ∀ s : ReduceThreads, ∀ n, s.thread = .reading (some n) size →
      Drives step (Uses client) s { s with
        thread := .reading (some n) (some (size.getD s.data.responseList.length)) } := by
    intro s n hthread
    cases size with
    | none =>
        refine .one (l := .readSize) ?_ trivial
        simp [step, hthread]
    | some k => exact hthread ▸ .refl s
  cases nrpcs with
  | none =>
      refine .trans (.one (l := .readRpcs) ?_ trivial)
        (hsize { s with thread := .reading (some s.data.nrpcs) size } _ rfl)
      simp [step, hthread]
  | some n => exact hsize s n hthread

/-- The thread makes its test. -/
theorem compare_both {nrpcs : Option Int} {size : Option Nat}
    (hthread : s.thread = .reading nrpcs size) :
    Drives step (Uses client) s { s with
      thread := if nrpcs.getD s.data.nrpcs % 2 ^ 64 > size.getD s.data.responseList.length
        then .next else .testDone } :=
  .trans (read_both client hthread) (.one (l := .compare) rfl trivial)

/-- A thread that has not ended comes to its next test of `done`, or waits in `cq.Next`. -/
theorem to_test (hthread : s.thread ≠ .ended) :
    ∃ thread, (thread = .testDone ∨ thread = .next) ∧
      Drives step (Uses client) s { s with thread := thread } := by
  cases hat : s.thread with
  | testDone => exact ⟨.testDone, .inl rfl, hat ▸ .refl s⟩
  | next => exact ⟨.next, .inr rfl, hat ▸ .refl s⟩
  | ended => exact absurd hat hthread
  | reading nrpcs size =>
      refine ⟨_, ?_, compare_both client hat⟩
      split <;> simp

/-- `nrpcs` counts tasks of different reducers. -/
theorem Inv.nrpcs_lt (hs : s.Inv m) (hint : m.nreducers < 2 ^ 31) (hhalf : s.half = .none) :
    s.data.nrpcs < 2 ^ 31 := by
  have hcoarse := coarse_whole hhalf
  have hcount := ReduceDispatch.reachable_count hs.refines
  have hround := (ReduceDispatch.RoundInv.reachable hs.refines).nrpcs_eq
  rw [hcoarse] at hcount hround
  have hsubperm : (s.data.inFlight.map ReduceCall.jobid ++
      s.data.responseList.map ReduceResult.jobid).Subperm
        ((List.range m.nreducers.toNat).map Int.ofNat) := by
    rw [List.subperm_ext_iff]
    intro i _
    rw [ReduceDispatch.count_indices, ← hcount i, List.count_append]
    omega
  have hlen := hsubperm.length_le
  simp only [List.length_append, List.length_map, List.length_range] at hlen
  omega

/-- While a call is outstanding, the thread can come to wait for it. -/
theorem to_next (hs : s.Inv m) (hint : m.nreducers < 2 ^ 31) (hhalf : s.half = .none)
    (hthread : s.thread ≠ .ended) (hflight : s.data.inFlight ≠ []) :
    Drives step (Uses client) s { s with thread := .next } := by
  obtain ⟨thread, hcases, hdrive⟩ := to_test client hthread
  rcases hcases with rfl | rfl
  · have hcount := (ReduceDispatch.RoundInv.reachable hs.refines).nrpcs_eq
    rw [coarse_whole hhalf] at hcount
    have hpos := List.length_pos_iff.mpr hflight
    have hlt := hs.nrpcs_lt hint hhalf
    have hdone : s.done = false := by
      rw [Bool.eq_false_iff]
      exact fun hdone => hflight (hs.exited (hs.done hdone)).2.1
    have henter : step { s with thread := .testDone } .testDone =
        some { s with thread := .reading none none } := by simp [step, hdone]
    have hmore : s.data.nrpcs % 2 ^ 64 > s.data.responseList.length := by omega
    have htest := compare_both client (s := { s with thread := .reading none none }) rfl
    simp only [Option.getD_none, if_pos hmore] at htest
    exact (hdrive.trans (.one henter trivial)).trans htest
  · exact hdrive

/-- Between two half steps, and with all completed calls received. -/
structure Synced (m : Master) (s : ReduceThreads) : Prop where
  reach : Reachable step (start m) s
  half : s.half = .none
  queue : s.queue = []

/-- The calls that have completed can be received. -/
theorem flush (hint : m.nreducers < 2 ^ 31) (hs : Reachable step (start m) s)
    (hhalf : s.half = .none) : ∃ t, Drives step (Uses client) s t ∧ Synced m t := by
  generalize hn : s.queue.length = n
  induction n generalizing s with
  | zero => exact ⟨s, .refl s, hs, hhalf, List.length_eq_zero_iff.mp hn⟩
  | succ n ih =>
      obtain ⟨⟨call, outcome⟩, queue, hqueue⟩ := List.exists_cons_of_length_eq_add_one hn
      have hinv := Inv.reachable hs
      have hmem := hinv.queued call
      rw [hqueue, List.map_cons, List.count_cons_self] at hmem
      have hflight : s.data.inFlight ≠ [] :=
        List.ne_nil_of_mem (List.count_pos_iff.mp (Nat.lt_of_lt_of_le (Nat.succ_pos _) hmem))
      have hthread : s.thread ≠ .ended := fun h =>
        hflight (hinv.exited (hinv.done (running hs h))).2.1
      have hnext := to_next client hinv hint hhalf hthread hflight
      have hstep : step { s with thread := .next } .nextReturns = some { s with
          thread := .testDone
          data := { s.data with
            inFlight := s.data.inFlight.erase call
            responseList := s.data.responseList ++ [call.result outcome] }
          queue := queue } := by simp [step, hqueue]
      have hdrive := hnext.trans (.one hstep trivial)
      obtain ⟨t, hrest, ht⟩ := ih (hs.trans hdrive.reachable) hhalf (by
        rw [hqueue] at hn
        exact Nat.succ.inj hn)
      exact ⟨t, hdrive.trans hrest, ht⟩

/-- A run from a synchronized state that ends between two half steps, with an empty queue. -/
theorem Synced.drive {t : ReduceThreads} {d : ReduceDispatch} (hs : Synced m s)
    (h : Drives step (Uses client) s t) (hhalf : t.half = .none) (hqueue : t.queue = [])
    (hdata : t.data = d) : ∃ t, Drives step (Uses client) s t ∧ Synced m t ∧ t.data = d :=
  ⟨t, h, ⟨hs.reach.trans h.reachable, hhalf, hqueue⟩, hdata⟩

/-- From a synchronized state, the threads can follow every step of the dispatcher. -/
theorem follows (hint : m.nreducers < 2 ^ 31) (hs : Synced m s) {l : ReduceLabel}
    {d : ReduceDispatch} {reply : Str × Str}
    (hl : ReduceDispatch.Uses client reply s.data l) (hd : s.data.step l = some d) :
    ∃ t, Drives step (Uses client) s t ∧ Synced m t ∧ t.data = d := by
  have hhalf := hs.half
  cases l with
  | dispatch c =>
      have hsend : s.step (.send c) = some { s with
          half := .sent
          data := { d with nrpcs := s.data.nrpcs, jobQ := s.data.jobQ } } := by
        simp [step, hhalf, hd]
      have hcount : step { s with
          half := .sent
          data := { d with nrpcs := s.data.nrpcs, jobQ := s.data.jobQ } } .count = some { s with
            half := .none
            data := { d with nrpcs := s.data.nrpcs + 1, jobQ := s.data.jobQ.tail } } := rfl
      refine hs.drive client (.trans (.one hsend hl) (.one hcount trivial)) rfl hs.queue ?_
      cases ReduceDispatch.step_effect hd with
      | dispatch _ jobid jobQ blobs _ hq => simp [hq]
  | allDispatched =>
      refine hs.drive client (.one (l := .allDispatched) ?_ trivial) hhalf
        hs.queue (t := { s with data := d }) rfl
      simp [step, hhalf, hd]
  | complete call outcome =>
      have hinv := Inv.reachable hs.reach
      obtain ⟨⟨hpc, hmem, -⟩, hd⟩ := Option.ite_none_right_eq_some.mp hd
      cases hd
      have hnext := to_next client hinv hint hhalf
        (fun h => hpc (hinv.done (running hs.reach h))) (List.ne_nil_of_mem hmem)
      have hcompletes : step { s with thread := .next } (.rpcCompletes call outcome) =
          some { s with thread := .next, queue := [(call, outcome)] } := by
        simp [step, hs.queue, List.count_pos_iff.mpr hmem]
      have hreturns : step { s with thread := .next, queue := [(call, outcome)] } .nextReturns =
          some { s with
            thread := .testDone
            data := { s.data with
              inFlight := s.data.inFlight.erase call
              responseList := s.data.responseList ++ [call.result outcome] }
            queue := [] } := rfl
      exact hs.drive client ((hnext.trans (.one hcompletes trivial)).trans
        (.one hreturns trivial)) hhalf rfl rfl
  | received =>
      refine hs.drive client (.one (l := .received) ?_ trivial) hhalf
        hs.queue (t := { s with data := d }) rfl
      simp [step, hhalf, hd]
  | collect =>
      have hcollect : s.step .collect = some { s with
          half := if d.nrpcs = s.data.nrpcs then .none else .erased
          data := { d with nrpcs := s.data.nrpcs } } := by
        simp [step, hhalf, hd]
      by_cases hsame : d.nrpcs = s.data.nrpcs
      · refine hs.drive client (.one hcollect trivial) (if_pos hsame) hs.queue ?_
        rw [← hsame]
      · -- the response was erased, and its decrement follows
        have hless : d.nrpcs = s.data.nrpcs - 1 := by
          cases ReduceDispatch.step_effect hd with
          | requeue itr res hpc hres hstatus => rfl
          | keep itr res hpc hres hstatus => exact absurd rfl hsame
        rw [if_neg hsame] at hcollect
        have hdecrement : step { s with
            half := .erased
            data := { d with nrpcs := s.data.nrpcs } } .decrement = some { s with
              half := .none
              data := { d with nrpcs := s.data.nrpcs - 1 } } := rfl
        refine hs.drive client (.trans (.one hcollect trivial)
          (.one hdecrement trivial)) rfl hs.queue ?_
        rw [← hless]
  | test =>
      refine hs.drive client (.one (l := .test) ?_ trivial) hhalf
        hs.queue (t := { s with data := d }) rfl
      simp [step, hhalf, hd]

/-- The dispatcher that has left its loop comes to be done. -/
theorem to_done (hpc : s.data.pc = .exited) :
    Drives step (Uses client) s { s with done := true } := by
  cases hdone : s.done with
  | true =>
      rw [← hdone]
      exact .refl s
  | false => exact .one (l := .setDone) (if_pos ⟨hpc, hdone⟩) trivial

/-- The thread ends when the dispatcher is done. -/
theorem to_ended (hs : Reachable step (start m) s) (hdone : s.done = true) :
    Drives step (Uses client) s { s with thread := .ended } := by
  by_cases hended : s.thread = .ended
  · rw [← hended]
    exact .refl s
  · obtain ⟨thread, hcases, hdrive⟩ := to_test client hended
    rcases hcases with rfl | rfl
    · refine hdrive.trans (.one (l := .testDone) ?_ trivial)
      simp [step, hdone]
    · have hinv := Inv.reachable (hs.trans hdrive.reachable)
      exact absurd (hinv.next rfl) (hinv.exited (hinv.done hdone)).1

end ReduceThreads

/-- The reduce phase can always end. If the blobs are named as workers name them, then in every
state that a run reaches, whatever calls have failed and however the threads have interleaved, the
phase has a way on with any one client: the dispatcher leaves its loop with an output for each
reducer, and the completion thread ends. -/
theorem reduce_can_end (m : Master) (hint : m.nreducers < 2 ^ 31)
    (hnames : ∀ item ∈ m.intblobList, reducerOf item ≠ none) (client : ClientId)
    (s : ReduceThreads) (hreach : Reachable ReduceThreads.step (.start m) s) :
    ∃ ls t, (∀ c, .send c ∈ ls → c = client) ∧ run ReduceThreads.step s ls = some t ∧
      t.data.pc = .exited ∧ t.thread = .ended ∧
      ∀ i, i ∈ t.data.outputResultMap ↔ 0 ≤ i ∧ i < m.nreducers := by
  obtain ⟨t, hsettle, hhalf, -⟩ := ReduceThreads.settle client s
  obtain ⟨u, hflush, hu⟩ := ReduceThreads.flush client hint (hreach.trans hsettle.reachable) hhalf
  have hrefines := (ReduceThreads.Inv.reachable hu.reach).refines
  rw [ReduceThreads.coarse_whole hu.half] at hrefines
  obtain ⟨d, hexits, hpc⟩ := ReduceDispatch.can_exit hnames client ([], []) hrefines
  obtain ⟨v, hfollow, hv, rfl⟩ := Machine.Drives.lift
    (R := fun s d => ReduceThreads.Synced m s ∧ s.data = d) (fun s d l d' hs hl hd => by
      obtain ⟨hs, rfl⟩ := hs
      exact ReduceThreads.follows client hint hs hl hd) ⟨hu, rfl⟩ hexits
  have hdone := ReduceThreads.to_done client hpc
  have hends := hdone.trans
    (ReduceThreads.to_ended client (hv.reach.trans hdone.reachable) rfl)
  obtain ⟨ls, huses, hrun⟩ := ((hsettle.trans hflush).trans hfollow).trans hends
  have hsends := huses.labels (P := fun l => ∀ c, l = .send c → c = client)
    (fun s l hl c hc => by subst hc; exact hl) hrun
  exact ⟨ls, _, fun c hc => hsends _ hc c rfl, hrun, hpc, rfl,
    ReduceDispatch.mem_outputs_exited (hrefines.trans hexits.reachable) hpc⟩

/-- The thread of one reducer waits for a call that is not there, and the phase can still end. -/
theorem reduce_can_end_retried :
    ∃ s, run ReduceThreads.step (.start oneReducer) (retriedOnce.take 15) = some s ∧
      s.thread = .next ∧ s.data.inFlight = [] ∧
      ∃ ls t, (∀ c, .send c ∈ ls → c = 0) ∧ run ReduceThreads.step s ls = some t ∧
        t.data.pc = .exited ∧ t.thread = .ended ∧
        ∀ i, i ∈ t.data.outputResultMap ↔ 0 ≤ i ∧ i < 1 := by
  have hwaits : (run ReduceThreads.step (.start oneReducer) (retriedOnce.take 15)).any
      (fun s => s.thread = .next ∧ s.data.inFlight = []) = true := by decide +kernel
  obtain ⟨s, hrun, hs⟩ := (Option.any_eq_true _ _).mp hwaits
  obtain ⟨hnext, hnone⟩ := of_decide_eq_true hs
  refine ⟨s, hrun, hnext, hnone, ?_⟩
  exact reduce_can_end oneReducer (by decide) (fun item h => by cases h) 0 s ⟨_, hrun⟩

end MapReduce
