import MapReduce.Master.MapLoop

/-!
# The map phase can end

A loop of `dispatchMapTasks` that has as many tasks as there are mappers, and one of them still to
be done, has a way on that leaves it, whatever calls have failed. Read `can_exit` first.

The loop ends the round that is under way, after which nothing is outstanding. From there each round
dispatches at least one task, which succeeds, so the queue gets shorter until the exit test holds.
-/

namespace MapReduce

open Machine (Reachable Drives)

namespace MapLoop

/-- A step where tasks are sent to the given client only, and each call succeeds with its reply. -/
def Uses (client : ClientId) (reply : MapCall → Str × List Str) (_ : MapLoop) : LoopLabel → Prop
  | .dispatch c => c = client
  | .complete call outcome => outcome = .ok (reply call).1 (reply call).2
  | _ => True

/-- A loop with as many tasks as mappers, which does not wait for what nobody sends. -/
structure OnTrack (s : MapLoop) : Prop where
  sound : Sound s.data
  unfinished : Unfinished s
  tasks : (s.data.tasks : Int) = s.data.nmappers

/-- The entry of `dispatchMapTasks`, with something to do. -/
theorem OnTrack.of_entry {s₀ : MapDispatch} (hs : s₀.Entry) (hq : s₀.jobQ ≠ [])
    (htasks : (s₀.tasks : Int) = s₀.nmappers) : OnTrack (enter s₀) := by
  refine ⟨.of_entry hs, ⟨fun _ => ?_, fun hpc => by cases hpc⟩, htasks⟩
  have hidle : Idle s₀ := ⟨hs.inFlight, hs.responseList⟩
  have hpos := List.length_pos_iff.mpr hq
  rw [hidle.tasks_eq] at htasks
  show (s₀.intermediateResultMap.size : Int) ≠ s₀.nmappers
  omega

variable {s : MapLoop}

/-- A loop stays on track. -/
theorem OnTrack.reachable (hs : OnTrack s) {t : MapLoop} (h : Reachable step s t) : OnTrack t := by
  obtain ⟨hsound, -, hn, htasks⟩ := hs.sound.reachable h
  refine ⟨hsound, h.invariant hs.unfinished fun m l t hm hstep => hm.step hstep, ?_⟩
  rw [htasks, hn]
  exact hs.tasks

/-- The same after a run of chosen steps. -/
theorem OnTrack.drives (hs : OnTrack s) {ok : MapLoop → LoopLabel → Prop} {t : MapLoop}
    (h : Drives step ok s t) : OnTrack t :=
  hs.reachable h.reachable

/-- A loop on track has something to do until its exit test. -/
theorem OnTrack.busy (hs : OnTrack s) (hpc : s.pc = .dispatching ∨ s.pc = .waiting) :
    0 < s.data.jobQ.length + s.data.inFlight.length + s.data.responseList.length := by
  have hsize : (s.data.intermediateResultMap.size : Int) ≠ s.data.nmappers := by
    rcases hpc with hpc | hpc
    · exact hs.unfinished.dispatching hpc
    · exact (hs.unfinished.waiting hpc).1
  have htasks := hs.tasks
  unfold MapDispatch.tasks at htasks
  omega

/-- The responses that are no successes. -/
def fails (responseList : List MapperResult) : Nat :=
  responseList.countP fun res => res.status ≠ .success

/-- The failed responses with one more. -/
theorem fails_append (rs : List MapperResult) (res : MapperResult) :
    fails (rs ++ [res]) = fails rs + if res.status = .success then 0 else 1 := by
  by_cases h : res.status = .success <;> simp [fails, h]

/-- The failed responses with one in front. -/
theorem fails_cons (res : MapperResult) (rs : List MapperResult) :
    fails (res :: rs) = fails rs + if res.status = .success then 0 else 1 := by
  by_cases h : res.status = .success <;> simp [fails, h]

section Rounds

variable (client : ClientId) (reply : MapCall → Str × List Str)

/-- The dispatcher comes to wait for responses. -/
theorem fill_round (hs : OnTrack s) (hpc : s.pc = .dispatching) :
    ∃ t, Drives step (Uses client reply) s t ∧ t.pc = .waiting ∧
      t.data.responseList = s.data.responseList ∧
      t.data.intermediateResultMap = s.data.intermediateResultMap := by
  generalize hq : s.data.jobQ = q
  induction q generalizing s with
  | nil =>
      have hstep : s.step .allDispatched = some { s with pc := .waiting } :=
        if_pos ⟨hpc, .inl hq⟩
      exact ⟨_, .one hstep trivial, rfl, rfl, rfl⟩
  | cons i q ih =>
      by_cases hn : s.data.nrpcs > 10
      · have hstep : s.step .allDispatched = some { s with pc := .waiting } :=
          if_pos ⟨hpc, .inr hn⟩
        exact ⟨_, .one hstep trivial, rfl, rfl, rfl⟩
      · obtain ⟨shard, hshard, -⟩ := hs.sound.pool.queued_shard (i := i) (by simp [hq])
        have hstep : s.step (.dispatch client) = some { s with data := { s.data with
            inFlight := s.data.inFlight ++ [⟨shard.shardId, client⟩]
            nrpcs := s.data.nrpcs + 1
            jobQ := q } } := by
          simp [step, hpc, MapDispatch.step, hq, hn, hshard]
        have hone : Drives step (Uses client reply) s _ := .one hstep rfl
        obtain ⟨t, hdrive, ht⟩ := ih (hs.drives hone) hpc rfl
        exact ⟨t, hone.trans hdrive, ht⟩

/-- All calls in flight can succeed. -/
theorem succeed_all (hs : OnTrack s) (hpc : s.pc = .waiting) :
    ∃ t, Drives step (Uses client reply) s t ∧ t.pc = .waiting ∧ t.data.inFlight = [] ∧
      t.data.jobQ = s.data.jobQ ∧ fails t.data.responseList = fails s.data.responseList := by
  generalize hf : s.data.inFlight = calls
  induction calls generalizing s with
  | nil => exact ⟨s, .refl s, hpc, hf, rfl, rfl⟩
  | cons call calls ih =>
      have hn : s.data.nrpcs > s.data.responseList.length := by
        rw [hs.sound.counter.nrpcs_eq, hf, List.length_cons]
        omega
      have hstep : s.step (.complete call (.ok (reply call).1 (reply call).2)) =
          some { s with data := { s.data with
            inFlight := calls
            responseList := s.data.responseList ++
              [call.result (.ok (reply call).1 (reply call).2)]
            replData := true
            replList := s.data.replList ++
              [call.result (.ok (reply call).1 (reply call).2)] } } := by
        simp [step, hpc, MapDispatch.step, hf, hn, MapCall.result]
      have hone : Drives step (Uses client reply) s _ := .one hstep rfl
      obtain ⟨t, hdrive, hwaits, hnone, hq, hfails⟩ := ih (hs.drives hone) hpc rfl
      refine ⟨t, hone.trans hdrive, hwaits, hnone, hq, hfails.trans ?_⟩
      exact fails_append _ _

/-- The responses of a round are handled: the tasks of the failed ones are queued again. -/
theorem handle_all (hs : OnTrack s) (hpc : s.pc = .handling) :
    ∃ t, Drives step (Uses client reply) s t ∧ t.pc = .handling ∧ t.data.responseList = [] ∧
      t.data.inFlight = s.data.inFlight ∧
      t.data.jobQ.length = s.data.jobQ.length + fails s.data.responseList := by
  generalize hlist : s.data.responseList = rs
  induction rs generalizing s with
  | nil => exact ⟨s, .refl s, hpc, hlist, rfl, rfl⟩
  | cons res rs ih =>
      by_cases hstatus : res.status = .success
      · have hmem := hs.sound.pool.not_answered (show res ∈ s.data.responseList by simp [hlist])
        have hstep : s.step .handle = some { s with data := { s.data with
            responseList := rs
            nrpcs := s.data.nrpcs - 1
            intermediateResultMap := s.data.intermediateResultMap.insertIfNew res.shardId res
            intblobList := s.data.intblobList ++ res.blobList
            intcontainer := res.cname } } := by
          simp [step, hpc, MapDispatch.step, hlist, hstatus, hmem]
        have hone : Drives step (Uses client reply) s _ := .one hstep trivial
        obtain ⟨t, hdrive, hends, hnone, hflight, hq⟩ := ih (hs.drives hone) hpc rfl
        refine ⟨t, hone.trans hdrive, hends, hnone, hflight, hq.trans ?_⟩
        rw [fails_cons, if_pos hstatus]
        rfl
      · have hstep : s.step .handle = some { s with data := { s.data with
            responseList := rs
            nrpcs := s.data.nrpcs - 1
            jobQ := s.data.jobQ ++ [res.shardId] } } := by
          simp [step, hpc, MapDispatch.step, hlist, hstatus]
        have hone : Drives step (Uses client reply) s _ := .one hstep trivial
        obtain ⟨t, hdrive, hends, hnone, hflight, hq⟩ := ih (hs.drives hone) hpc rfl
        refine ⟨t, hone.trans hdrive, hends, hnone, hflight, hq.trans ?_⟩
        rw [fails_cons, if_neg hstatus]
        simp only [List.length_append, List.length_singleton]
        omega

/-- A round ends with an exit, or the next one starts. -/
theorem end_round (hs : OnTrack s) (hpc : s.pc = .handling) :
    ∃ t, Drives step (Uses client reply) s t ∧ (t.pc = .exited ∨
      (t.pc = .dispatching ∧ t.data.responseList = [] ∧ t.data.inFlight = s.data.inFlight ∧
        t.data.jobQ.length = s.data.jobQ.length + fails s.data.responseList)) := by
  obtain ⟨t, hdrive, hhandling, hnone, hflight, hq⟩ := handle_all client reply hs hpc
  by_cases heq : (t.data.intermediateResultMap.size : Int) = t.data.nmappers
  · have hstep : t.step .test = some { t with pc := .exited } := by
      simp [step, hhandling, hnone, heq]
    exact ⟨_, hdrive.trans (.one hstep trivial), .inl rfl⟩
  · have hstep : t.step .test = some { t with pc := .dispatching } := by
      simp [step, hhandling, hnone, heq]
    exact ⟨_, hdrive.trans (.one hstep trivial), .inr ⟨rfl, hnone, hflight, hq⟩⟩

/-- A dispatcher that waits for responses can end its round with nothing outstanding. -/
theorem answer_round (hs : OnTrack s) (hpc : s.pc = .waiting) :
    ∃ t, Drives step (Uses client reply) s t ∧ (t.pc = .exited ∨
      (t.pc = .dispatching ∧ Idle t.data ∧
        t.data.jobQ.length = s.data.jobQ.length + fails s.data.responseList)) := by
  obtain ⟨t, hdrive, hwaits, hflight, hq, hfails⟩ := succeed_all client reply hs hpc
  have ht := hs.drives hdrive
  -- with nothing in flight there is a response, or the loop would wait in vain
  have hresponse : t.data.responseList ≠ [] := by
    intro hnil
    have hbusy := ht.busy (.inr hwaits)
    have hcount := ht.sound.counter.nrpcs_eq
    simp only [hflight, hnil, List.length_nil] at hbusy hcount
    rcases (ht.unfinished.waiting hwaits).2 with hempty | hmany
    · rw [hempty, List.length_nil] at hbusy
      omega
    · omega
  have hstep : t.step .received = some { t with pc := .handling } := if_pos ⟨hwaits, hresponse⟩
  have hreceived := hdrive.trans (.one hstep trivial)
  obtain ⟨u, hround, hu⟩ := end_round client reply (hs.drives hreceived) rfl
  refine ⟨u, hreceived.trans hround,
    hu.imp_right fun h => ⟨h.1, ⟨h.2.2.1.trans hflight, h.2.1⟩, ?_⟩⟩
  rw [← hq, ← hfails]
  exact h.2.2.2

/-- Rounds that start with nothing outstanding come to an end: each dispatches a task that
succeeds. -/
theorem can_exit_idle (hs : OnTrack s) (hpc : s.pc = .dispatching) (hidle : Idle s.data) :
    ∃ t, Drives step (Uses client reply) s t ∧ t.pc = .exited := by
  generalize hn : s.data.jobQ.length = n
  induction n using Nat.strong_induction_on generalizing s with
  | _ n ih =>
      obtain ⟨t, hdrive, hwaits, hlist, hmap⟩ := fill_round client reply hs hpc
      have ht := hs.drives hdrive
      have hless : t.data.jobQ.length < n := by
        have hbusy := hs.busy (.inl hpc)
        have hsame := ht.tasks.trans (hs.sound.reachable hdrive.reachable).2.2.1
        rw [← hs.tasks, hidle.tasks_eq] at hsame
        have hcount := ht.sound.counter.nrpcs_eq
        simp only [MapDispatch.tasks, hlist, hmap, hidle.1, hidle.2, List.length_nil]
          at hsame hbusy hcount
        rcases (ht.unfinished.waiting hwaits).2 with hempty | hmany
        · rw [hempty, List.length_nil]
          omega
        · omega
      obtain ⟨u, hround, hexit | ⟨hupc, huidle, hq⟩⟩ := answer_round client reply ht hwaits
      · exact ⟨u, hdrive.trans hround, hexit⟩
      · rw [hlist, hidle.2] at hq
        obtain ⟨v, hrest, hexit⟩ := ih u.data.jobQ.length (by
          rw [hq]
          exact hless) (hs.drives (hdrive.trans hround)) hupc huidle rfl
        exact ⟨v, (hdrive.trans hround).trans hrest, hexit⟩

/-- The dispatcher can leave its loop from every state of a run, with the help of one client. -/
theorem can_exit (hs : OnTrack s) :
    ∃ t, Drives step (Uses client reply) s t ∧ t.pc = .exited := by
  have hwaiting : ∀ {t}, Drives step (Uses client reply) s t → t.pc = .waiting →
      ∃ t, Drives step (Uses client reply) s t ∧ t.pc = .exited := by
    intro t hdrive hpc
    obtain ⟨u, hround, hexit | ⟨hupc, hidle, -⟩⟩ :=
      answer_round client reply (hs.drives hdrive) hpc
    · exact ⟨u, hdrive.trans hround, hexit⟩
    · obtain ⟨v, hrest, hexit⟩ :=
        can_exit_idle client reply (hs.drives (hdrive.trans hround)) hupc hidle
      exact ⟨v, (hdrive.trans hround).trans hrest, hexit⟩
  have hdispatching : ∀ {t}, Drives step (Uses client reply) s t → t.pc = .dispatching →
      ∃ t, Drives step (Uses client reply) s t ∧ t.pc = .exited := by
    intro t hdrive hpc
    obtain ⟨u, hfill, hwaits, -⟩ := fill_round client reply (hs.drives hdrive) hpc
    exact hwaiting (hdrive.trans hfill) hwaits
  cases hpc : s.pc with
  | dispatching => exact hdispatching (.refl s) hpc
  | waiting => exact hwaiting (.refl s) hpc
  | handling =>
      obtain ⟨t, hround, hexit | ⟨htpc, -⟩⟩ := end_round client reply hs hpc
      · exact ⟨t, hround, hexit⟩
      · exact hdispatching hround htpc
  | exited => exact ⟨s, .refl s, hpc⟩

end Rounds

end MapLoop

end MapReduce
