import MapReduce.Master.ReduceDispatch

/-!
# The recorded output locations

`m_OutputResultMap` is meant to hold, for each reducer, the container its worker reported.
`AsyncCompleteReduceRpc` passes the container name and the blob name of a `FinalResult` to the
constructor of `ReduceResult`, which takes them the other way round, so what ends up in the map is
the blob name. Read `outputs_recorded_iff` first.
-/

namespace MapReduce

open Std (ExtTreeMap)

namespace ReduceDispatch

/-- The successful `FinalResult` of a completion that is about the job `i`: its container name and
its blob name. -/
def finalResult (i : Int) : ReduceLabel → Option (Str × Str)
  | .complete call (.ok containername blobname) =>
      if call.jobid = i then some (containername, blobname) else none
  | _ => none

/-- The successful `FinalResult`s received for a job, in order. -/
def finalResults (i : Int) (ls : List ReduceLabel) : List (Str × Str) :=
  ls.filterMap (finalResult i)

/-- The responses that a job succeeded. -/
def successes (i : Int) (responseList : List ReduceResult) : List ReduceResult :=
  responseList.filter fun res => res.status = .success ∧ res.jobid = i

/-- Erasing a failed response leaves the successes. -/
theorem successes_erase {rs : List ReduceResult} {itr : Nat} {res : ReduceResult} (i : Int)
    (hres : rs[itr]? = some res) (hstatus : res.status ≠ .success) :
    successes i (rs.eraseIdx itr) = successes i rs := by
  obtain ⟨hlt, rfl⟩ := List.getElem?_eq_some_iff.mp hres
  have hsplit : rs = rs.take itr ++ rs[itr] :: rs.drop (itr + 1) := by simp
  unfold successes
  rw [List.eraseIdx_eq_take_drop_succ]
  conv_rhs => rw [hsplit]
  rw [List.filter_append, List.filter_append, List.filter_cons_of_neg (by simp [hstatus])]

/-- The responses hold what was received, with the two names exchanged. -/
theorem final_results_eq {m : Master} {ls : List ReduceLabel} {s : ReduceDispatch}
    (hrun : Machine.run step (runReducer m) ls = some s) (i : Int) :
    finalResults i ls = (successes i s.responseList).map fun res => (res.blobname, res.cname) := by
  refine Machine.run_induction (motive := fun ls s => finalResults i ls =
    (successes i s.responseList).map fun res => (res.blobname, res.cname)) rfl ?_ hrun
  intro ls m l t _ hm hstep
  rw [finalResults, List.filterMap_append, ← finalResults, hm]
  cases step_effect hstep with
  | complete call outcome _ _ =>
      unfold successes
      rw [List.filter_append, List.map_append]
      congr 1
      cases outcome with
      | ok containername blobname =>
          by_cases hjob : call.jobid = i <;>
            simp [finalResult, ReduceCall.result, ReduceResult.make, hjob]
      | error code =>
          by_cases hcode : code = 4 <;>
            simp [finalResult, ReduceCall.result, ReduceResult.make, hcode]
  | requeue itr res _ hres hstatus =>
      rw [successes_erase i hres hstatus]
      simp [finalResult]
  | dispatch | allDispatched | received | keep | exit | again => simp [finalResult]

/-- The output of a job is the second name of its first success. -/
theorem get_outputs (rs : List ReduceResult) (i : Int) :
    (outputs rs)[i]? = (successes i rs).head?.map ReduceResult.cname := by
  have hfold : ∀ t : ExtTreeMap Int Str compare,
      (rs.foldl (fun t res => if res.status ≠ .success then t
        else t.insertIfNew res.jobid res.cname) t)[i]? =
        t[i]?.or ((successes i rs).head?.map ReduceResult.cname) := by
    induction rs with
    | nil => simp [successes]
    | cons res rs ih =>
        intro t
        have hcons : successes i (res :: rs) =
            if res.status = .success ∧ res.jobid = i then res :: successes i rs
            else successes i rs := by
          simp [successes, List.filter_cons]
        rw [List.foldl_cons, ih, hcons]
        by_cases hstatus : res.status = .success
        · rw [if_neg (not_not.mpr hstatus), ExtTreeMap.getElem?_insertIfNew]
          by_cases hjob : res.jobid = i
          · subst hjob
            by_cases hmem : res.jobid ∈ t <;> simp [hmem, hstatus]
          · simp [hjob, hstatus]
        · simp [hstatus]
  exact (hfold ∅).trans (by simp)

/-- When the loop is left, each reducer has one success. -/
theorem exited_success {m : Master} {s : ReduceDispatch}
    (hreach : Machine.Reachable step (runReducer m) s) (hexit : s.pc = .exited) (i : Int) :
    (successes i s.responseList).length = if 0 ≤ i ∧ i < m.nreducers then 1 else 0 := by
  obtain ⟨hq, hnone, hsuccess, -⟩ := (RoundInv.reachable hreach).exited hexit
  have hcount := reachable_count hreach i
  rw [hq, hnone, List.count_nil, List.map_nil, List.count_nil, Nat.zero_add] at hcount
  rw [← hcount, List.count_eq_countP, List.countP_map, List.countP_eq_length_filter, successes]
  congr 1
  refine List.filter_congr fun res hres => ?_
  rw [Function.comp_apply, beq_eq_decide, decide_eq_decide]
  simp [hsuccess res hres]

end ReduceDispatch

/-- In every run of the reduce phase that leaves the loop, with any order of completions, failures
and retries and any replies: each reducer has received exactly one successful `FinalResult`, and
`m_OutputResultMap` holds its container name for every reducer exactly if the container name and the
blob name are the same in every such reply. -/
theorem outputs_recorded_iff {m : Master} {ls : List ReduceLabel} {s : ReduceDispatch}
    (hrun : Machine.run ReduceDispatch.step (runReducer m) ls = some s) (hexit : s.pc = .exited) :
    (∀ i, 0 ≤ i → i < m.nreducers → ∃ containername blobname,
      ReduceDispatch.finalResults i ls = [(containername, blobname)] ∧
        s.outputResultMap[i]? = some containername) ↔
      ∀ i, ∀ reply ∈ ReduceDispatch.finalResults i ls, reply.1 = reply.2 := by
  have hreach : Machine.Reachable ReduceDispatch.step (runReducer m) s := ⟨ls, hrun⟩
  obtain ⟨-, -, -, houtput⟩ := (ReduceDispatch.RoundInv.reachable hreach).exited hexit
  -- what is received for a reducer, and what is recorded for it
  have hrange : ∀ i, 0 ≤ i ∧ i < m.nreducers → ∃ containername blobname,
      ReduceDispatch.finalResults i ls = [(containername, blobname)] ∧
        s.outputResultMap[i]? = some blobname := by
    intro i hi
    have hlength := ReduceDispatch.exited_success hreach hexit i
    rw [if_pos hi] at hlength
    obtain ⟨res, hres⟩ := List.length_eq_one_iff.mp hlength
    refine ⟨res.blobname, res.cname, ?_, ?_⟩
    · rw [ReduceDispatch.final_results_eq hrun, hres, List.map_singleton]
    · rw [houtput, ReduceDispatch.get_outputs, hres]
      rfl
  constructor
  · intro hrecorded i reply hreply
    by_cases hi : 0 ≤ i ∧ i < m.nreducers
    · obtain ⟨containername, blobname, hreceived, houtput⟩ := hrange i hi
      obtain ⟨containername', blobname', hreceived', houtput'⟩ := hrecorded i hi.1 hi.2
      rw [hreceived', List.mem_singleton] at hreply
      rw [hreceived', List.cons.injEq, Prod.mk.injEq] at hreceived
      rw [houtput', Option.some.injEq] at houtput
      rw [hreply]
      exact houtput.trans hreceived.1.2.symm
    · have hlength := ReduceDispatch.exited_success hreach hexit i
      rw [if_neg hi, List.length_eq_zero_iff] at hlength
      rw [ReduceDispatch.final_results_eq hrun, hlength] at hreply
      cases hreply
  · intro hsame i hlow hhigh
    obtain ⟨containername, blobname, hreceived, houtput⟩ := hrange i ⟨hlow, hhigh⟩
    have heq : containername = blobname := hsame i _ (hreceived ▸ List.mem_singleton.mpr rfl)
    exact ⟨containername, blobname, hreceived, heq ▸ houtput⟩

/-- A run of the reduce phase with one reducer, whose worker replies with the given names. -/
def oneReducerRun (containername blobname : Str) : List ReduceLabel :=
  [.dispatch 0, .allDispatched, .complete ⟨0, 0, [], []⟩ (.ok containername blobname), .received,
    .collect, .test]

/-- What the one worker reported. -/
theorem final_results_one (containername blobname : Str) (i : Int) :
    ReduceDispatch.finalResults i (oneReducerRun containername blobname) =
      if 0 = i then [(containername, blobname)] else [] := by
  unfold ReduceDispatch.finalResults oneReducerRun
  by_cases hi : 0 = i <;> simp [List.filterMap_cons, ReduceDispatch.finalResult, hi]

/-- The worker reports the same text for both names. -/
theorem outputs_recorded_same :
    ∃ s, Machine.run ReduceDispatch.step
        (runReducer { Master.init with nreducers := 1, clients := [0] })
          (oneReducerRun ['o'] ['o']) = some s ∧
        s.pc = .exited ∧ s.outputResultMap[(0 : Int)]? = some ['o'] := by
  have hrun : Machine.run ReduceDispatch.step
    (runReducer { Master.init with nreducers := 1, clients := [0] }) (oneReducerRun ['o'] ['o']) =
      some _ := rfl
  have hsame : ∀ i, ∀ reply ∈ ReduceDispatch.finalResults i (oneReducerRun ['o'] ['o']),
      reply.1 = reply.2 := by
    intro i reply hreply
    rw [final_results_one] at hreply
    split at hreply
    · rw [List.mem_singleton.mp hreply]
    · cases hreply
  obtain ⟨containername, blobname, hreceived, houtput⟩ :=
    (outputs_recorded_iff hrun rfl).mpr hsame 0 (by decide) (by decide)
  rw [final_results_one, if_pos rfl, List.cons.injEq, Prod.mk.injEq] at hreceived
  exact ⟨_, hrun, rfl, houtput.trans (congrArg some hreceived.1.1.symm)⟩

/-- One reducer, whose worker reports its container and no blob, as `ReduceCallData` does: the
recorded location is empty. -/
theorem outputs_swapped :
    ∃ s, Machine.run ReduceDispatch.step
        (runReducer { Master.init with nreducers := 1, clients := [0] }) (oneReducerRun ['o'] []) =
          some s ∧ s.pc = .exited ∧
      ReduceDispatch.finalResults 0 (oneReducerRun ['o'] []) = [(['o'], [])] ∧
      s.outputResultMap[(0 : Int)]? = some [] :=
  ⟨_, rfl, rfl, rfl, by decide⟩

end MapReduce
