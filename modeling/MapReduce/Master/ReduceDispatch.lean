import MapReduce.Library.Decimal
import MapReduce.Library.Fields
import MapReduce.Library.WorkPool
import MapReduce.Master.State

/-!
# Dispatching the reduce tasks

`Master::dispatchReduceTasks` and its completion thread `AsyncCompleteReduceRpc`
(`w7/src/master/masterimpl.cc`). Unlike the map loop, this one keeps the successful responses in
`responseList` and counts them in `nrpcs`; a round ends when every call made is answered, and the
failed ones are then erased and queued again.

As in the map loop the tasks form a work pool, of which nothing is ever settled.
-/

namespace MapReduce

open Machine (Reachable)
open Std (ExtTreeMap)

/-! ## The blobs of a reduce task -/

/-- `std::isspace` in the C locale. -/
def isSpace (c : Char) : Bool := c = ' ' || (9 ≤ c.toNat && c.toNat ≤ 13)

/-- `std::stol`: leading white space is skipped, and what follows the digits is ignored. It throws
if there is no digit, or if the value does not fit a `long`. -/
def stol (s : Str) : Option Int :=
  let (negative, cs) := Decimal.splitSign (s.dropWhile isSpace)
  let ds := cs.takeWhile Char.isDigit
  if ds = [] then none
  else
    let v := Decimal.ofDigits negative ds
    if -2 ^ 63 ≤ v ∧ v < 2 ^ 63 then some v else none

/-- The reducer an intermediate blob is for: the part of its name after the last underscore, read
as a `long` and stored in an `int`. -/
def reducerOf (item : Str) : Option Int :=
  (stol (Fields.lastField '_' item)).map fun v => Int.bmod v (2 ^ 32)

/-- `reduce_blob_vec`: the blobs of `m_IntblobList` that are for the reducer `jobid`. -/
def reduceBlobVec (jobid : Int) : List Str → Option (List Str)
  | [] => some []
  | item :: rest => do
      let r ← reducerOf item
      let vec ← reduceBlobVec jobid rest
      some (if r ≠ jobid then vec else item :: vec)

/-! ## The dispatcher -/

/-- `AsyncClientReduceCall`, with the blobs and the container of its request. -/
structure ReduceCall where
  jobid : Int
  client : ClientId
  blobs : List Str
  containername : Str
  deriving DecidableEq, Repr

/-- How a reduce call ends: a `FinalResult`, or a status with an error code. -/
inductive ReduceOutcome where
  | ok (containername blobname : Str)
  | error (code : Nat)
  deriving DecidableEq, Repr

/-- The `ReduceResult` that `AsyncCompleteReduceRpc` appends for a call. -/
def ReduceCall.result (call : ReduceCall) : ReduceOutcome → ReduceResult
  | .ok containername blobname => .make .success containername blobname call.jobid false
  | .error code => .make (if code = 4 then .timedout else .failed) [] [] call.jobid false

/-- The program counter of `dispatchReduceTasks`; `itr` is the position of its iterator. -/
inductive ReducePc where
  | dispatching
  | waiting
  | collecting (itr : Nat)
  | exited
  deriving DecidableEq, Repr

/-- The master and the variables of `dispatchReduceTasks`. -/
structure ReduceDispatch extends Master where
  pc : ReducePc
  jobQ : List Int
  inFlight : List ReduceCall
  responseList : List ReduceResult
  nrpcs : Int

/-- The choices of one step. -/
inductive ReduceLabel where
  | dispatch (client : ClientId)
  | allDispatched
  | complete (call : ReduceCall) (outcome : ReduceOutcome)
  | received
  | collect
  | test
  deriving DecidableEq, Repr

namespace ReduceDispatch

/-- `nrpcs - responseList.size()`, an `int` minus a `size_t`. -/
def unanswered (s : ReduceDispatch) : Nat := ((s.nrpcs - s.responseList.length) % 2 ^ 64).toNat

/-- The successful responses in the output map. -/
def outputs (responseList : List ReduceResult) : ExtTreeMap Int Str compare :=
  responseList.foldl
    (fun t res => if res.status ≠ .success then t else t.insertIfNew res.jobid res.cname) ∅

/-- One step of the loop or of the completion thread. -/
def step (s : ReduceDispatch) : ReduceLabel → Option ReduceDispatch
  | .dispatch client =>
      match s.jobQ with
      | [] => none
      | jobid :: jobQ =>
          if s.pc = .dispatching ∧ ¬ s.unanswered > s.clients.length then do
            let blobs ← reduceBlobVec jobid s.intblobList
            some { s with
              inFlight := s.inFlight ++ [⟨jobid, client, blobs, s.intcontainer⟩]
              nrpcs := s.nrpcs + 1
              jobQ := jobQ }
          else none
  | .allDispatched =>
      if s.pc = .dispatching ∧ (s.jobQ = [] ∨ s.unanswered > s.clients.length) then
        some { s with pc := .waiting }
      else none
  | .complete call outcome =>
      if s.pc ≠ .exited ∧ call ∈ s.inFlight ∧ s.nrpcs > s.responseList.length then
        some { s with
          inFlight := s.inFlight.erase call
          responseList := s.responseList ++ [call.result outcome] }
      else none
  | .received =>
      if s.pc = .waiting ∧ (s.responseList.length : Int) = s.nrpcs then
        some { s with pc := .collecting 0 }
      else none
  | .collect =>
      match s.pc with
      | .collecting itr =>
          match s.responseList[itr]? with
          | none => none
          | some res =>
              if res.status ≠ .success then
                some { s with
                  jobQ := s.jobQ ++ [res.jobid]
                  responseList := s.responseList.eraseIdx itr
                  nrpcs := s.nrpcs - 1 }
              else some { s with pc := .collecting (itr + 1) }
      | _ => none
  | .test =>
      if s.pc = .collecting s.responseList.length then
        if s.jobQ = [] then
          some { s with pc := .exited, outputResultMap := outputs s.responseList }
        else some { s with pc := .dispatching }
      else none

end ReduceDispatch

/-- `runReducer` at its call of `dispatchReduceTasks`: the reducers are queued by id and the
outputs of an earlier job are cleared. -/
def runReducer (m : Master) : ReduceDispatch :=
  { m with
    outputResultMap := ∅
    pc := .dispatching
    jobQ := (List.range m.nreducers.toNat).map Int.ofNat
    inFlight := []
    responseList := []
    nrpcs := 0 }

namespace ReduceDispatch

/-! ## What a step does -/

/-- The effect of one step, one case for each branch of the source. -/
inductive Effect (s : ReduceDispatch) : ReduceLabel → ReduceDispatch → Prop where
  | dispatch (client : ClientId) (jobid : Int) (jobQ : List Int) (blobs : List Str) :
      s.pc = .dispatching → s.jobQ = jobid :: jobQ →
      Effect s (.dispatch client) { s with
        inFlight := s.inFlight ++ [⟨jobid, client, blobs, s.intcontainer⟩]
        nrpcs := s.nrpcs + 1
        jobQ := jobQ }
  | allDispatched : s.pc = .dispatching → Effect s .allDispatched { s with pc := .waiting }
  | complete (call : ReduceCall) (outcome : ReduceOutcome) :
      s.pc ≠ .exited → call ∈ s.inFlight →
      Effect s (.complete call outcome) { s with
        inFlight := s.inFlight.erase call
        responseList := s.responseList ++ [call.result outcome] }
  | received :
      (s.responseList.length : Int) = s.nrpcs →
      Effect s .received { s with pc := .collecting 0 }
  | requeue (itr : Nat) (res : ReduceResult) :
      s.pc = .collecting itr → s.responseList[itr]? = some res → res.status ≠ .success →
      Effect s .collect { s with
        jobQ := s.jobQ ++ [res.jobid]
        responseList := s.responseList.eraseIdx itr
        nrpcs := s.nrpcs - 1 }
  | keep (itr : Nat) (res : ReduceResult) :
      s.pc = .collecting itr → s.responseList[itr]? = some res → res.status = .success →
      Effect s .collect { s with pc := .collecting (itr + 1) }
  | exit :
      s.pc = .collecting s.responseList.length → s.jobQ = [] →
      Effect s .test { s with pc := .exited, outputResultMap := outputs s.responseList }
  | again :
      s.pc = .collecting s.responseList.length → s.jobQ ≠ [] →
      Effect s .test { s with pc := .dispatching }

/-- Every step has one of the effects. -/
theorem step_effect {s t : ReduceDispatch} {l : ReduceLabel} (h : s.step l = some t) :
    s.Effect l t := by
  cases l with
  | dispatch client =>
      simp only [step] at h
      split at h
      · cases h
      · next jobid jobQ hq =>
        split at h
        · next hguard =>
          obtain ⟨blobs, -, h⟩ := Option.bind_eq_some_iff.mp h
          cases h
          exact .dispatch client jobid jobQ blobs hguard.1 hq
        · cases h
  | allDispatched =>
      simp only [step, Option.ite_none_right_eq_some, Option.some.injEq] at h
      obtain ⟨⟨hpc, -⟩, rfl⟩ := h
      exact .allDispatched hpc
  | complete call outcome =>
      simp only [step, Option.ite_none_right_eq_some, Option.some.injEq] at h
      obtain ⟨⟨hpc, hcall, -⟩, rfl⟩ := h
      exact .complete call outcome hpc hcall
  | received =>
      simp only [step, Option.ite_none_right_eq_some, Option.some.injEq] at h
      obtain ⟨⟨-, hlen⟩, rfl⟩ := h
      exact .received hlen
  | collect =>
      simp only [step] at h
      split at h
      · next itr hpc =>
        split at h
        · cases h
        · next res hres =>
          split at h
          · next hstatus =>
            cases h
            exact .requeue itr res hpc hres hstatus
          · next hstatus =>
            cases h
            exact .keep itr res hpc hres (not_not.mp hstatus)
      · cases h
  | test =>
      simp only [step, Option.ite_none_right_eq_some] at h
      obtain ⟨hpc, h⟩ := h
      split at h
      · next hq =>
        cases h
        exact .exit hpc hq
      · next hq =>
        cases h
        exact .again hpc hq

/-! ## Conservation of reducer ids -/

/-- The dispatcher as a work pool. No task ever leaves it: a success stays among the answers. -/
def pool (s : ReduceDispatch) : WorkPool Int where
  queued := s.jobQ
  inFlight := s.inFlight.map ReduceCall.jobid
  answered := s.responseList.map ReduceResult.jobid
  settled := ∅

/-- The result of a call is about its own job. -/
theorem result_jobid (call : ReduceCall) (outcome : ReduceOutcome) :
    (call.result outcome).jobid = call.jobid := by
  cases outcome <;> rfl

/-- As a multiset, a list without one of its positions is the list without that element. -/
theorem coe_erase_idx {α : Type*} [DecidableEq α] {l : List α} {i : Nat} {a : α}
    (h : l[i]? = some a) : ((l.eraseIdx i : List α) : Multiset α) = (l : Multiset α).erase a := by
  obtain ⟨hi, rfl⟩ := List.getElem?_eq_some_iff.mp h
  refine (Multiset.cons_inj_right l[i]).mp ?_
  rw [Multiset.cons_erase (Multiset.mem_coe.mpr (List.getElem_mem hi)), Multiset.cons_coe]
  exact Multiset.coe_eq_coe.mpr (List.getElem_cons_eraseIdx_perm hi)

/-- Every step of the dispatcher leaves its pool alone or is a step of it. -/
theorem Effect.pool_reachable {s t : ReduceDispatch} {l : ReduceLabel} (h : s.Effect l t) :
    Reachable WorkPool.step s.pool t.pool := by
  cases h with
  | dispatch client jobid jobQ blobs _ hq =>
      have hstep : s.pool.step (.send jobid) = some _ := if_pos (by simp [pool, hq])
      refine .head hstep ?_
      simp only [pool, hq, List.map_append, List.map_cons, List.map_nil, WorkPool.coe_snoc,
        Multiset.coe_erase, List.erase_cons_head]
      exact .refl _
  | complete call outcome _ hcall =>
      have hmem : call.jobid ∈ s.inFlight.map ReduceCall.jobid := List.mem_map_of_mem hcall
      have hstep : s.pool.step (.answer call.jobid) = some _ := if_pos (by simpa [pool] using hmem)
      refine .head hstep ?_
      simp only [pool, List.map_append, List.map_cons, List.map_nil, WorkPool.coe_snoc,
        result_jobid, Multiset.coe_erase, WorkPool.coe_map_erase ReduceCall.jobid hcall]
      exact .refl _
  | requeue itr res _ hres _ =>
      have hjob : (s.responseList.map ReduceResult.jobid)[itr]? = some res.jobid := by simp [hres]
      have hmem := List.mem_of_getElem? hjob
      have hstep : s.pool.step (.requeue res.jobid) = some _ := if_pos (by simpa [pool] using hmem)
      refine .head hstep ?_
      simp only [pool, WorkPool.coe_snoc, ← List.eraseIdx_map, coe_erase_idx hjob]
      exact .refl _
  | allDispatched | received | keep | exit | again => exact .refl _

/-- How often an id is among the ids below `n`. -/
theorem count_indices (n : Int) (i : Int) :
    ((List.range n.toNat).map Int.ofNat).count i = if 0 ≤ i ∧ i < n then 1 else 0 := by
  have hmem : i ∈ (List.range n.toNat).map Int.ofNat ↔ 0 ≤ i ∧ i < n := by
    rw [mem_indices]
    omega
  rw [(nodup_indices n.toNat).count]
  simp only [hmem]

/-- In every reachable state each reducer is queued, in flight or answered, once and nowhere
else. -/
theorem reachable_count {m : Master} {s : ReduceDispatch} (h : Reachable step (runReducer m) s)
    (i : Int) :
    s.jobQ.count i + (s.inFlight.map ReduceCall.jobid).count i +
      (s.responseList.map ReduceResult.jobid).count i =
      if 0 ≤ i ∧ i < m.nreducers then 1 else 0 := by
  have hstart : ∀ i, (runReducer m).pool.occupancy i = if 0 ≤ i ∧ i < m.nreducers then 1 else 0 :=
    fun i => by simp [WorkPool.occupancy, pool, runReducer, ← count_indices]
  have hpool : Reachable WorkPool.step (runReducer m).pool s.pool :=
    h.simulation (I := fun _ => True) trivial (fun _ _ _ _ _ => trivial)
      fun m l t _ hstep => (step_effect hstep).pool_reachable
  have hbalanced : (runReducer m).pool.Balanced := fun i => by
    rw [hstart]
    split <;> omega
  rw [← hstart, ← WorkPool.reachable_occupancy hbalanced hpool]
  simp [WorkPool.occupancy, pool]

/-! ## The rounds -/

/-- `nrpcs` counts the calls in flight and all responses. While the responses of a round are
collected no call is in flight, and the ones passed over are successes. -/
structure RoundInv (s : ReduceDispatch) : Prop where
  nrpcs_eq : s.nrpcs = s.inFlight.length + s.responseList.length
  collecting : ∀ itr, s.pc = .collecting itr →
    s.inFlight = [] ∧ ∀ res ∈ s.responseList.take itr, res.status = .success
  exited : s.pc = .exited → s.jobQ = [] ∧ s.inFlight = [] ∧
    (∀ res ∈ s.responseList, res.status = .success) ∧
    s.outputResultMap = outputs s.responseList

/-- The invariant of the rounds survives every step. -/
theorem RoundInv.step {s t : ReduceDispatch} {l : ReduceLabel} (hs : s.RoundInv)
    (h : s.Effect l t) : t.RoundInv := by
  have hcount := hs.nrpcs_eq
  cases h with
  | dispatch client jobid jobQ blobs hpc hq =>
      refine ⟨?_, fun itr hat => by simp [hpc] at hat, fun hat => by simp [hpc] at hat⟩
      simp only [List.length_append, List.length_singleton]
      omega
  | allDispatched | again =>
      exact ⟨hcount, fun itr hat => by simp at hat, fun hat => by simp at hat⟩
  | complete call outcome hpc hcall =>
      have hpos := List.length_pos_of_mem hcall
      refine ⟨?_, fun itr hat => ?_, fun hat => absurd hat hpc⟩
      · simp only [List.length_erase_of_mem hcall, List.length_append, List.length_singleton]
        omega
      · rw [(hs.collecting itr hat).1] at hcall
        cases hcall
  | received hlen =>
      have hnone : s.inFlight = [] := List.length_eq_zero_iff.mp (by omega)
      refine ⟨hcount, fun itr hat => ?_, fun hat => by simp at hat⟩
      obtain rfl : 0 = itr := by simpa using hat
      exact ⟨hnone, by simp⟩
  | requeue itr res hpc hres hstatus =>
      obtain ⟨hnone, hpassed⟩ := hs.collecting itr hpc
      obtain ⟨hlt, -⟩ := List.getElem?_eq_some_iff.mp hres
      refine ⟨?_, fun itr' hat => ?_, fun hat => by simp [hpc] at hat⟩
      · simp only [List.length_eraseIdx_of_lt hlt]
        omega
      · obtain rfl : itr = itr' := by simpa [hpc] using hat
        refine ⟨hnone, ?_⟩
        rw [List.take_eraseIdx_eq_take_of_le _ _ _ (Nat.le_refl _)]
        exact hpassed
  | keep itr res hpc hres hstatus =>
      obtain ⟨hnone, hpassed⟩ := hs.collecting itr hpc
      refine ⟨hcount, fun itr' hat => ?_, fun hat => by simp at hat⟩
      obtain rfl : itr + 1 = itr' := by simpa using hat
      refine ⟨hnone, fun r hr => ?_⟩
      rw [List.take_add_one, hres] at hr
      rcases List.mem_append.mp hr with hold | hnew
      · exact hpassed r hold
      · obtain rfl : r = res := by simpa using hnew
        exact hstatus
  | exit hpc hq =>
      obtain ⟨hnone, hpassed⟩ := hs.collecting _ hpc
      rw [List.take_length] at hpassed
      exact ⟨hcount, fun itr hat => by simp at hat, fun _ => ⟨hq, hnone, hpassed, rfl⟩⟩

/-- The invariant of the rounds holds in every reachable state. -/
theorem RoundInv.reachable {m : Master} {s : ReduceDispatch}
    (h : Reachable ReduceDispatch.step (runReducer m) s) : s.RoundInv := by
  refine h.invariant (motive := RoundInv) ?_ fun m l t hm hstep => hm.step (step_effect hstep)
  refine ⟨rfl, fun itr hat => ?_, fun hat => ?_⟩
  · cases hat
  · cases hat

/-- The keys of the output map are the jobs of the successful responses. -/
theorem mem_outputs {rs : List ReduceResult} {i : Int} :
    i ∈ outputs rs ↔ ∃ res ∈ rs, res.status = .success ∧ res.jobid = i := by
  have hfold : ∀ t : ExtTreeMap Int Str compare,
      i ∈ rs.foldl (fun t res => if res.status ≠ .success then t
        else t.insertIfNew res.jobid res.cname) t ↔
        i ∈ t ∨ ∃ res ∈ rs, res.status = .success ∧ res.jobid = i := by
    induction rs with
    | nil => simp
    | cons res rs ih =>
        intro t
        rw [List.foldl_cons, ih]
        by_cases hstatus : res.status = .success
        · simp only [hstatus, ne_eq, not_true_eq_false, if_false, mem_emplace, List.mem_cons,
            exists_eq_or_imp, true_and]
          rw [or_comm (a := res.jobid = i), or_assoc]
        · simp [hstatus]
  exact (hfold ∅).trans (by simp)

end ReduceDispatch

/-- Reduce dispatch completes every reducer exactly once. In every state that a run of
`runReducer` reaches, whatever calls fail and in whatever order they complete: each reducer is in
exactly one of `job_q`, the calls in flight and `responseList`; `nrpcs` counts the calls in flight
and the responses, so `nrpcs - responseList.size()` does not wrap; and when the loop is left,
`responseList` holds one success for each reducer, and these are the keys of
`m_OutputResultMap`. -/
theorem reduce_dispatch_completes (m : Master) (hint : m.nreducers < 2 ^ 31) (s : ReduceDispatch)
    (hreach : Reachable ReduceDispatch.step (runReducer m) s) :
    (∀ i, s.jobQ.count i + (s.inFlight.map ReduceCall.jobid).count i +
        (s.responseList.map ReduceResult.jobid).count i =
      if 0 ≤ i ∧ i < m.nreducers then 1 else 0) ∧
    s.nrpcs = s.inFlight.length + s.responseList.length ∧
    s.unanswered = s.inFlight.length ∧
    (s.pc = .exited →
      (∀ res ∈ s.responseList, res.status = .success) ∧
      (s.responseList.map ReduceResult.jobid).Perm
        ((List.range m.nreducers.toNat).map Int.ofNat) ∧
      ∀ i, i ∈ s.outputResultMap ↔ 0 ≤ i ∧ i < m.nreducers) := by
  have hcount := ReduceDispatch.reachable_count hreach
  have hround := ReduceDispatch.RoundInv.reachable hreach
  have hnrpcs := hround.nrpcs_eq
  refine ⟨hcount, hnrpcs, ?_, fun hpc => ?_⟩
  · -- the calls in flight are of different reducers, so there are fewer than `2 ^ 31`
    have hsubperm : (s.inFlight.map ReduceCall.jobid).Subperm
        ((List.range m.nreducers.toNat).map Int.ofNat) := by
      rw [List.subperm_ext_iff]
      intro i _
      rw [ReduceDispatch.count_indices, ← hcount i]
      omega
    have hlen := hsubperm.length_le
    simp only [List.length_map, List.length_range] at hlen
    unfold ReduceDispatch.unanswered
    omega
  · obtain ⟨hq, hnone, hsuccess, houtput⟩ := hround.exited hpc
    have hperm : (s.responseList.map ReduceResult.jobid).Perm
        ((List.range m.nreducers.toNat).map Int.ofNat) := by
      rw [List.perm_iff_count]
      intro i
      rw [ReduceDispatch.count_indices, ← hcount i]
      simp [hq, hnone]
    refine ⟨hsuccess, hperm, fun i => ?_⟩
    have hmem : i ∈ s.responseList.map ReduceResult.jobid ↔ 0 ≤ i ∧ i < m.nreducers := by
      rw [hperm.mem_iff, mem_indices]
      omega
    rw [houtput, ReduceDispatch.mem_outputs, ← hmem, List.mem_map]
    exact exists_congr fun res => and_congr_right fun hres => by simp [hsuccess res hres]

/-- Two reducers on one client, of which the second fails once: both outputs are there. -/
theorem reduce_dispatch_completes_retry :
    ∃ s, Machine.run ReduceDispatch.step
        (runReducer { Master.init with nreducers := 2, clients := [0] })
        [.dispatch 0, .dispatch 0, .allDispatched, .complete ⟨1, 0, [], []⟩ (.error 14),
          .complete ⟨0, 0, [], []⟩ (.ok ['o'] []), .received, .collect, .collect, .test,
          .dispatch 0, .allDispatched, .complete ⟨1, 0, [], []⟩ (.ok ['o'] []), .received,
          .collect, .collect, .test] = some s ∧
      s.pc = .exited ∧ s.unanswered = 0 ∧ ∀ i, i ∈ s.outputResultMap ↔ 0 ≤ i ∧ i < 2 := by
  refine ⟨_, rfl, by decide, ?_⟩
  have hcompletes := reduce_dispatch_completes
    { Master.init with nreducers := 2, clients := [0] } (by decide) _
    ⟨[.dispatch 0, .dispatch 0, .allDispatched, .complete ⟨1, 0, [], []⟩ (.error 14),
      .complete ⟨0, 0, [], []⟩ (.ok ['o'] []), .received, .collect, .collect, .test,
      .dispatch 0, .allDispatched, .complete ⟨1, 0, [], []⟩ (.ok ['o'] []), .received,
      .collect, .collect, .test], rfl⟩
  exact ⟨hcompletes.2.2.1, (hcompletes.2.2.2 (by decide)).2.2⟩

end MapReduce
