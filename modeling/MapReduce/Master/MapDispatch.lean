import Mathlib.Data.Finset.Card
import MapReduce.Library.WorkPool
import MapReduce.Master.State
import MapReduce.Protos

/-!
# Dispatching the map tasks

`Master::dispatchMapTasks` and its completion thread `AsyncCompleteMapRpc`
(`w7/src/master/masterimpl.cc`). A `MapDispatch` holds the master and the variables of one call
of `dispatchMapTasks`; its steps are sending the front of `job_q`, the completion of a call in
flight, and the handling of the first response. The order of the steps is left open here;
`MapReduce.Master.MapLoop` adds the control flow of the loop.

The tasks of a dispatcher form a work pool (`occupancy_eq`), so its shard ids are conserved.
-/

namespace MapReduce

/-! ## The dispatcher -/

/-- `AsyncClientMapCall`: the shard a call in flight is about, and the client it was sent to. -/
structure MapCall where
  shardId : Int
  client : ClientId
  deriving DecidableEq, Repr

/-- The `MapperResult` that `AsyncCompleteMapRpc` appends for a call. Error code 4 is an exceeded
deadline. -/
def MapCall.result (call : MapCall) : MapOutcome → MapperResult
  | .ok containername blobs => ⟨.success, call.shardId, containername, false, blobs⟩
  | .error code => ⟨if code = 4 then .timedout else .failed, call.shardId, [], false, []⟩

/-- The master and the variables of `dispatchMapTasks`. `inFlight` holds the calls whose answer
is not yet in the completion queue. -/
structure MapDispatch extends Master where
  jobQ : List Int
  inFlight : List MapCall
  responseList : List MapperResult
  nrpcs : Int

/-- Indexing a vector with an `int`, undefined outside the vector. -/
def vectorAt {α : Type*} (v : List α) (i : Int) : Option α :=
  if i < 0 then none else v[i.toNat]?

/-- Where the ids are the indices, indexing with an id yields the shard of that id. -/
theorem IdsAreIndices.shardId_eq {shards : List FileShard} (hids : IdsAreIndices shards) {i : Int}
    {shard : FileShard} (h : vectorAt shards i = some shard) : shard.shardId = i := by
  simp only [vectorAt] at h
  split at h
  · cases h
  · obtain ⟨hlt, rfl⟩ := List.getElem?_eq_some_iff.mp h
    rw [hids i.toNat hlt]
    omega

/-- The choices of one step. The client a task is sent to, and the call that completes next and
how it ends, are up to the environment. -/
inductive MapLabel where
  | dispatch (client : ClientId)
  | complete (call : MapCall) (outcome : MapOutcome)
  | handle
  deriving DecidableEq, Repr

namespace MapDispatch

/-- `dispatchMapTasks` on entry, with an empty response list and no call made. -/
def start (m : Master) (jobQ : List Int) : MapDispatch :=
  { m with jobQ := jobQ, inFlight := [], responseList := [], nrpcs := 0 }

/-- One step of the dispatcher or of its completion thread. -/
def step (s : MapDispatch) : MapLabel → Option MapDispatch
  | .dispatch client =>
      match s.jobQ with
      | [] => none
      | i :: jobQ =>
          if s.nrpcs > 10 then none
          else do
            let shard ← vectorAt s.shards i
            some { s with
              inFlight := s.inFlight ++ [⟨shard.shardId, client⟩]
              nrpcs := s.nrpcs + 1
              jobQ := jobQ }
  | .complete call outcome =>
      if call ∈ s.inFlight ∧ s.nrpcs > s.responseList.length then
        let res := call.result outcome
        let s := { s with
          inFlight := s.inFlight.erase call
          responseList := s.responseList ++ [res] }
        -- a successful result is also queued for replication
        some (if res.status = .success then
          { s with replData := true, replList := s.replList ++ [res] } else s)
      else none
  | .handle =>
      match s.responseList with
      | [] => none
      | res :: rest =>
          let s := { s with responseList := rest, nrpcs := s.nrpcs - 1 }
          if res.status ≠ .success then some { s with jobQ := s.jobQ ++ [res.shardId] }
          else if res.shardId ∈ s.intermediateResultMap then some s
          else some { s with
            intermediateResultMap := s.intermediateResultMap.insertIfNew res.shardId res
            intblobList := s.intblobList ++ res.blobList
            intcontainer := res.cname }

end MapDispatch

/-- `runMapper` at its call of `dispatchMapTasks`: the results of an earlier job are cleared and
all shards are queued by index. -/
def runMapper (m : Master) : MapDispatch :=
  .start { m with intblobList := [], intermediateResultMap := ∅ }
    ((List.range m.shards.length).map Int.ofNat)

/-- `processReplicatedData` at its call of `dispatchMapTasks`: the shards without a replicated
result are queued by id. -/
def processReplicatedData (m : Master) : MapDispatch :=
  .start m ((m.shards.map FileShard.shardId).filter (· ∉ m.intermediateResultMap))

namespace MapDispatch

/-! ## What a step does -/

/-- The effect of one step, one case for each branch of the source. -/
inductive Effect (s : MapDispatch) : MapLabel → MapDispatch → Prop where
  | dispatch (client : ClientId) (i : Int) (jobQ : List Int) (shard : FileShard) :
      s.jobQ = i :: jobQ → s.nrpcs ≤ 10 → vectorAt s.shards i = some shard →
      Effect s (.dispatch client) { s with
        inFlight := s.inFlight ++ [⟨shard.shardId, client⟩]
        nrpcs := s.nrpcs + 1
        jobQ := jobQ }
  | succeed (call : MapCall) (containername : Str) (blobs : List Str) :
      call ∈ s.inFlight →
      Effect s (.complete call (.ok containername blobs)) { s with
        inFlight := s.inFlight.erase call
        responseList := s.responseList ++ [⟨.success, call.shardId, containername, false, blobs⟩]
        replData := true
        replList := s.replList ++ [⟨.success, call.shardId, containername, false, blobs⟩] }
  | fail (call : MapCall) (code : Nat) :
      call ∈ s.inFlight →
      Effect s (.complete call (.error code)) { s with
        inFlight := s.inFlight.erase call
        responseList := s.responseList ++ [call.result (.error code)] }
  | requeue (res : MapperResult) (rest : List MapperResult) :
      s.responseList = res :: rest → res.status ≠ .success →
      Effect s .handle { s with
        responseList := rest
        nrpcs := s.nrpcs - 1
        jobQ := s.jobQ ++ [res.shardId] }
  | drop (res : MapperResult) (rest : List MapperResult) :
      s.responseList = res :: rest → res.status = .success →
      res.shardId ∈ s.intermediateResultMap →
      Effect s .handle { s with responseList := rest, nrpcs := s.nrpcs - 1 }
  | record (res : MapperResult) (rest : List MapperResult) :
      s.responseList = res :: rest → res.status = .success →
      res.shardId ∉ s.intermediateResultMap →
      Effect s .handle { s with
        responseList := rest
        nrpcs := s.nrpcs - 1
        intermediateResultMap := s.intermediateResultMap.insertIfNew res.shardId res
        intblobList := s.intblobList ++ res.blobList
        intcontainer := res.cname }

/-- A failed call never yields a success. -/
theorem result_error_status (call : MapCall) (code : Nat) :
    (call.result (.error code)).status ≠ .success := by
  simp only [MapCall.result]
  split <;> simp

/-- Every step has one of the effects. -/
theorem step_effect {s t : MapDispatch} {l : MapLabel} (h : s.step l = some t) :
    s.Effect l t := by
  cases l with
  | dispatch client =>
      simp only [step] at h
      split at h
      · cases h
      · next i jobQ hq =>
        split at h
        · cases h
        · next hn =>
          obtain ⟨shard, hshard, h⟩ := Option.bind_eq_some_iff.mp h
          cases h
          exact .dispatch client i jobQ shard hq (by omega) hshard
  | complete call outcome =>
      simp only [step, Option.ite_none_right_eq_some, Option.some.injEq] at h
      obtain ⟨⟨hcall, _⟩, rfl⟩ := h
      cases outcome with
      | ok containername blobs => exact .succeed call containername blobs hcall
      | error code =>
          rw [if_neg (result_error_status call code)]
          exact .fail call code hcall
  | handle =>
      simp only [step] at h
      split at h
      · cases h
      · next res rest hlist =>
        split at h
        · next hstatus =>
          cases h
          exact .requeue res rest hlist hstatus
        · next hstatus =>
          split at h
          · next hmem =>
            cases h
            exact .drop res rest hlist (not_not.mp hstatus) hmem
          · next hmem =>
            cases h
            exact .record res rest hlist (not_not.mp hstatus) hmem

/-- The shards do not change. -/
theorem Effect.shards_eq {s t : MapDispatch} {l : MapLabel} (h : s.Effect l t) :
    t.shards = s.shards := by
  cases h <;> rfl

/-- The number of mappers does not change. -/
theorem Effect.nmappers_eq {s t : MapDispatch} {l : MapLabel} (h : s.Effect l t) :
    t.nmappers = s.nmappers := by
  cases h <;> rfl

/-! ## Conservation of shard ids -/

/-- The dispatcher as a work pool: the completed shards are the keys of
`m_IntermediateResultMap`. -/
def pool (s : MapDispatch) : WorkPool Int where
  queued := s.jobQ
  inFlight := s.inFlight.map MapCall.shardId
  answered := s.responseList.map MapperResult.shardId
  settled := s.intermediateResultMap.keys.toFinset

/-- A shard is settled when it has an entry in `m_IntermediateResultMap`. -/
@[simp] theorem mem_pool_settled {s : MapDispatch} {i : Int} :
    i ∈ s.pool.settled ↔ i ∈ s.intermediateResultMap := by
  simp [pool]

/-- `i` is the index of a shard. -/
def IsShard (s : MapDispatch) (i : Int) : Prop := 0 ≤ i ∧ i < s.shards.length

/-- What the correspondence with the pool rests on, and that only shards are dispatched. -/
structure PoolInv (s : MapDispatch) : Prop where
  ids : IdsAreIndices s.shards
  balanced : s.pool.Balanced
  queued : ∀ i ∈ s.jobQ, s.IsShard i
  inFlight : ∀ call ∈ s.inFlight, s.IsShard call.shardId
  answered : ∀ res ∈ s.responseList, s.IsShard res.shardId

/-- Indexing with a queued id yields the shard of that id. -/
theorem PoolInv.queued_shard {s : MapDispatch} (hs : s.PoolInv) {i : Int} (hi : i ∈ s.jobQ) :
    ∃ shard, vectorAt s.shards i = some shard ∧ shard.shardId = i := by
  obtain ⟨hnonneg, hlt⟩ := hs.queued i hi
  have hat : vectorAt s.shards i = some (s.shards.get ⟨i.toNat, by omega⟩) := by
    rw [vectorAt, if_neg (by omega), List.getElem?_eq_getElem]
    rfl
  exact ⟨_, hat, hs.ids.shardId_eq hat⟩

/-- A shard that is queued, in flight or answered has no result yet: it would be in two places. -/
theorem PoolInv.not_settled {s : MapDispatch} (hs : s.PoolInv) {i : Int}
    (hi : i ∈ s.jobQ ∨ i ∈ s.inFlight.map MapCall.shardId ∨
      i ∈ s.responseList.map MapperResult.shardId) :
    i ∉ s.intermediateResultMap := by
  intro hmem
  have htwice := hs.balanced i
  simp only [WorkPool.occupancy, mem_pool_settled, hmem, if_true] at htwice
  simp only [pool, Multiset.coe_count] at htwice
  rcases hi with hi | hi | hi
  all_goals
    have hcount := List.count_pos_iff.mpr hi
    omega

/-- A response for a shard that already has a result cannot occur. -/
theorem PoolInv.not_answered {s : MapDispatch} (hs : s.PoolInv) {res : MapperResult}
    (hres : res ∈ s.responseList) : res.shardId ∉ s.intermediateResultMap :=
  hs.not_settled (Or.inr (Or.inr (List.mem_map_of_mem hres)))

/-- Every step of a dispatcher is a step of its pool. -/
theorem Effect.pool_step {s t : MapDispatch} {l : MapLabel} (h : s.Effect l t)
    (hs : s.PoolInv) : ∃ k, s.pool.step k = some t.pool := by
  cases h with
  | dispatch client i jobQ shard hq _ hshard =>
      refine ⟨.send i, ?_⟩
      simp [WorkPool.step, pool, hq, hs.ids.shardId_eq hshard, WorkPool.coe_snoc, -Multiset.coe_add]
  | succeed call containername blobs hcall =>
      refine ⟨.answer call.shardId, ?_⟩
      have hmem : call.shardId ∈ s.inFlight.map MapCall.shardId := List.mem_map_of_mem hcall
      simp only [WorkPool.step, pool, Multiset.mem_coe, hmem, if_true, Multiset.coe_erase,
        List.map_append, List.map_cons, List.map_nil, WorkPool.coe_snoc,
        WorkPool.coe_map_erase MapCall.shardId hcall]
  | fail call code hcall =>
      refine ⟨.answer call.shardId, ?_⟩
      have hmem : call.shardId ∈ s.inFlight.map MapCall.shardId := List.mem_map_of_mem hcall
      simp only [WorkPool.step, pool, Multiset.mem_coe, hmem, if_true, Multiset.coe_erase,
        List.map_append, List.map_cons, List.map_nil, WorkPool.coe_snoc,
        WorkPool.coe_map_erase MapCall.shardId hcall, MapCall.result]
  | requeue res rest hlist _ =>
      refine ⟨.requeue res.shardId, ?_⟩
      simp [WorkPool.step, pool, hlist, WorkPool.coe_snoc, -Multiset.coe_add]
  | drop res rest hlist _ hmem => exact absurd hmem (hs.not_answered (by simp [hlist]))
  | record res rest hlist _ hmem =>
      refine ⟨.settle res.shardId, ?_⟩
      have hkeys : (s.intermediateResultMap.insertIfNew res.shardId res).keys.toFinset =
          insert res.shardId s.intermediateResultMap.keys.toFinset := by
        ext i
        simp [@eq_comm _ i]
      simp [WorkPool.step, pool, hlist, hkeys]

/-- The correspondence with the pool survives every step. -/
theorem PoolInv.step {s t : MapDispatch} {l : MapLabel} (hs : s.PoolInv)
    (h : s.Effect l t) : t.PoolInv := by
  obtain ⟨k, hk⟩ := h.pool_step hs
  have hbalanced : t.pool.Balanced := fun i => by
    rw [WorkPool.step_occupancy hs.balanced hk i]
    exact hs.balanced i
  have hids : IdsAreIndices t.shards := h.shards_eq ▸ hs.ids
  obtain ⟨_, _, hqueued, hinFlight, hanswered⟩ := hs
  cases h with
  | dispatch client i jobQ shard hq _ hshard =>
      simp only [hq, List.forall_mem_cons] at hqueued
      refine ⟨hids, hbalanced, hqueued.2, ?_, hanswered⟩
      intro call hcall
      rcases List.mem_append.mp hcall with hold | hnew
      · exact hinFlight call hold
      · obtain rfl := List.mem_singleton.mp hnew
        exact hids.shardId_eq hshard ▸ hqueued.1
  | succeed call _ _ hcall | fail call _ hcall =>
      refine ⟨hids, hbalanced, hqueued, fun c hc => hinFlight c (List.mem_of_mem_erase hc), ?_⟩
      intro res hres
      rcases List.mem_append.mp hres with hold | hnew
      · exact hanswered res hold
      · obtain rfl := List.mem_singleton.mp hnew
        exact hinFlight call hcall
  | requeue res rest hlist _ =>
      simp only [hlist, List.forall_mem_cons] at hanswered
      refine ⟨hids, hbalanced, ?_, hinFlight, hanswered.2⟩
      intro i hi
      rcases List.mem_append.mp hi with hold | hnew
      · exact hqueued i hold
      · obtain rfl := List.mem_singleton.mp hnew
        exact hanswered.1
  | drop res rest hlist _ _ | record res rest hlist _ _ =>
      simp only [hlist, List.forall_mem_cons] at hanswered
      exact ⟨hids, hbalanced, hqueued, hinFlight, hanswered.2⟩

/-- Every run of a dispatcher is a run of its pool, so the number of places that hold a shard id
never changes. -/
theorem occupancy_eq {s t : MapDispatch} (hs : s.PoolInv)
    (h : Machine.Reachable MapDispatch.step s t) (i : Int) :
    t.pool.occupancy i = s.pool.occupancy i := by
  refine WorkPool.reachable_occupancy hs.balanced ?_ i
  refine h.simulation hs (fun m l t hm hstep => hm.step (step_effect hstep)) ?_
  intro m l t hm hstep
  obtain ⟨k, hk⟩ := (step_effect hstep).pool_step hm
  exact .head hk (.refl _)

/-! ## The counter of calls -/

/-- `nrpcs` counts the calls in flight and the responses not yet handled, and is at most 11. -/
structure CounterInv (s : MapDispatch) : Prop where
  nrpcs_eq : s.nrpcs = s.inFlight.length + s.responseList.length
  nrpcs_le : s.nrpcs ≤ 11

/-- The counter stays right. -/
theorem CounterInv.step {s t : MapDispatch} {l : MapLabel} (hs : s.CounterInv)
    (h : s.Effect l t) : t.CounterInv := by
  obtain ⟨heq, hle⟩ := hs
  cases h with
  | dispatch client i jobQ shard _ hn _ =>
      refine ⟨?_, by simp only; omega⟩
      simp only [List.length_append, List.length_singleton]
      omega
  | succeed call _ _ hcall | fail call _ hcall =>
      have hpos := List.length_pos_of_mem hcall
      refine ⟨?_, hle⟩
      simp only [List.length_erase_of_mem hcall, List.length_append, List.length_singleton]
      omega
  | requeue res rest hlist _ | drop res rest hlist _ _ | record res rest hlist _ _ =>
      simp only [hlist, List.length_cons] at heq
      exact ⟨by simp only; omega, by simp only; omega⟩

/-- The number of tasks in all places. -/
def tasks (s : MapDispatch) : Nat :=
  s.jobQ.length + s.inFlight.length + s.responseList.length + s.intermediateResultMap.size

/-- No step changes the number of tasks. -/
theorem Effect.tasks_eq {s t : MapDispatch} {l : MapLabel} (h : s.Effect l t) (hs : s.PoolInv) :
    t.tasks = s.tasks := by
  cases h with
  | dispatch client i jobQ shard hq _ _ =>
      simp only [tasks, hq, List.length_append, List.length_cons, List.length_nil]
      omega
  | succeed call _ _ hcall | fail call _ hcall =>
      have hpos := List.length_pos_of_mem hcall
      simp only [tasks, List.length_erase_of_mem hcall, List.length_append, List.length_singleton]
      omega
  | requeue res rest hlist _ =>
      simp only [tasks, hlist, List.length_append, List.length_cons, List.length_nil]
      omega
  | drop res rest hlist _ hmem => exact absurd hmem (hs.not_answered (by simp [hlist]))
  | record res rest hlist _ hmem =>
      simp only [tasks, hlist, size_emplace hmem, List.length_cons]
      omega

/-! ## The recorded results -/

/-- The result a label appends to `responseList`, if it is a completion. -/
def answer? : MapLabel → Option MapperResult
  | .complete call outcome => some (call.result outcome)
  | _ => none

/-- The results a run appends to `responseList`. -/
def answers (ls : List MapLabel) : List MapperResult := ls.filterMap answer?

/-- A step appends at most its own result. -/
theorem answers_snoc (ls : List MapLabel) (l : MapLabel) :
    answers (ls ++ [l]) = answers ls ++ (answer? l).toList := by
  rw [answers, List.filterMap_append]
  cases h : answer? l <;> simp [h, answers]

/-- The successful results among `rs`. -/
def successes (rs : List MapperResult) : List MapperResult :=
  rs.filter fun r => r.status = .success

/-- `Recorded s₀ ls s done`: the results handled and recorded by the run `ls` from `s₀` to `s` are
`done`, in order. Together with the successes still waiting they are all successes of the run;
each is the entry of its shard, a shard has at most one of them and had no entry before; and
their blob lists are what was appended to `m_IntblobList`. -/
structure Recorded (s₀ : MapDispatch) (ls : List MapLabel) (s : MapDispatch)
    (done : List MapperResult) : Prop where
  all : done ++ successes s.responseList = successes (answers ls)
  blobs : s.intblobList = s₀.intblobList ++ done.flatMap MapperResult.blobList
  entry : ∀ r ∈ done, s.intermediateResultMap[r.shardId]? = some r
  once : (done.map MapperResult.shardId).Nodup
  fresh : ∀ r ∈ done, r.shardId ∉ s₀.intermediateResultMap
  keys : ∀ i, i ∈ s.intermediateResultMap ↔
    i ∈ s₀.intermediateResultMap ∨ i ∈ done.map MapperResult.shardId
  kept : ∀ i, i ∈ s₀.intermediateResultMap →
    s.intermediateResultMap[i]? = s₀.intermediateResultMap[i]?

/-- One step extends what is recorded by the response it records, if any. -/
theorem Recorded.step {s₀ s t : MapDispatch} {ls : List MapLabel} {l : MapLabel}
    {done : List MapperResult} (hr : Recorded s₀ ls s done) (hs : s.PoolInv)
    (h : s.Effect l t) : ∃ done', Recorded s₀ (ls ++ [l]) t done' := by
  have hall := hr.all
  cases h with
  | dispatch client i jobQ shard hq hn hshard =>
      exact ⟨done, { hr with all := by simpa [answers_snoc, answer?] using hall }⟩
  | succeed call containername blobs hcall =>
      refine ⟨done, { hr with all := ?_ }⟩
      simp only [answers_snoc, successes, List.filter_append] at hall ⊢
      rw [← hall]
      simp [answer?, MapCall.result]
  | fail call code hcall =>
      refine ⟨done, { hr with all := ?_ }⟩
      simp only [answers_snoc, successes, List.filter_append] at hall ⊢
      rw [← hall]
      simp [answer?, result_error_status]
  | requeue res rest hlist hstatus =>
      refine ⟨done, { hr with all := ?_ }⟩
      simpa [answers_snoc, answer?, hlist, successes, hstatus] using hall
  | drop res rest hlist _ hmem => exact absurd hmem (hs.not_answered (by simp [hlist]))
  | record res rest hlist hstatus hmem =>
      have hnew : res.shardId ∉ s₀.intermediateResultMap ∧
          res.shardId ∉ done.map MapperResult.shardId :=
        not_or.mp fun h => hmem ((hr.keys _).mpr h)
      refine ⟨done ++ [res], ?_⟩
      exact {
        all := by simpa [answers_snoc, answer?, hlist, successes, hstatus] using hall
        blobs := by simp [hr.blobs]
        entry := by
          intro r hmem'
          rcases List.mem_append.mp hmem' with hold | hlast
          · have hne : res.shardId ≠ r.shardId := fun heq =>
              hnew.2 (heq ▸ List.mem_map_of_mem hold)
            rw [get_emplace hmem, if_neg hne]
            exact hr.entry r hold
          · obtain rfl := List.mem_singleton.mp hlast
            rw [get_emplace hmem, if_pos rfl]
        once := by
          rw [List.map_append]
          refine hr.once.append (by simp) ?_
          simpa [List.disjoint_singleton] using hnew.2
        fresh := by
          intro r hmem'
          rcases List.mem_append.mp hmem' with hold | hlast
          · exact hr.fresh r hold
          · obtain rfl := List.mem_singleton.mp hlast
            exact hnew.1
        keys := by
          intro i
          simp only [List.map_append, List.mem_append, List.map_cons, List.map_nil,
            List.mem_singleton]
          rw [mem_emplace, hr.keys i, or_comm, or_assoc, @eq_comm _ i]
        kept := by
          intro i hi
          have hne : res.shardId ≠ i := fun heq => hnew.1 (heq ▸ hi)
          rw [get_emplace hmem, if_neg hne]
          exact hr.kept i hi }

/-! ## The entry of `dispatchMapTasks` -/

/-- The state `dispatchMapTasks` is entered with: nothing is outstanding, and the queue holds
once each shard that has no result. -/
structure Entry (s : MapDispatch) : Prop where
  ids : IdsAreIndices s.shards
  nodup : s.jobQ.Nodup
  queued : ∀ i, i ∈ s.jobQ ↔ (0 ≤ i ∧ i < s.shards.length) ∧ i ∉ s.intermediateResultMap
  inFlight : s.inFlight = []
  responseList : s.responseList = []
  nrpcs : s.nrpcs = 0

/-- On entry a shard is held once, and nothing else is held but in the result map. -/
theorem Entry.occupancy_eq {s : MapDispatch} (hs : s.Entry) (i : Int) :
    s.pool.occupancy i =
      if (0 ≤ i ∧ i < s.shards.length) ∨ i ∈ s.intermediateResultMap then 1 else 0 := by
  have hcount : s.jobQ.count i = if i ∈ s.jobQ then 1 else 0 := by
    split
    · next hmem =>
      exact List.count_eq_one_of_mem hs.nodup hmem
    · next hmem =>
      exact List.count_eq_zero_of_not_mem hmem
  simp only [WorkPool.occupancy, mem_pool_settled]
  simp only [pool, hs.inFlight, hs.responseList, List.map_nil, Multiset.coe_count,
    List.count_nil, hcount, hs.queued]
  by_cases hmap : i ∈ s.intermediateResultMap <;> simp [hmap]

/-- The correspondence with the pool holds on entry. -/
theorem Entry.poolInv {s : MapDispatch} (hs : s.Entry) : s.PoolInv where
  ids := hs.ids
  balanced := fun i => by
    rw [hs.occupancy_eq]
    split <;> omega
  queued := fun i hi => ((hs.queued i).mp hi).1
  inFlight := by simp [hs.inFlight]
  answered := by simp [hs.responseList]

/-- The counter is right on entry. -/
theorem Entry.counterInv {s : MapDispatch} (hs : s.Entry) : s.CounterInv := by
  constructor <;> simp [hs.inFlight, hs.responseList, hs.nrpcs]

/-- Nothing is recorded on entry. -/
theorem Entry.recorded {s : MapDispatch} (hs : s.Entry) : Recorded s [] s [] where
  all := by simp [hs.responseList, successes, answers]
  blobs := by simp
  entry := by simp
  once := by simp
  fresh := by simp
  keys := by simp
  kept := fun _ _ => rfl

end MapDispatch

/-- Where the ids are the indices, the list of ids is the list of indices. -/
theorem IdsAreIndices.map_shardId {shards : List FileShard} (hids : IdsAreIndices shards) :
    shards.map FileShard.shardId = (List.range shards.length).map Int.ofNat := by
  refine List.ext_getElem (by simp) fun i h _ => ?_
  simpa using hids i (by simpa using h)

/-- `runMapper` enters `dispatchMapTasks` with all shards queued. -/
theorem run_mapper_entry {m : Master} (hids : IdsAreIndices m.shards) : (runMapper m).Entry where
  ids := hids
  nodup := nodup_indices _
  queued := fun i => by simp [runMapper, MapDispatch.start, mem_indices]
  inFlight := rfl
  responseList := rfl
  nrpcs := rfl

/-- `processReplicatedData` enters `dispatchMapTasks` with the shards that have no replicated
result. -/
theorem process_replicated_data_entry {m : Master} (hids : IdsAreIndices m.shards) :
    (processReplicatedData m).Entry where
  ids := hids
  nodup := by
    simp only [processReplicatedData, MapDispatch.start, hids.map_shardId]
    exact (nodup_indices _).filter _
  queued := fun i => by
    simp only [processReplicatedData, MapDispatch.start, hids.map_shardId, List.mem_filter,
      mem_indices, decide_eq_true_eq]
  inFlight := rfl
  responseList := rfl
  nrpcs := rfl

namespace MapDispatch

/-- What every run from the entry of `dispatchMapTasks` keeps. -/
theorem Entry.run {s₀ s : MapDispatch} {ls : List MapLabel} (hs : s₀.Entry)
    (hrun : Machine.run MapDispatch.step s₀ ls = some s) :
    s.PoolInv ∧ s.CounterInv ∧ s.shards = s₀.shards ∧ s.nmappers = s₀.nmappers ∧
      s.tasks = s₀.tasks ∧ ∃ done, Recorded s₀ ls s done := by
  refine Machine.run_induction (motive := fun ls s => s.PoolInv ∧ s.CounterInv ∧
    s.shards = s₀.shards ∧ s.nmappers = s₀.nmappers ∧ s.tasks = s₀.tasks ∧
    ∃ done, Recorded s₀ ls s done)
    ⟨hs.poolInv, hs.counterInv, rfl, rfl, rfl, [], hs.recorded⟩ ?_ hrun
  intro ls m l t _ hinv hstep
  obtain ⟨hpool, hcounter, hshards, hn, htasks, done, hdone⟩ := hinv
  have heffect := step_effect hstep
  exact ⟨hpool.step heffect, hcounter.step heffect, heffect.shards_eq.trans hshards,
    heffect.nmappers_eq.trans hn, (heffect.tasks_eq hpool).trans htasks,
    hdone.step hpool heffect⟩

end MapDispatch

/-- Map dispatch never loses or duplicates a shard. From `runMapper` or from a takeover, in every
order of steps: each shard id is held exactly once by the queue, the calls in flight, the response
list and the keys of `m_IntermediateResultMap`; `nrpcs` counts the calls in flight and the
responses waiting, and never exceeds 11; and the blobs appended to `m_IntblobList` are those of
`done`, the successful attempts recorded so far, one for each shard completed since the start. -/
theorem map_dispatch_conserves (m : Master) (hids : IdsAreIndices m.shards) (s₀ : MapDispatch)
    (hstart : s₀ = runMapper m ∨ s₀ = processReplicatedData m) (ls : List MapLabel)
    (s : MapDispatch) (hrun : Machine.run MapDispatch.step s₀ ls = some s) :
    (∀ i : Int, 0 ≤ i → i < m.shards.length →
      s.jobQ.count i + (s.inFlight.map MapCall.shardId).count i +
        (s.responseList.map MapperResult.shardId).count i +
        (if i ∈ s.intermediateResultMap then 1 else 0) = 1) ∧
    (∀ i ∈ s.jobQ ++ s.inFlight.map MapCall.shardId ++ s.responseList.map MapperResult.shardId,
      0 ≤ i ∧ i < m.shards.length) ∧
    s.nrpcs = s.inFlight.length + s.responseList.length ∧ s.nrpcs ≤ 11 ∧
    ∃ done : List MapperResult,
      s.intblobList = s₀.intblobList ++ done.flatMap MapperResult.blobList ∧
      done ++ s.responseList.filter (·.status = .success) =
        (MapDispatch.answers ls).filter (·.status = .success) ∧
      (∀ r ∈ done, s.intermediateResultMap[r.shardId]? = some r) ∧
      (done.map MapperResult.shardId).Nodup ∧
      ∀ i, i ∈ done.map MapperResult.shardId ↔
        i ∈ s.intermediateResultMap ∧ i ∉ s₀.intermediateResultMap := by
  have hentry : s₀.Entry ∧ s₀.shards = m.shards := by
    rcases hstart with rfl | rfl
    · exact ⟨run_mapper_entry hids, rfl⟩
    · exact ⟨process_replicated_data_entry hids, rfl⟩
  obtain ⟨hentry, hshards⟩ := hentry
  obtain ⟨hpool, hcounter, hshards', _, _, done, hdone⟩ := hentry.run hrun
  have hplaces : ∀ i, s.jobQ.count i + (s.inFlight.map MapCall.shardId).count i +
      (s.responseList.map MapperResult.shardId).count i +
      (if i ∈ s.intermediateResultMap then 1 else 0) =
      if (0 ≤ i ∧ i < m.shards.length) ∨ i ∈ s₀.intermediateResultMap then 1 else 0 := by
    intro i
    rw [← hshards, ← hentry.occupancy_eq i,
      ← MapDispatch.occupancy_eq hentry.poolInv ⟨ls, hrun⟩ i]
    simp [WorkPool.occupancy, MapDispatch.pool]
  refine ⟨?_, ?_, hcounter.nrpcs_eq, hcounter.nrpcs_le, done, hdone.blobs, hdone.all,
    hdone.entry, hdone.once, ?_⟩
  · intro i hnonneg hlt
    rw [hplaces, if_pos (Or.inl ⟨hnonneg, hlt⟩)]
  · intro i hi
    rw [← hshards, ← hshards']
    rcases List.mem_append.mp hi with hi | hi
    · rcases List.mem_append.mp hi with hi | hi
      · exact hpool.queued i hi
      · obtain ⟨call, hcall, rfl⟩ := List.mem_map.mp hi
        exact hpool.inFlight call hcall
    · obtain ⟨res, hres, rfl⟩ := List.mem_map.mp hi
      exact hpool.answered res hres
  · intro i
    constructor
    · intro hi
      refine ⟨(hdone.keys i).mpr (Or.inr hi), ?_⟩
      obtain ⟨r, hr, rfl⟩ := List.mem_map.mp hi
      exact hdone.fresh r hr
    · intro hboth
      obtain ⟨hi, hnot⟩ := hboth
      exact ((hdone.keys i).mp hi).resolve_left hnot

/-- Two shards, of which the first fails and the second is mapped: the first is back in the
queue, the second is recorded with its blob. -/
theorem map_dispatch_conserves_two_shards :
    ∃ s, Machine.run MapDispatch.step
        (runMapper { Master.init with nmappers := 2, shards := [⟨0, []⟩, ⟨1, []⟩] })
        [.dispatch 7, .dispatch 8, .complete ⟨0, 7⟩ (.error 14),
          .complete ⟨1, 8⟩ (.ok ['c'] [['b']]), .handle, .handle] = some s ∧
      s.jobQ = [0] ∧ s.intblobList = [['b']] ∧ s.nrpcs ≤ 11 ∧
      s.jobQ.count 0 + (s.inFlight.map MapCall.shardId).count 0 +
        (s.responseList.map MapperResult.shardId).count 0 +
        (if 0 ∈ s.intermediateResultMap then 1 else 0) = 1 := by
  refine ⟨_, rfl, rfl, rfl, ?_⟩
  have hconserved := map_dispatch_conserves
    { Master.init with nmappers := 2, shards := [⟨0, []⟩, ⟨1, []⟩] } (by decide) _ (Or.inl rfl)
    [.dispatch 7, .dispatch 8, .complete ⟨0, 7⟩ (.error 14),
      .complete ⟨1, 8⟩ (.ok ['c'] [['b']]), .handle, .handle] _ rfl
  exact ⟨hconserved.2.2.2.1, hconserved.1 0 (by decide) (by decide)⟩

end MapReduce
