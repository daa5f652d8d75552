import MapReduce.Master.LeaderCheckpoints

/-!
# Shard ids

`dispatchMapTasks` uses the ids in `job_q` as indices of `m_shards`, although some of them are
positions (`runMapper`), some are shard ids (`processReplicatedData`) and some are the ids of calls
that failed. Read `shard_ids_are_indices` first: among any number of masters that shard, replicate,
take over and map, the id of a shard is always its position, so all of them are the same.

A `Masters` holds the processes and the checkpoints that were sent. A process is a follower, which
receives checkpoints, until it is elected; `wait_until_leader` has shut the replication server down
by then (`w7/src/master/masterimpl.cc`), so a leader receives none. A checkpoint may arrive late,
more than once or never, at any follower. The replication thread of an earlier request may also read
`m_shards` while `create_sharding_data` is filling it; `JoinLoop` has these states.
-/

namespace MapReduce

/-! ## The loop of `create_sharding_data` -/

/-- Appending a shard whose id is the next position. -/
theorem IdsAreIndices.snoc {shards : List FileShard} (h : IdsAreIndices shards) {shard : FileShard}
    (hid : shard.shardId = shards.length) : IdsAreIndices (shards ++ [shard]) := by
  intro i hi
  by_cases hlt : i < shards.length
  · rw [List.getElem_append_left hlt]
    exact h i hlt
  · have hlast : i = shards.length := by
      rw [List.length_append, List.length_singleton] at hi
      omega
    subst hlast
    rw [List.getElem_concat_length rfl]
    exact hid

/-- The variables of the loop of `create_sharding_data` that joins partial pieces: `m_shards`,
`info_set` and the static counter. -/
structure JoinLoop where
  shards : List FileShard
  infoSet : List ShardData
  id : Int

namespace JoinLoop

/-- The variables before the loop, when the counter has been reset. -/
def start : JoinLoop := ⟨[], [], (getShardId true 0).2⟩

/-- The body of the loop. -/
def next (v : JoinLoop) (item : ShardInfo) : JoinLoop :=
  let infoSet := v.infoSet ++ [item.data]
  if item.isPartial then { v with infoSet := infoSet }
  else
    let (sid, id) := getShardId false v.id
    ⟨v.shards ++ [⟨sid, infoSet⟩], [], id⟩

/-- The shards and the counter after the open set, if there is one, has become a shard. -/
def finish (v : JoinLoop) : List FileShard × Int :=
  if v.infoSet.length > 0 then
    let (sid, id) := getShardId false v.id
    (v.shards ++ [⟨sid, v.infoSet⟩], id)
  else (v.shards, v.id)

/-- The loop, run to its end, appends what `joinShards` returns. -/
theorem finish_foldl (v : JoinLoop) (pieces : List ShardInfo) :
    (pieces.foldl next v).finish =
      (v.shards ++ (joinShards v.id v.infoSet pieces).1, (joinShards v.id v.infoSet pieces).2) := by
  induction pieces generalizing v with
  | nil =>
      rw [List.foldl_nil, finish, joinShards]
      split
      · rfl
      · rw [List.append_nil]
  | cons item pieces ih =>
      rw [List.foldl_cons, ih, joinShards]
      cases hpartial : item.isPartial with
      | true => simp [next, hpartial]
      | false => simp [next, hpartial]

/-- The shards are numbered by position, and the counter is the id of the last one. -/
structure Numbered (v : JoinLoop) : Prop where
  ids : IdsAreIndices v.shards
  counter : v.id + 1 = v.shards.length

/-- No shard is there before the loop. -/
theorem start_numbered : start.Numbered := ⟨.nil, rfl⟩

/-- One pass of the loop. -/
theorem Numbered.next {v : JoinLoop} (h : v.Numbered) (item : ShardInfo) :
    (v.next item).Numbered := by
  unfold JoinLoop.next
  split
  · exact ⟨h.ids, h.counter⟩
  · refine ⟨h.ids.snoc h.counter, ?_⟩
    show v.id + 1 + 1 = ((v.shards ++ [_]).length : Int)
    rw [h.counter, List.length_append]
    rfl

/-- Any number of passes of the loop. -/
theorem Numbered.foldl {v : JoinLoop} (h : v.Numbered) (pieces : List ShardInfo) :
    (pieces.foldl JoinLoop.next v).Numbered := by
  induction pieces generalizing v with
  | nil => exact h
  | cons item pieces ih => exact ih (h.next item)

/-- The end of the loop. -/
theorem Numbered.finish {v : JoinLoop} (h : v.Numbered) : IdsAreIndices v.finish.1 := by
  unfold JoinLoop.finish
  split
  · exact h.ids.snoc h.counter
  · exact h.ids

end JoinLoop

/-- `create_sharding_data` runs the loop over the pieces of `make_shards`. -/
theorem create_sharding_data_eq (fuel : Nat) (items : List ListBlobItem) (m : Master) :
    createShardingData fuel (some items) m =
      (calcShardSz items m.nmappers).bind fun shardsz =>
        (makeShards fuel shardsz items).map fun pieces =>
          let joined := (pieces.foldl JoinLoop.next .start).finish
          { m with shardsz := shardsz, shards := joined.1, shardCounter := joined.2 } := by
  show (calcShardSz items m.nmappers).bind _ = _
  cases calcShardSz items m.nmappers with
  | none => rfl
  | some shardsz =>
      show (makeShards fuel shardsz items).bind _ = (makeShards fuel shardsz items).map _
      cases makeShards fuel shardsz items with
      | none => rfl
      | some pieces =>
          rw [Option.map_some, JoinLoop.finish_foldl]
          rfl

/-! ## A leader -/

/-- The reduce phase does not touch the shards. -/
theorem ReduceDispatch.Effect.shards_eq {s t : ReduceDispatch} {l : ReduceLabel}
    (h : s.Effect l t) : t.shards = s.shards := by
  cases h <;> rfl

namespace JobPhase

/-- The shards are numbered by position, and a dispatcher queues only shards. -/
def Numbered : JobPhase → Prop
  | .booting m | .idle m | .requested m | .sharded m => IdsAreIndices m.shards
  | .mapping d => d.data.PoolInv
  | .reducing d => IdsAreIndices d.shards

/-- In every phase the shards are numbered by position. -/
theorem Numbered.ids {p : JobPhase} (h : p.Numbered) : IdsAreIndices p.master.shards := by
  cases p with
  | booting m | idle m | requested m | sharded m | reducing d => exact h
  | mapping d => exact MapDispatch.PoolInv.ids h

end JobPhase

/-- A step of a leader keeps the shards numbered. -/
theorem Leader.numbered_step {s t : Leader} {l : LeaderLabel} (hs : s.phase.Numbered)
    (h : s.step l = some t) : t.phase.Numbered := by
  obtain ⟨-, heffect⟩ := step_effect h
  cases heffect with
  | takeOver m hphase =>
      rw [hphase] at hs
      rw [assign_t1_phase]
      exact (process_replicated_data_entry hs).poolInv
  | serve m hphase | request m clients nmappers nreducers containername hphase
  | rejectShards m cleared hphase | finish d hphase =>
      rw [hphase] at hs
      exact hs
  | shardAlone m m' fuel db follower hphase hshards _ =>
      exact (create_sharding_data_ids hshards).1
  | shardReplicated m m' fuel db follower hphase hshards _ =>
      rw [assign_repl_clt_thd_phase]
      exact (create_sharding_data_ids hshards).1
  | rejectRequest m cleared hphase =>
      rw [hphase] at hs
      cases cleared with
      | true => exact IdsAreIndices.nil
      | false => exact hs
  | map m hphase =>
      rw [hphase] at hs
      rw [assign_t1_phase]
      exact (run_mapper_entry hs).poolInv
  | mapStep d d' l hphase hd =>
      rw [hphase] at hs
      exact MapLoop.data_invariant (P := MapDispatch.PoolInv) (MapDispatch.PoolInv.step hs) hs hd
  | reduce d hphase =>
      rw [hphase] at hs
      rw [assign_r1_phase]
      exact MapDispatch.PoolInv.ids hs
  | reduceStep d d' l hphase hd =>
      rw [hphase] at hs
      show IdsAreIndices d'.shards
      rw [(ReduceDispatch.step_effect hd).shards_eq]
      exact hs

/-! ## Processes -/

/-- A master process: a follower until it is elected. -/
inductive MasterProcess where
  | follower (m : Master)
  | leading (s : Leader)

/-- When another thread of a process reads its members: between two steps, after
`create_sharding_data` has cleared `m_shards`, or after `seen` passes of its loop. -/
inductive View where
  | whole
  | cleared
  | joining (fuel shardsz : Nat) (items : List ListBlobItem) (seen : Nat)

/-- What a process does by itself: it is started again, elected, or works as a leader. In `shard`
the size of a shard is left open: the source rounds a `float`, and converts it to `size_t` also
where the number of mappers is not positive. -/
inductive ProcessLabel where
  | restart
  | elect
  | work (l : LeaderLabel)
  | shard (fuel shardsz : Nat) (items : List ListBlobItem) (replicated : Bool)

namespace MasterProcess

/-- The members of a process, as another thread sees them. -/
def view : MasterProcess → View → Option Master
  | .follower m, .whole => some m
  | .follower _, _ => none
  | .leading s, .whole => some s.master
  | .leading s, .cleared =>
      match s.phase with
      | .requested m => some { m with shards := [] }
      | _ => none
  | .leading s, .joining fuel shardsz items seen =>
      match s.phase with
      | .requested m => do
          let pieces ← makeShards fuel shardsz items
          let v := (pieces.take seen).foldl JoinLoop.next .start
          some { m with shardsz := shardsz, shards := v.shards, shardCounter := v.id }
      | _ => none

/-- The variables of `dispatchMapTasks`, while it runs. -/
def dispatcher : MasterProcess → Option MapDispatch
  | .follower _ => none
  | .leading s =>
      match s.phase with
      | .mapping d => some d.data
      | _ => none

/-- One step of a process. -/
def step (p : MasterProcess) : ProcessLabel → Option MasterProcess
  | .restart => some (.follower .init)
  | .elect =>
      match p with
      | .follower m => some (.leading (.start m))
      | .leading _ => none
  | .work l =>
      match p with
      | .follower _ => none
      | .leading s => (s.step l).map .leading
  | .shard fuel shardsz items replicated =>
      match p with
      | .follower _ => none
      | .leading s =>
          match s.terminated, s.phase with
          | false, .requested m => do
              let pieces ← makeShards fuel shardsz items
              let joined := (pieces.foldl JoinLoop.next .start).finish
              let m := { m with shardsz := shardsz, shards := joined.1, shardCounter := joined.2 }
              let s := { s with phase := .sharded m }
              some (.leading (if replicated then s.assignReplCltThd else s))
          | _, _ => none

/-- `deserialize_data` of a checkpoint that arrives at the replication server of a follower. -/
def receive (p : MasterProcess) (checkpoint : CheckPointData) : Option MasterProcess :=
  match p with
  | .follower m => some (.follower (deserializeData checkpoint m))
  | .leading _ => none

/-- Where the size of a shard is the one of `calc_shard_sz`, `shard` is the step of the leader. -/
theorem step_shard_eq {s : Leader} {m : Master} (hphase : s.phase = .requested m) {shardsz : Nat}
    {items : List ListBlobItem} (hsize : calcShardSz items m.nmappers = some shardsz) (fuel : Nat)
    (replicated : Bool) :
    step (.leading s) (.shard fuel shardsz items replicated) =
      step (.leading s) (.work (.shard fuel (some items) replicated)) := by
  cases hterm : s.terminated with
  | true => simp [step, Leader.step, hterm]
  | false =>
      simp only [step, Leader.step, Leader.next, hterm, hphase, create_sharding_data_eq, hsize,
        Option.bind_some, Bool.false_eq_true, if_false]
      cases makeShards fuel shardsz items with
      | none => rfl
      | some pieces => simp

/-- The shards of a process are numbered by position. -/
def Numbered : MasterProcess → Prop
  | .follower m => IdsAreIndices m.shards
  | .leading s => s.phase.Numbered

/-- Whenever another thread reads the shards of a process, they are numbered by position. -/
theorem Numbered.view {p : MasterProcess} (h : p.Numbered) {v : View} {m : Master}
    (hview : p.view v = some m) : IdsAreIndices m.shards := by
  cases p with
  | follower m' =>
      cases v with
      | whole =>
          cases hview
          exact h
      | cleared | joining => cases hview
  | leading s =>
      cases v with
      | whole =>
          cases hview
          exact JobPhase.Numbered.ids h
      | cleared =>
          simp only [MasterProcess.view] at hview
          split at hview
          · cases hview
            exact .nil
          · cases hview
      | joining fuel shardsz items seen =>
          simp only [MasterProcess.view] at hview
          split at hview
          · obtain ⟨pieces, -, hview⟩ := Option.bind_eq_some_iff.mp hview
            cases hview
            exact (JoinLoop.start_numbered.foldl (pieces.take seen)).ids
          · cases hview

/-- A process that takes a step keeps its shards numbered. -/
theorem Numbered.step {p q : MasterProcess} (hp : p.Numbered) {l : ProcessLabel}
    (h : p.step l = some q) : q.Numbered := by
  cases l with
  | restart =>
      cases h
      exact IdsAreIndices.nil
  | elect =>
      cases p with
      | follower m =>
          cases h
          exact hp
      | leading s => cases h
  | work l =>
      cases p with
      | follower m => cases h
      | leading s =>
          obtain ⟨t, hstep, rfl⟩ := Option.map_eq_some_iff.mp h
          exact Leader.numbered_step hp hstep
  | shard fuel shardsz items replicated =>
      cases p with
      | follower m => cases h
      | leading s =>
          simp only [MasterProcess.step] at h
          split at h
          · obtain ⟨pieces, -, h⟩ := Option.bind_eq_some_iff.mp h
            have hids := (JoinLoop.start_numbered.foldl pieces).finish
            cases h
            show JobPhase.Numbered (Leader.phase _)
            cases replicated with
            | true =>
                rw [if_pos rfl, Leader.assign_repl_clt_thd_phase]
                exact hids
            | false => exact hids
          · cases h

/-- A process that receives a checkpoint takes over the numbers of its sender. -/
theorem Numbered.receive {p q : MasterProcess} {sender : Master}
    (hsender : IdsAreIndices sender.shards) (h : p.receive (serializeData sender) = some q) :
    q.Numbered := by
  cases p with
  | follower m =>
      cases h
      exact deserialize_ids sender m hsender
  | leading s => cases h

/-- The queue of a dispatcher holds indices of shards, and each selects the shard of that id. -/
theorem Numbered.queued {p : MasterProcess} (h : p.Numbered) {d : MapDispatch}
    (hdispatch : p.dispatcher = some d) {i : Int} (hi : i ∈ d.jobQ) :
    (0 ≤ i ∧ i < d.shards.length) ∧
      ∃ shard, vectorAt d.shards i = some shard ∧ shard.shardId = i := by
  have hpool : d.PoolInv := by
    cases p with
    | follower m => cases hdispatch
    | leading s =>
        obtain ⟨phase, id, replCltThd, t1, r1, terminated, obtained⟩ := s
        cases phase with
        | mapping loop =>
            cases hdispatch
            exact h
        | booting | idle | requested | sharded | reducing => cases hdispatch
  exact ⟨hpool.queued i hi, hpool.queued_shard hi⟩

end MasterProcess

/-- The masters and the checkpoints they have sent. -/
structure Masters (ι : Type) where
  processes : ι → MasterProcess
  sent : List CheckPointData

/-- A step of a process, a checkpoint that is sent, or one that arrives. -/
inductive MastersLabel (ι : Type) where
  | work (n : ι) (l : ProcessLabel)
  | push (n : ι) (v : View)
  | receive (n : ι) (k : Nat)

namespace Masters

variable {ι : Type}

/-- New processes, before any checkpoint. -/
def start : Masters ι := ⟨fun _ => .follower .init, []⟩

/-- The shards of every process are numbered by position, and each checkpoint was built from
members whose shards were. -/
structure Inv (s : Masters ι) : Prop where
  processes : ∀ n, (s.processes n).Numbered
  sent : ∀ checkpoint ∈ s.sent, ∃ sender, checkpoint = serializeData sender ∧
    IdsAreIndices sender.shards

/-- Before anything happens no master holds a shard. -/
theorem start_inv : (start : Masters ι).Inv :=
  ⟨fun _ => IdsAreIndices.nil, nofun⟩

variable [DecidableEq ι]

/-- One step of the masters. -/
def step (s : Masters ι) : MastersLabel ι → Option (Masters ι)
  | .work n l => do
      let p ← (s.processes n).step l
      some { s with processes := Function.update s.processes n p }
  | .push n v => do
      let m ← (s.processes n).view v
      some { s with sent := s.sent ++ [serializeData m] }
  | .receive n k => do
      let checkpoint ← s.sent[k]?
      let p ← (s.processes n).receive checkpoint
      some { s with processes := Function.update s.processes n p }

/-- One process changes, to a numbered one. -/
theorem Inv.update {s : Masters ι} (hs : s.Inv) (n : ι) {p : MasterProcess} (hp : p.Numbered) :
    Inv { s with processes := Function.update s.processes n p } := by
  refine ⟨fun k => ?_, hs.sent⟩
  show (Function.update s.processes n p k).Numbered
  by_cases hk : k = n
  · rw [hk, Function.update_self]
    exact hp
  · rw [Function.update_of_ne hk]
    exact hs.processes k

/-- A step of the masters. -/
theorem Inv.step {s t : Masters ι} {l : MastersLabel ι} (hs : s.Inv) (h : s.step l = some t) :
    t.Inv := by
  cases l with
  | work n l =>
      obtain ⟨p, hp, h⟩ := Option.bind_eq_some_iff.mp h
      cases h
      exact hs.update n ((hs.processes n).step hp)
  | push n v =>
      obtain ⟨m, hview, h⟩ := Option.bind_eq_some_iff.mp h
      cases h
      refine ⟨hs.processes, fun checkpoint hmem => ?_⟩
      rcases List.mem_append.mp hmem with hold | hnew
      · exact hs.sent checkpoint hold
      · exact ⟨m, List.mem_singleton.mp hnew, (hs.processes n).view hview⟩
  | receive n k =>
      obtain ⟨checkpoint, hsent, h⟩ := Option.bind_eq_some_iff.mp h
      obtain ⟨p, hp, h⟩ := Option.bind_eq_some_iff.mp h
      cases h
      obtain ⟨sender, rfl, hids⟩ := hs.sent checkpoint (List.mem_of_getElem? hsent)
      exact hs.update n (.receive hids hp)

/-- In every run of the masters, at every process and whenever a thread looks, the id of a shard is
its position. So each id in the queue of a running `dispatchMapTasks` is in bounds and selects the
shard with that id. -/
theorem shard_ids_are_indices {ls : List (MastersLabel ι)} {s : Masters ι}
    (hrun : Machine.run step start ls = some s) (n : ι) :
    (∀ v m, (s.processes n).view v = some m → IdsAreIndices m.shards) ∧
    ∀ d, (s.processes n).dispatcher = some d → ∀ i ∈ d.jobQ, (0 ≤ i ∧ i < d.shards.length) ∧
      ∃ shard, vectorAt d.shards i = some shard ∧ shard.shardId = i := by
  have hinv : s.Inv := Machine.Reachable.invariant ⟨ls, hrun⟩ start_inv
    fun _ _ _ hm hstep => hm.step hstep
  exact ⟨fun v m hview => (hinv.processes n).view hview,
    fun d hd i hi => (hinv.processes n).queued hd hi⟩

/-- The first master shards seven bytes for three mappers, sends a checkpoint and dies. The second
one takes over, and its first call fails. -/
def takeOver : List (MastersLabel Bool) :=
  [.work false .elect, .work false (.work .boot),
    .work false (.work (.request [0] 3 1 ['c'])),
    .work false (.work (.shard 8 (some [.blob ['a'] 7]) true)), .push false .whole,
    .receive true 0, .work false .restart, .work true .elect, .work true (.work .boot),
    .work true (.work (.mapStep (.dispatch 0))), .work true (.work (.mapStep (.dispatch 0))),
    .work true (.work (.mapStep (.dispatch 0))), .work true (.work (.mapStep .allDispatched)),
    .work true (.work (.mapStep (.complete ⟨0, 0⟩ (.error 4)))),
    .work true (.work (.mapStep .received)), .work true (.work (.mapStep .handle))]

/-- After the take-over the failed call has put its id in the queue again, and this id is the index
of its shard. -/
theorem shard_ids_are_indices_take_over :
    ∃ s d, Machine.run step start takeOver = some s ∧
      (s.processes true).dispatcher = some d ∧ d.jobQ = [0] ∧ d.shards.length = 3 ∧
      ∃ shard, vectorAt d.shards 0 = some shard ∧ shard.shardId = 0 := by
  have hrun : Machine.run step start takeOver = some _ := rfl
  refine ⟨_, _, hrun, rfl, rfl, rfl, ?_⟩
  exact ((shard_ids_are_indices hrun true).2 _ rfl 0 (List.mem_singleton.mpr rfl)).2

end Masters

end MapReduce
