import MapReduce.Library.Machine
import MapReduce.Master.Checkpoint

/-!
# The replication client

`Master::start_repl_client` and the replication part of `AsyncCompleteMapRpc`
(`w7/src/master/masterimpl.cc`). The client pushes a checkpoint, clears `g_repl_data` and waits for
it to be set; a completed map result is appended to `g_repl_list` and sets the flag. Clearing and
waiting, and appending and setting, are each done under `g_repl_mtx_`; the push is not.

A result that completes after the checkpoint is serialized and before the flag is cleared is
forgotten (`completion_forgotten`). In all other runs the client never sleeps on an unreplicated
result (`sleeps_replicated`).
-/

namespace MapReduce

/-- The points of `start_repl_client`: the test of its loop, the call of `PushJobStatus`, the call
after its `serialize_data`, the wait, and the end. -/
inductive ReplPc where
  | testing
  | pushing
  | pushed
  | waiting
  | finished
  deriving DecidableEq, Repr

/-- A replication client, the members and globals it shares with the completion thread, and the last
checkpoint it serialized. -/
structure ReplClient where
  pc : ReplPc
  master : Master
  repldone : Bool
  sent : Option CheckPointData

/-- The steps of the client, of the completion thread, and of the thread that stops replication. -/
inductive ReplLabel where
  | test
  | serialize
  | clear
  | wake
  | complete (shardId : Int) (containername : Str) (blobs : List Str)
  | stop
  deriving DecidableEq, Repr

namespace ReplClient

/-- The client on entry to its loop. -/
def start (m : Master) (repldone : Bool) : ReplClient := ⟨.testing, m, repldone, none⟩

/-- One step. -/
def step (s : ReplClient) : ReplLabel → Option ReplClient
  | .test =>
      if s.pc = .testing then
        some { s with pc := if !s.repldone && s.master.replData then .pushing else .finished }
      else none
  | .serialize =>
      if s.pc = .pushing then some { s with pc := .pushed, sent := some (serializeData s.master) }
      else none
  | .clear =>
      if s.pc = .pushed then
        some { s with pc := .waiting, master := { s.master with replData := false } }
      else none
  | .wake =>
      if s.pc = .waiting ∧ s.master.replData = true then some { s with pc := .testing }
      else none
  | .complete shardId containername blobs =>
      some { s with master := { s.master with
        replData := true
        replList := s.master.replList ++ [⟨.success, shardId, containername, false, blobs⟩] } }
  | .stop => some { s with repldone := true }

/-- The last checkpoint holds every result of `g_repl_list`. -/
def Replicated (s : ReplClient) : Prop :=
  ∃ c, s.sent = some c ∧
    ∀ r ∈ s.master.replList, ⟨r.shardId, r.cname, r.blobList⟩ ∈ c.jobList

/-- No result completes after `serialize_data` and before the flag is cleared. -/
def NotInWindow (s : ReplClient) : ReplLabel → Prop
  | .complete .. => s.pc ≠ .pushed
  | _ => True

/-- What such runs keep. -/
structure Inv (s : ReplClient) : Prop where
  pushed : s.pc = .pushed → s.Replicated
  waiting : s.pc = .waiting → s.master.replData = false → s.Replicated

/-- A checkpoint holds the results it is made of. -/
theorem serialize_replicated (s : ReplClient) :
    Replicated { s with pc := .pushed, sent := some (serializeData s.master) } :=
  ⟨_, rfl, fun r hr => List.mem_map.mpr ⟨r, hr, rfl⟩⟩

/-- A step outside the window keeps the invariant. -/
theorem Inv.step {s t : ReplClient} {l : ReplLabel} (hs : s.Inv) (hok : s.NotInWindow l)
    (h : s.step l = some t) : t.Inv := by
  cases l with
  | test =>
      simp only [ReplClient.step, Option.ite_none_right_eq_some, Option.some.injEq] at h
      obtain ⟨hpc, rfl⟩ := h
      constructor
      · intro hpushed
        simp only at hpushed
        split at hpushed <;> cases hpushed
      · intro hwaiting
        simp only at hwaiting
        split at hwaiting <;> cases hwaiting
  | serialize =>
      simp only [ReplClient.step, Option.ite_none_right_eq_some, Option.some.injEq] at h
      obtain ⟨hpc, rfl⟩ := h
      exact ⟨fun _ => serialize_replicated s, nofun⟩
  | clear =>
      simp only [ReplClient.step, Option.ite_none_right_eq_some, Option.some.injEq] at h
      obtain ⟨hpc, rfl⟩ := h
      exact ⟨nofun, fun _ _ => hs.pushed hpc⟩
  | wake =>
      simp only [ReplClient.step, Option.ite_none_right_eq_some, Option.some.injEq] at h
      obtain ⟨hpc, rfl⟩ := h
      exact ⟨nofun, nofun⟩
  | complete shardId containername blobs =>
      cases h
      exact ⟨fun hpushed => absurd hpushed hok, nofun⟩
  | stop =>
      cases h
      exact ⟨hs.pushed, hs.waiting⟩

/-- No map result is left unreplicated while the replication thread sleeps, in every run in which no
result completes between `serialize_data` and the clearing of the flag: whenever the client waits
with `g_repl_data` false, its last checkpoint holds all of `g_repl_list`. -/
theorem sleeps_replicated (m : Master) (repldone : Bool) (ls : List ReplLabel) (s : ReplClient)
    (hwindow : Machine.Along ReplClient.step NotInWindow (start m repldone) ls)
    (hrun : Machine.run ReplClient.step (start m repldone) ls = some s)
    (hwaiting : s.pc = .waiting) (hflag : s.master.replData = false) :
    ∃ c, s.sent = some c ∧
      ∀ r ∈ s.master.replList, ⟨r.shardId, r.cname, r.blobList⟩ ∈ c.jobList := by
  have hinv : s.Inv := hwindow.invariant
    ⟨nofun, nofun⟩
    (fun _ _ _ hm hok hstep => hm.step hok hstep) hrun
  exact hinv.waiting hwaiting hflag

/-- A result completes while the client waits, and is replicated before it waits again. -/
theorem sleeps_replicated_one_result :
    ∃ s, Machine.run ReplClient.step (start Master.init false)
        [.test, .serialize, .clear, .complete 0 ['c'] [['b']], .wake, .test, .serialize, .clear] =
          some s ∧
      s.master.replList.length = 1 ∧ ∃ c, s.sent = some c ∧
        ∀ r ∈ s.master.replList, ⟨r.shardId, r.cname, r.blobList⟩ ∈ c.jobList := by
  have hrun : Machine.run ReplClient.step (start Master.init false)
      [.test, .serialize, .clear, .complete 0 ['c'] [['b']], .wake, .test, .serialize, .clear] =
        some _ := rfl
  refine ⟨_, hrun, rfl, sleeps_replicated _ _ _ _ ?_ hrun rfl rfl⟩
  refine .cons trivial rfl (.cons trivial rfl (.cons trivial rfl (.cons ?_ rfl (.cons trivial rfl
    (.cons trivial rfl (.cons trivial rfl (.cons trivial rfl trivial)))))))
  exact nofun

/-- The window: a result that completes between `serialize_data` and the clearing of the flag is
not in the checkpoint, and the client waits with the flag cleared. -/
theorem completion_in_window {s : ReplClient} (hpc : s.pc = .pushed) {c : CheckPointData}
    (hsent : s.sent = some c) {shardId : Int} {containername : Str} {blobs : List Str}
    (hnew : ⟨shardId, containername, blobs⟩ ∉ c.jobList) :
    ∃ t, Machine.run ReplClient.step s [.complete shardId containername blobs, .clear] = some t ∧
      t.pc = .waiting ∧ t.master.replData = false ∧ ¬t.Replicated := by
  refine ⟨{ s with
    pc := .waiting
    master := { s.master with
      replData := false
      replList := s.master.replList ++ [⟨.success, shardId, containername, false, blobs⟩] } },
    by simp [Machine.run, step, hpc], rfl, rfl, ?_⟩
  intro hsent
  obtain ⟨c', hc', hall⟩ := hsent
  rw [hsent, Option.some.injEq] at hc'
  refine hnew (hc' ▸ hall ⟨.success, shardId, containername, false, blobs⟩ ?_)
  exact List.mem_append_right _ (List.mem_singleton.mpr rfl)

/-- The first result completes right after the first checkpoint is serialized. The client then waits
with an empty checkpoint sent. -/
theorem completion_forgotten :
    ∃ s, Machine.run ReplClient.step (start Master.init false)
        [.test, .serialize, .complete 0 ['c'] [['b']], .clear] = some s ∧
      s.pc = .waiting ∧ s.master.replData = false ∧
      ¬∃ c, s.sent = some c ∧
        ∀ r ∈ s.master.replList, ⟨r.shardId, r.cname, r.blobList⟩ ∈ c.jobList := by
  refine ⟨_, rfl, rfl, rfl, ?_⟩
  intro hsent
  obtain ⟨c, hc, hall⟩ := hsent
  cases hc
  exact absurd (hall _ (List.mem_singleton.mpr rfl)) (by decide)

end ReplClient

end MapReduce
