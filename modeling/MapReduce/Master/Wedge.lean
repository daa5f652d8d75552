import MapReduce.Master.Election

/-!
# A cluster without a leader

Can all masters wait for a leader that will never come? A master is wedged if it is the one to be
elected, `/leader` does not exist, nothing is on its way to it, and no step that writes nothing
leads it to `elect_leader` (`Cluster.Wedged`).

The retry of `wait_until_leader` can wedge it. It assigns the code of `checkExists` to a `bool`, so
a master that finds `/leader` missing believes it exists, and does not elect
(`retry_never_elects`). Read `never_wedged` for the runs in which this does no harm: the smallest
live master keeps its session until `/leader` exists, and does not miss the deletion of `/leader`
between the two calls of `checkExists` in `exists_watcher_fn`.
-/

namespace MapReduce

open Machine (Reachable)

/-- The smallest child of `/masters`. -/
def Zk.Smallest (zk : Zk) (n : Nat) : Prop := n ∈ zk.masters ∧ ∀ m ∈ zk.masters, n ≤ m

/-- A transaction that ends or begins the existence of `/leader` touches it. -/
theorem Zk.touches_of_changes {zk : Zk} {t : Txn}
    (h : (zk.apply t).leader.isSome ≠ zk.leader.isSome) : zk.touches t = true := by
  cases t with
  | register => exact absurd rfl h
  | expire n =>
      cases hleader : zk.leader with
      | none => simp [apply, hleader] at h
      | some node =>
          have howner : node.owner = n := by simpa [apply, hleader, Option.filter_some] using h
          simp [touches, hleader, howner]
  | createLeader n =>
      cases hleader : zk.leader with
      | none => simp [touches, hleader]
      | some node => simp [apply, hleader] at h
  | setLeader n => simp [apply] at h

/-- A transaction after which no master smaller than `n` is left is the loss of the smallest one. -/
theorem Zk.last_smaller {zk : Zk} {t : Txn} {n : Nat} (hsome : ∃ m < n, m ∈ zk.masters)
    (hgone : ¬∃ m < n, m ∈ (zk.apply t).masters) :
    ∃ j, t = .expire j ∧ j < n ∧ zk.Smallest j := by
  obtain ⟨m, hm, hmem⟩ := hsome
  cases t with
  | register => exact absurd ⟨m, hm, List.mem_append_left _ hmem⟩ hgone
  | createLeader j | setLeader j => exact absurd ⟨m, hm, hmem⟩ hgone
  | expire j =>
      have honly : ∀ i < n, i ∈ zk.masters → i = j := by
        intro i hi hmem
        by_contra hne
        exact hgone ⟨i, hi, List.mem_filter.mpr ⟨hmem, by simpa using hne⟩⟩
      obtain rfl := honly m hm hmem
      refine ⟨m, rfl, hm, hmem, fun i hi => ?_⟩
      by_contra hlt
      have heq := honly i (by omega) hi
      omega

namespace Candidate

/-- The master is in a loop of `wait_until_leader`: the `tryAgain` retry or the wait of one
second. -/
def InLoop (p : Candidate) : Prop :=
  p.pc = .tryAgain ∨ p.pc = .reading ∨ p.pc = .retrying ∨ p.pc = .waiting

/-- The master has called `elect_leader`. -/
def Electing (p : Candidate) : Prop := ∃ again, p.pc = .listing again

end Candidate

namespace Cluster

/-- The live master with the smallest child waits in vain: `/leader` does not exist, no
notification is pending, `watchTriggered` is false, and whatever steps are taken that leave
`/leader` and the membership as they are, it does not call `elect_leader`. -/
def Wedged (s : Cluster) (n : Nat) : Prop :=
  s.zk.leader = none ∧ s.zk.Smallest n ∧ (s.proc n).InLoop ∧
  (s.proc n).pending = false ∧ (s.proc n).watchTriggered = false ∧
  ∀ (ls : List (Nat × CandidateLabel)) (t : Cluster),
    Machine.run Cluster.step s (ls.map fun l => .candidate l.1 l.2) = some t →
      ¬(t.proc n).Electing

end Cluster

/-! ## Ways to an election -/

namespace Candidate

variable {log : List Txn} {n : Nat} {p : Candidate}

/-- The session can see as much of the history as it likes. If it watches `/leader`, it is notified
or `/leader` does not disappear meanwhile. -/
theorem catch_up {k : Nat} (hle : p.seen ≤ k) (hk : k ≤ log.length) :
    ∃ q, Reachable (step log n) p q ∧ q.seen = k ∧ q.pc = p.pc ∧
      (p.watch = true ∨ p.pending = true → q.pending = true ∨
        q.watch = true ∧
          ((Zk.view log p.seen).leader.isSome = true → (Zk.view log k).leader.isSome = true)) := by
  induction hle with
  | refl => exact ⟨p, .refl p, rfl, rfl, fun h => h.symm.imp_right fun hwatch => ⟨hwatch, id⟩⟩
  | @step k hle ih =>
      obtain ⟨q, hreach, hseen, hpc, hfired⟩ := ih (Nat.le_of_succ_le hk)
      obtain ⟨t, ht⟩ : ∃ t, log[k]? = some t := ⟨_, List.getElem?_eq_getElem hk⟩
      have hstep : q.step log n .advance = some (q.pass (Zk.view log k) t) := by
        simp [step, view, hseen, ht]
      refine ⟨_, hreach.trans (.head hstep (.refl _)), by simp [pass, hseen], hpc, fun hw => ?_⟩
      rw [Zk.view_succ ht]
      rcases hfired hw with hpending | ⟨hwatch, hkept⟩
      · exact Or.inl (by simp [pass, hpending])
      · by_cases htouch : (Zk.view log k).touches t = true
        · exact Or.inl (by simp [pass, hwatch, htouch])
        · refine Or.inr ⟨by simp [pass, hwatch, htouch], fun hsome => ?_⟩
          have hsame := not_imp_comm.mp Zk.touches_of_changes htouch
          rw [hsame]
          exact hkept hsome

/-- A master in the wait loop is notified of the end of `/leader`, and elects. -/
theorem waiting_elects (hpc : p.pc = .waiting)
    (hwatched : p.watch = true ∨ p.pending = true ∨ p.checked = true) {k : Nat}
    (hle : p.seen ≤ k) (hk : k ≤ log.length) (hahead : (Zk.view log k).leader.isSome = true)
    (habsent : (Zk.replay log).leader = none) :
    ∃ q, Reachable (step log n) p q ∧ q.Electing := by
  obtain ⟨p₁, h₁, hpc₁, hseen₁, hw₁⟩ : ∃ p₁, Reachable (step log n) p p₁ ∧ p₁.pc = .waiting ∧
      p₁.seen = p.seen ∧ (p₁.watch = true ∨ p₁.pending = true) := by
    rcases hwatched with hwatch | hpending | hchecked
    · exact ⟨p, .refl p, hpc, rfl, Or.inl hwatch⟩
    · exact ⟨p, .refl p, hpc, rfl, Or.inr hpending⟩
    · have hstep : p.step log n .rewatch = some { p with checked := false, watch := true } := by
        simp [step, hchecked]
      exact ⟨_, .head hstep (.refl _), hpc, rfl, Or.inl rfl⟩
  obtain ⟨p₂, h₂, hseen₂, hpc₂, hw₂⟩ := catch_up (n := n) (hseen₁ ▸ hle) hk
  have hw₂' : p₂.watch = true ∨ p₂.pending = true := (hw₂ hw₁).symm.imp_left And.left
  obtain ⟨p₃, h₃, hseen₃, hpc₃, hw₃⟩ := catch_up (n := n) (hseen₂ ▸ hk) (Nat.le_refl _)
  -- between the view `k` and the last one `/leader` disappears
  have hpending : p₃.pending = true := by
    refine (hw₃ hw₂').resolve_right fun hkept => ?_
    have hstays := hkept.2 (hseen₂ ▸ hahead)
    rw [Zk.view_length, habsent] at hstays
    cases hstays
  have hnotify : p₃.step log n .notify =
      some { p₃ with pending := false, checked := true, watchTriggered := true } := by
    simp [step, hpending, view, hseen₃, Zk.view_length, habsent]
  have hwake : Candidate.step log n
      { p₃ with pending := false, checked := true, watchTriggered := true } .wake =
        some { p₃ with
          pc := .listing true
          pending := false
          checked := true
          watchTriggered := false } := by
    simp [step, hpc₃, hpc₂, hpc₁]
  exact ⟨_, h₁.trans (h₂.trans (h₃.trans (.head hnotify (.head hwake (.refl _))))), true, rfl⟩

/-- A master that believes there is no leader elects. -/
theorem try_again_elects (hpc : p.pc = .tryAgain) (hexist : p.existLeader = false) :
    ∃ q, Reachable (step log n) p q ∧ q.Electing := by
  have hstep : p.step log n .tryAgain =
      some { p with pc := .listing false, watchTriggered := false } := by
    simp [step, hpc, hexist]
  exact ⟨_, .head hstep (.refl _), false, rfl⟩

/-- A master in the retry that comes to see `/leader` elects. -/
theorem retrying_elects (hpc : p.pc = .retrying) {k : Nat} (hle : p.seen ≤ k)
    (hk : k ≤ log.length) (hahead : (Zk.view log k).leader.isSome = true) :
    ∃ q, Reachable (step log n) p q ∧ q.Electing := by
  obtain ⟨q, hreach, hseen, hpc', -⟩ := catch_up (n := n) hle hk
  have hretry : q.step log n .retry = some { q with pc := .tryAgain, existLeader := false } := by
    simp only [step, hpc', hpc, if_true, view, hseen]
    rw [Option.isNone_eq_false_iff.mpr hahead]
  obtain ⟨r, helect, helecting⟩ : ∃ r, Reachable (step log n)
      { q with pc := .tryAgain, existLeader := false } r ∧ r.Electing := try_again_elects rfl rfl
  exact ⟨r, hreach.trans (.head hretry helect), helecting⟩

/-- If `/leader` exists in the view of a master or in one to come, and no longer does, a master in a
loop can come to call `elect_leader`. -/
theorem loop_elects (hloop : p.InLoop)
    (hwatched : p.watch = true ∨ p.pending = true ∨ p.checked = true) {k : Nat}
    (hle : p.seen ≤ k) (hk : k ≤ log.length) (hahead : (Zk.view log k).leader.isSome = true)
    (habsent : (Zk.replay log).leader = none) :
    ∃ q, Reachable (step log n) p q ∧ q.Electing := by
  have hreading : ∀ p : Candidate, p.pc = .reading →
      (p.watch = true ∨ p.pending = true ∨ p.checked = true) → p.seen ≤ k →
      ∃ q, Reachable (step log n) p q ∧ q.Electing := by
    intro p hpc hwatched hle
    by_cases hdata : ((p.view log).leader.bind LeaderNode.data).isSome = true
    · have hstep : p.step log n .getData = some { p with pc := .waiting } := by
        simp only [step, hpc, if_true, hdata]
      obtain ⟨q, hreach, helecting⟩ :=
        waiting_elects (n := n) (p := { p with pc := .waiting }) rfl hwatched hle hk hahead habsent
      exact ⟨q, .head hstep hreach, helecting⟩
    · have hstep : p.step log n .getData = some { p with pc := .retrying } := by
        simp only [step, hpc, if_true, hdata]
        rfl
      obtain ⟨q, hreach, helecting⟩ :=
        retrying_elects (n := n) (p := { p with pc := .retrying }) rfl hle hk hahead
      exact ⟨q, .head hstep hreach, helecting⟩
  rcases hloop with hpc | hpc | hpc | hpc
  · cases hexist : p.existLeader with
    | false => exact try_again_elects hpc hexist
    | true =>
        have hstep : p.step log n .tryAgain = some { p with pc := .reading } := by
          simp [step, hpc, hexist]
        obtain ⟨q, hreach, helecting⟩ := hreading { p with pc := .reading } rfl hwatched hle
        exact ⟨q, .head hstep hreach, helecting⟩
  · exact hreading p hpc hwatched hle
  · exact retrying_elects hpc hle hk hahead
  · exact waiting_elects hpc hwatched hle hk hahead habsent

end Candidate

/-- A live master can take its steps while the rest of the cluster stands still. -/
theorem Cluster.run_candidate {s : Cluster} {n : Nat} (hlive : s.Live n)
    (ls : List CandidateLabel) {q : Candidate}
    (hrun : Machine.run (Candidate.step s.log n) (s.proc n) ls = some q) :
    Machine.run Cluster.step s (ls.map fun l => .candidate n l) =
      some { s with proc := Function.update s.proc n q } := by
  induction ls generalizing s with
  | nil =>
      cases hrun
      simp [Machine.run]
  | cons l ls ih =>
      obtain ⟨p, hstep, hrest⟩ := Option.bind_eq_some_iff.mp hrun
      have hcluster : s.step (.candidate n l) =
          some { s with proc := Function.update s.proc n p } := by
        simp [Cluster.step, hlive, hstep]
      have hnext := ih (s := { s with proc := Function.update s.proc n p }) hlive
        (by simpa using hrest)
      simp only [List.map_cons, Machine.run, hcluster, Option.bind_some, hnext,
        Function.update_idem]

/-! ## When nothing goes wrong -/

namespace Cluster

/-- The smallest live master does not lose its session before `/leader` exists while others are
live, and it does not see `/leader` deleted while `exists_watcher_fn` is between its two calls and
has not set `watchTriggered`. -/
def Guarded (s : Cluster) : ClusterLabel → Prop
  | .lose n => s.zk.Smallest n → (∃ m, m ≠ n ∧ s.Live m) → s.zk.leader ≠ none
  | .candidate n .advance =>
      s.zk.Smallest n → (s.proc n).checked = true → (s.proc n).watchTriggered = false →
        ∀ t, s.log[(s.proc n).seen]? = some t → ((s.proc n).view s.log).leader ≠ none →
          (((s.proc n).view s.log).apply t).leader ≠ none
  | _ => True

end Cluster

/-- Whenever the smallest master lost its session while others were live, `/leader` existed. -/
def LossesCovered (log : List Txn) : Prop :=
  ∀ k n, log[k]? = some (.expire n) → (Zk.view log k).Smallest n →
    (∃ m, m ≠ n ∧ m ∈ (Zk.view log k).masters) → (Zk.view log k).leader ≠ none

/-- A transaction keeps the losses covered if it is a covered loss or none. -/
theorem LossesCovered.append {log : List Txn} (h : LossesCovered log) {t : Txn}
    (ht : ∀ n, t = .expire n → (Zk.replay log).Smallest n →
      (∃ m, m ≠ n ∧ m ∈ (Zk.replay log).masters) → (Zk.replay log).leader ≠ none) :
    LossesCovered (log ++ [t]) := by
  intro k n hk hsmallest hother
  rcases Nat.lt_trichotomy k log.length with hlt | rfl | hgt
  · rw [Zk.view_append hlt.le] at hsmallest hother ⊢
    rw [List.getElem?_append_left hlt] at hk
    exact h k n hk hsmallest hother
  · rw [Zk.view_append (Nat.le_refl _), Zk.view_length] at hsmallest hother ⊢
    exact ht n (by simpa using hk) hsmallest hother
  · rw [List.getElem?_eq_none_iff.mpr (by simp; omega)] at hk
    cases hk

/-- Why a master went into a loop, and what it has missed since. At the view `base` it saw `/leader`
or a smaller master. If it has not been told of a deletion, it sees `/leader` now, or has not seen
it since `base`. -/
structure Deferring (log : List Txn) (n : Nat) (p : Candidate) (base : Nat) : Prop where
  base_le : base ≤ p.seen
  own : n < (Zk.view log base).next
  why : (Zk.view log base).leader ≠ none ∨ ∃ m < n, m ∈ (Zk.view log base).masters
  untold : p.pending = false → p.watchTriggered = false →
    (Zk.view log p.seen).leader ≠ none ∨
      ∀ k, base ≤ k → k ≤ p.seen → (Zk.view log k).leader = none

/-- What holds of a registered master `n` that follows: its watch is set, fired or about to be set
again, and it is in a loop for a reason. -/
structure FollowerInv (log : List Txn) (n : Nat) (p : Candidate) : Prop where
  watched : p.pc ≠ .starting → p.watch = true ∨ p.pending = true ∨ p.checked = true
  defers : p.InLoop → (p.pc = .tryAgain → p.existLeader = true) →
    ∃ base, Deferring log n p base

section Follower

variable {log : List Txn} {n base : Nat} {p q : Candidate} {t : Txn}

/-- The watch of a session that sees one more transaction. -/
theorem Candidate.watched_pass (zk : Zk) (t : Txn)
    (h : p.watch = true ∨ p.pending = true ∨ p.checked = true) :
    (p.pass zk t).watch = true ∨ (p.pass zk t).pending = true ∨ (p.pass zk t).checked = true := by
  rcases h with hwatch | hpending | hchecked
  · by_cases htouch : zk.touches t = true
    · exact Or.inr (Or.inl (by simp [pass, hwatch, htouch]))
    · exact Or.inl (by simp [pass, hwatch, htouch])
  · exact Or.inr (Or.inl (by simp [pass, hpending]))
  · exact Or.inr (Or.inr hchecked)

namespace Deferring

/-- The reason is there in the present view. -/
theorem here (hown : n < (Zk.view log p.seen).next)
    (hwhy : (Zk.view log p.seen).leader ≠ none ∨ ∃ m < n, m ∈ (Zk.view log p.seen).masters) :
    Deferring log n p p.seen := by
  refine ⟨Nat.le_refl _, hown, hwhy, fun _ _ => ?_⟩
  by_cases habsent : (Zk.view log p.seen).leader = none
  · refine Or.inr fun k hle hge => ?_
    rw [Nat.le_antisymm hge hle]
    exact habsent
  · exact Or.inl habsent

/-- A step that changes neither the view nor the flags. -/
theorem keep (h : Deferring log n p base) (hseen : q.seen = p.seen)
    (hpending : q.pending = p.pending) (htriggered : q.watchTriggered = p.watchTriggered) :
    Deferring log n q base := by
  refine ⟨hseen ▸ h.base_le, h.own, h.why, ?_⟩
  rw [hseen, hpending, htriggered]
  exact h.untold

/-- A transaction does not concern what was seen before it. -/
theorem append (h : Deferring log n p base) (hseen : p.seen ≤ log.length) (t : Txn) :
    Deferring (log ++ [t]) n p base := by
  have hbase := Zk.view_append (t := t) (h.base_le.trans hseen)
  refine ⟨h.base_le, hbase ▸ h.own, hbase ▸ h.why, fun hpending htriggered => ?_⟩
  rw [Zk.view_append hseen]
  refine (h.untold hpending htriggered).imp_right fun hnone k hle hge => ?_
  rw [Zk.view_append (hge.trans hseen)]
  exact hnone k hle hge

/-- The session sees one more transaction. It is told of a deletion of `/leader`, or it misses it
and has a smaller master to wait for. -/
theorem advance (h : Deferring log n p base) (hinv : CandidateInv log n p)
    (hlive : n ∈ (Zk.replay log).masters)
    (hwatched : p.watch = true ∨ p.pending = true ∨ p.checked = true)
    (ht : log[p.seen]? = some t)
    (hguard : (Zk.replay log).Smallest n → p.checked = true → p.watchTriggered = false →
      (p.view log).leader ≠ none → ((p.view log).apply t).leader ≠ none) :
    ∃ base, Deferring log n (p.pass (p.view log) t) base := by
  have hsucc : Zk.view log (p.seen + 1) = (p.view log).apply t := Zk.view_succ ht
  have hseen : p.seen + 1 ≤ log.length := (List.getElem?_eq_some_iff.mp ht).1
  by_cases hafter : (Zk.view log (p.seen + 1)).leader = none
  · by_cases hbefore : (p.view log).leader = none
    · refine ⟨base, Nat.le_succ_of_le h.base_le, h.own, h.why, fun hpending htriggered => ?_⟩
      have huntold := h.untold (Bool.or_eq_false_iff.mp hpending).1 htriggered
      refine Or.inr fun k hle hge => ?_
      rcases Nat.lt_or_eq_of_le hge with hlt | rfl
      · exact huntold.resolve_left (not_not.mpr hbefore) k hle (Nat.le_of_lt_succ hlt)
      · exact hafter
    -- the transaction deletes `/leader`
    · have htouch : (p.view log).touches t = true := by
        refine Zk.touches_of_changes ?_
        rw [← hsucc, hafter, Option.ne_none_iff_isSome.mp hbefore]
        simp
      by_cases htold : (p.pass (p.view log) t).pending = true ∨ p.watchTriggered = true
      · refine ⟨base, Nat.le_succ_of_le h.base_le, h.own, h.why, fun hpending htriggered => ?_⟩
        rcases htold with hp | hw
        · rw [hp] at hpending
          cases hpending
        · have hfalse : p.watchTriggered = false := htriggered
          rw [hw] at hfalse
          cases hfalse
      · rw [not_or, Bool.not_eq_true, Bool.not_eq_true] at htold
        obtain ⟨hpending, hwatch⟩ := Bool.or_eq_false_iff.mp htold.1
        have hchecked : p.checked = true := by
          rcases hwatched with hw | hp | hchecked
          · simp [hw, htouch] at hwatch
          · simp [hp] at hpending
          · exact hchecked
        -- a missed deletion is guarded against only for the smallest master
        have hsmaller : ∃ m ∈ (Zk.replay log).masters, m < n := by
          by_contra hnone
          have hsmallest : (Zk.replay log).Smallest n :=
            ⟨hlive, fun m hm => Nat.not_lt.mp fun hlt => hnone ⟨m, hm, hlt⟩⟩
          exact hguard hsmallest hchecked htold.2 hbefore (hsucc ▸ hafter)
        obtain ⟨m, hm, hlt⟩ := hsmaller
        have hown : n < (Zk.view log (p.seen + 1)).next :=
          Nat.lt_of_lt_of_le hinv.own (Zk.view_grows (Nat.le_succ p.seen)).next
        refine ⟨_, here hown (Or.inr ⟨m, hlt, ?_⟩)⟩
        rw [← Zk.view_length] at hm
        exact Zk.live_in_view hseen (hlt.trans hown) hm
  · exact ⟨base, Nat.le_succ_of_le h.base_le, h.own, h.why, fun _ _ => Or.inl hafter⟩

/-- If a master waits, was told nothing, and all smaller ones are gone, `/leader` exists in its view
or in one to come: the last of the smaller ones did not leave before it existed. -/
theorem leader_ahead (h : Deferring log n p base) (hseen : p.seen ≤ log.length)
    (hlosses : LossesCovered log) (hsmallest : (Zk.replay log).Smallest n)
    (hpending : p.pending = false) (htriggered : p.watchTriggered = false) :
    ∃ k, p.seen ≤ k ∧ k ≤ log.length ∧ (Zk.view log k).leader ≠ none := by
  rcases h.untold hpending htriggered with hnow | hnone
  · exact ⟨p.seen, Nat.le_refl _, hseen, hnow⟩
  · have hbase : base ≤ log.length := h.base_le.trans hseen
    have hbefore : ∃ m < n, m ∈ (Zk.view log base).masters :=
      h.why.resolve_left (not_not.mpr (hnone base (Nat.le_refl _) h.base_le))
    have hafter : ¬∃ m < n, m ∈ (Zk.view log log.length).masters := by
      rw [Zk.view_length]
      intro hsmaller
      obtain ⟨m, hlt, hm⟩ := hsmaller
      exact Nat.not_le.mpr hlt (hsmallest.2 m hm)
    -- the transaction that left no smaller master: its loss was covered by a leader
    obtain ⟨k, t, hle, hlt, ht, hsome, hgone⟩ :=
      History.exists_crossing (P := fun zk : Zk => ∃ m < n, m ∈ zk.masters) hbase hbefore hafter
    obtain ⟨j, rfl, hj, hlast⟩ := Zk.last_smaller hsome hgone
    have hn : n ∈ (Zk.view log k).masters := by
      have hlive := hsmallest.1
      rw [← Zk.view_length] at hlive
      exact Zk.live_in_view hlt.le (Nat.lt_of_lt_of_le h.own (Zk.view_grows hle).next) hlive
    have hleader : (Zk.view log k).leader ≠ none := hlosses k j ht hlast ⟨n, Nat.ne_of_gt hj, hn⟩
    refine ⟨k, ?_, hlt.le, hleader⟩
    by_contra hearlier
    exact hleader (hnone k hle (by omega))

end Deferring

namespace FollowerInv

/-- A transaction does not concern what was seen before it. -/
theorem append (h : FollowerInv log n p) (hseen : p.seen ≤ log.length) (t : Txn) :
    FollowerInv (log ++ [t]) n p := by
  refine ⟨h.watched, fun hloop hexist => ?_⟩
  obtain ⟨base, hdefers⟩ := h.defers hloop hexist
  exact ⟨base, hdefers.append hseen t⟩

/-- A step that writes nothing. -/
theorem step (h : FollowerInv log n p) (hinv : CandidateInv log n p)
    (hlive : n ∈ (Zk.replay log).masters) {l : CandidateLabel} (hstep : p.step log n l = some q)
    (hguard : l = .advance → (Zk.replay log).Smallest n → p.checked = true →
      p.watchTriggered = false → ∀ t, log[p.seen]? = some t → (p.view log).leader ≠ none →
        ((p.view log).apply t).leader ≠ none) : FollowerInv log n q := by
  cases Candidate.step_effect hstep with
  | advance t ht =>
      refine ⟨fun hpc => Candidate.watched_pass _ t (h.watched hpc), fun hloop hexist => ?_⟩
      obtain ⟨base, hdefers⟩ := h.defers hloop hexist
      have hpc : p.pc ≠ .starting := by
        intro hpc
        simp [Candidate.InLoop, Candidate.pass, hpc] at hloop
      exact hdefers.advance hinv hlive (h.watched hpc) ht fun hsmallest hchecked htriggered =>
        hguard rfl hsmallest hchecked htriggered t ht
  | checkExists hpc =>
      refine ⟨fun _ => Or.inl rfl, fun _ hexist => ⟨_, .here hinv.own (Or.inl ?_)⟩⟩
      exact Option.ne_none_iff_isSome.mpr (hexist rfl)
  | skip hpc hexist =>
      refine ⟨fun _ => h.watched (by simp [hpc]), fun _ _ => ?_⟩
      obtain ⟨base, hdefers⟩ := h.defers (by simp [Candidate.InLoop, hpc]) fun _ => hexist
      exact ⟨base, hdefers.keep rfl rfl rfl⟩
  | elect hpc | win _ _ hpc | wake hpc =>
      exact ⟨fun _ => h.watched (by simp [hpc]), fun hloop => by simp [Candidate.InLoop] at hloop⟩
  | defer children child again hpc hperm hchild hother =>
      refine ⟨fun _ => h.watched (by simp [hpc]), fun _ _ => ⟨_, .here hinv.own (Or.inr ?_)⟩⟩
      obtain ⟨hmem, hleast⟩ := elected_child_iff.mp hchild
      have hself := hleast n (hperm.mem_iff.mpr (hinv.live_in_own_view hlive))
      exact ⟨child, Nat.lt_of_le_of_ne hself hother, hperm.mem_iff.mp hmem⟩
  | follow hpc | sleep hpc | retry hpc =>
      refine ⟨fun _ => h.watched (by simp [hpc]), fun _ _ => ?_⟩
      obtain ⟨base, hdefers⟩ := h.defers (by simp [Candidate.InLoop, hpc]) (by simp [hpc])
      exact ⟨base, hdefers.keep rfl rfl rfl⟩
  | notify hpending =>
      refine ⟨fun _ => Or.inr (Or.inr rfl), fun hloop hexist => ?_⟩
      obtain ⟨base, hdefers⟩ := h.defers hloop hexist
      refine ⟨base, hdefers.base_le, hdefers.own, hdefers.why, fun _ htriggered => Or.inl ?_⟩
      have hpresent := (Bool.or_eq_false_iff.mp htriggered).2
      exact Option.ne_none_iff_isSome.mpr (Option.isNone_eq_false_iff.mp hpresent)
  | rewatch hchecked =>
      refine ⟨fun _ => Or.inl rfl, fun hloop hexist => ?_⟩
      obtain ⟨base, hdefers⟩ := h.defers hloop hexist
      exact ⟨base, hdefers.keep rfl rfl rfl⟩

end FollowerInv

end Follower

namespace Cluster

/-- What guarded runs keep. -/
structure GuardedInv (s : Cluster) : Prop where
  inv : s.Inv
  losses : LossesCovered s.log
  followers : ∀ n < s.zk.next, FollowerInv s.log n (s.proc n)

/-- A write of one master in `elect_leader` leaves the others as they are. -/
theorem GuardedInv.write {s : Cluster} (hs : s.GuardedInv) {n : Nat} {t : Txn} {pc : ElectPc}
    (hinv : Inv
      { log := s.log ++ [t]
        proc := Function.update s.proc n { (s.proc n).pass s.zk t with pc := pc } })
    (hpc : (s.proc n).pc ≠ .starting)
    (hpc' : pc = .setting ∨ pc = .elected) (ht : ∀ n, t ≠ .expire n)
    (hnext : (s.zk.apply t).next = s.zk.next) :
    GuardedInv
      { log := s.log ++ [t]
        proc := Function.update s.proc n { (s.proc n).pass s.zk t with pc := pc } } := by
  refine ⟨hinv, hs.losses.append fun n heq => absurd heq (ht n), ?_⟩
  refine (Function.forall_update_iff s.proc fun m p =>
    m < (Zk.replay (s.log ++ [t])).next → FollowerInv (s.log ++ [t]) m p).mpr ⟨?_, ?_⟩
  · intro hn
    have hwatched := (hs.followers n (lt_next_of_snoc hnext hn)).watched hpc
    refine ⟨fun _ => Candidate.watched_pass s.zk t hwatched, ?_⟩
    rcases hpc' with rfl | rfl <;> simp [Candidate.InLoop]
  · intro m _ hm
    have hold := lt_next_of_snoc hnext hm
    exact (hs.followers m hold).append (hs.inv m hold).seen_le t

/-- A guarded step keeps the invariant. -/
theorem GuardedInv.step {s t : Cluster} {l : ClusterLabel} (hs : s.GuardedInv)
    (hok : s.Guarded l) (h : s.step l = some t) : t.GuardedInv := by
  have hinv := hs.inv.step h
  cases step_effect h with
  | register =>
      refine ⟨hinv, hs.losses.append fun n heq => Txn.noConfusion heq, ?_⟩
      refine (Function.forall_update_iff s.proc fun m p =>
        m < (Zk.replay (s.log ++ [.register])).next →
          FollowerInv (s.log ++ [.register]) m p).mpr ⟨?_, ?_⟩
      · intro _
        exact ⟨by simp [Candidate.start], by simp [Candidate.InLoop, Candidate.start]⟩
      · intro m hne hm
        rw [Zk.replay_snoc] at hm
        have hold : m < s.zk.next := Nat.lt_of_le_of_ne (Nat.le_of_lt_succ hm) hne
        exact (hs.followers m hold).append (hs.inv m hold).seen_le _
  | lose n hlive =>
      refine ⟨hinv, hs.losses.append ?_, ?_⟩
      · intro m heq hsmallest hother
        cases heq
        exact hok hsmallest hother
      · intro m hm
        have hold : m < ((Zk.replay s.log).apply (.expire n)).next := Zk.replay_snoc ▸ hm
        exact (hs.followers m hold).append (hs.inv m hold).seen_le _
  | create n hlive hpc hseen =>
      exact hs.write hinv (by simp [hpc]) (Or.inl rfl) (fun _ heq => Txn.noConfusion heq) rfl
  | setData n hlive hpc hseen =>
      exact hs.write hinv (by simp [hpc]) (Or.inr rfl) (fun _ heq => Txn.noConfusion heq) rfl
  | candidate n l p hlive hp =>
      refine ⟨hinv, hs.losses, ?_⟩
      refine (Function.forall_update_iff s.proc fun m p =>
        m < s.zk.next → FollowerInv s.log m p).mpr ⟨?_, ?_⟩
      · intro hn
        refine (hs.followers n hn).step (hs.inv n hn) hlive hp fun hadvance => ?_
        subst hadvance
        exact hok
      · intro m _ hm
        exact hs.followers m hm

/-- The cluster is never wedged without a leader, in every run whose steps are guarded: whenever the
live master with the smallest child is in a loop of `wait_until_leader` with nothing pending, and
`/leader` does not exist, it can still come to call `elect_leader`. -/
theorem never_wedged (ls : List ClusterLabel) (s : Cluster)
    (hok : Machine.Along Cluster.step Guarded init ls)
    (hrun : Machine.run Cluster.step init ls = some s) (n : Nat) : ¬s.Wedged n := by
  intro hwedged
  obtain ⟨habsent, hsmallest, hloop, hpending, htriggered, hnever⟩ := hwedged
  have hstart : init.GuardedInv := ⟨nofun, nofun, nofun⟩
  have hs : s.GuardedInv :=
    hok.invariant hstart (fun _ _ _ hm hok hstep => hm.step hok hstep) hrun
  have hlive : s.Live n := hsmallest.1
  have hfollower := hs.followers n hlive.lt_next
  have hpc : (s.proc n).pc ≠ .starting := by
    intro hpc
    simp [Candidate.InLoop, hpc] at hloop
  have helects : ∃ q, Reachable (Candidate.step s.log n) (s.proc n) q ∧ q.Electing := by
    by_cases hexist : (s.proc n).pc = .tryAgain → (s.proc n).existLeader = true
    · obtain ⟨base, hdefers⟩ := hfollower.defers hloop hexist
      obtain ⟨k, hle, hk, hahead⟩ := hdefers.leader_ahead (hs.inv n hlive.lt_next).seen_le
        hs.losses hsmallest hpending htriggered
      exact Candidate.loop_elects hloop (hfollower.watched hpc) hle hk
        (Option.ne_none_iff_isSome.mp hahead) habsent
    · obtain ⟨hagain, hbelieved⟩ := Classical.not_imp.mp hexist
      exact Candidate.try_again_elects hagain (Bool.eq_false_iff.mpr hbelieved)
  obtain ⟨q, ⟨steps, hsteps⟩, helecting⟩ := helects
  refine hnever (steps.map fun l => (n, l)) { s with proc := Function.update s.proc n q } ?_ ?_
  · rw [List.map_map]
    exact run_candidate hlive steps hsteps
  · simpa using helecting

/-- The leader of a follower dies. The follower is the smallest live master, has not seen the
deletion of `/leader` yet, and is not wedged. -/
theorem never_wedged_leader_lost :
    ∃ s, Machine.run Cluster.step init (takeOver.take 14) = some s ∧
      s.zk.leader = none ∧ s.zk.masters = [1] ∧ (s.proc 1).pc = .waiting ∧
      (s.proc 1).pending = false ∧ (s.proc 1).watchTriggered = false ∧ ¬s.Wedged 1 := by
  have hrun : Machine.run Cluster.step init (takeOver.take 14) = some _ := rfl
  refine ⟨_, hrun, rfl, rfl, rfl, rfl, rfl, never_wedged _ _ ?_ hrun 1⟩
  refine .cons trivial rfl (.cons trivial rfl (.cons ?_ rfl (.cons trivial rfl (.cons trivial rfl
    (.cons trivial rfl (.cons trivial rfl (.cons trivial rfl (.cons ?_ rfl (.cons ?_ rfl
      (.cons trivial rfl (.cons trivial rfl (.cons trivial rfl (.cons ?_ rfl trivial)))))))))))))
  · intro _ hchecked
    cases hchecked
  · intro _ hchecked
    cases hchecked
  · intro _ hchecked
    cases hchecked
  · exact fun _ _ => by decide

/-! ## The retry -/

/-- The master is in the retry and believes that `/leader` exists. -/
def Retrying (s : Cluster) (n : Nat) : Prop :=
  (s.proc n).seen = s.log.length ∧
    ((s.proc n).pc = .reading ∨ (s.proc n).pc = .retrying ∨
      (s.proc n).pc = .tryAgain ∧ (s.proc n).existLeader = true)

/-- A step that writes nothing does not lead out of the retry while `/leader` does not exist. -/
theorem Retrying.step {s t : Cluster} {n m : Nat} {l : CandidateLabel} (hs : s.Retrying n)
    (habsent : s.zk.leader = none) (h : s.step (.candidate m l) = some t) :
    t.Retrying n ∧ t.zk.leader = none := by
  obtain ⟨hseen, hretry⟩ := hs
  have hview : (s.proc n).view s.log = s.zk := by
    rw [Candidate.view, hseen, Zk.view_length]
    rfl
  cases step_effect h with
  | candidate m l p hlive hp =>
      refine ⟨?_, habsent⟩
      by_cases hnm : n = m
      · subst hnm
        simp only [Retrying, Function.update_self]
        cases Candidate.step_effect hp with
        | advance t ht => simp [hseen] at ht
        | skip => exact ⟨hseen, Or.inl rfl⟩
        | sleep => exact ⟨hseen, Or.inr (Or.inl rfl)⟩
        | retry hpc => exact ⟨hseen, Or.inr (Or.inr ⟨rfl, by simp [hview, habsent]⟩)⟩
        | notify | rewatch => exact ⟨hseen, hretry⟩
        | follow hpc hdata => simp [hview, habsent] at hdata
        | elect hpc hexist => simp [hpc, hexist] at hretry
        | checkExists hpc | win _ _ hpc | defer _ _ _ hpc | wake hpc => simp [hpc] at hretry
      · simpa only [Retrying, Function.update_of_ne hnm] using ⟨hseen, hretry⟩

/-- A master in the retry that sees that `/leader` does not exist never calls `elect_leader` while
this lasts and the membership does not change. -/
theorem retry_never_elects {s : Cluster} {n : Nat} (hs : s.Retrying n)
    (habsent : s.zk.leader = none) (ls : List (Nat × CandidateLabel)) (t : Cluster)
    (hrun : Machine.run Cluster.step s (ls.map fun l => .candidate l.1 l.2) = some t) :
    ¬(t.proc n).Electing := by
  induction ls generalizing s with
  | nil =>
      cases hrun
      intro helecting
      obtain ⟨again, hpc⟩ := helecting
      simp [Retrying, hpc] at hs
  | cons l ls ih =>
      obtain ⟨m, hstep, hrest⟩ := Option.bind_eq_some_iff.mp hrun
      obtain ⟨hm, hmabsent⟩ := hs.step habsent hstep
      exact ih hm hmabsent hrest

/-- The first of two masters dies before it creates `/leader`. The second one has found no leader,
has deferred to the first one, and has looked for a leader again. -/
def abandoned : List ClusterLabel :=
  [.register, .register, .candidate 1 .checkExists, .candidate 1 .tryAgain,
    .candidate 1 (.getChildren [0, 1]), .candidate 1 .getData, .candidate 1 .retry, .lose 0,
    .candidate 1 .advance]

/-- The second master is wedged. -/
theorem abandoned_wedged :
    ∃ s, Machine.run Cluster.step init abandoned = some s ∧ s.Wedged 1 := by
  refine ⟨_, rfl, rfl, ⟨by decide, by decide⟩, Or.inl rfl, rfl, rfl, ?_⟩
  exact retry_never_elects ⟨rfl, Or.inr (Or.inr ⟨rfl, rfl⟩)⟩ rfl

end Cluster

end MapReduce
