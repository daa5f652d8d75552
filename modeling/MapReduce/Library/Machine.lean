import Mathlib.Data.List.Induction

/-!
# Runs of a labelled machine

A machine is a partial step function `step : σ → ℓ → Option σ`. The label carries every
choice the environment makes, so a list of labels fixes a run and `run` computes it. Read
`run_induction` first: it is the rule every invariant of a run is proved by, and its
predicate may speak of the labels seen so far. `Reachable.simulation` carries the runs of one
machine to runs of another.
-/

namespace Machine

variable {σ τ ℓ κ : Type*}

/-- `run step s ls` takes the steps labelled `ls` in order from `s`, or fails with the first step
that is not enabled. -/
def run (step : σ → ℓ → Option σ) : σ → List ℓ → Option σ
  | s, [] => some s
  | s, l :: ls => (step s l).bind fun t => run step t ls

/-- `Reachable step s t` says some run leads from `s` to `t`. -/
def Reachable (step : σ → ℓ → Option σ) (s t : σ) : Prop :=
  ∃ ls, run step s ls = some t

variable {step : σ → ℓ → Option σ}

/-- A run over a concatenation is a run followed by a run. -/
theorem run_append (s : σ) (first rest : List ℓ) :
    run step s (first ++ rest) = (run step s first).bind fun t => run step t rest := by
  induction first generalizing s with
  | nil => rfl
  | cons l ls ih =>
      simp only [List.cons_append, run]
      cases step s l with
      | none => rfl
      | some t => exact ih t

/-- A run whose last label is `l` is a run followed by the step `l`. -/
theorem run_snoc {s t : σ} {ls : List ℓ} {l : ℓ} :
    run step s (ls ++ [l]) = some t ↔ ∃ m, run step s ls = some m ∧ step m l = some t := by
  simp [run_append, run, Option.bind_eq_some_iff]

/-- The invariant rule: a predicate of the labels seen and the state reached that holds at the
start and survives every step holds after every run. -/
theorem run_induction {motive : List ℓ → σ → Prop} {s : σ} (start : motive [] s)
    (next : ∀ ls m l t, run step s ls = some m → motive ls m → step m l = some t →
      motive (ls ++ [l]) t)
    {ls : List ℓ} {t : σ} (hrun : run step s ls = some t) : motive ls t := by
  induction ls using List.reverseRecOn generalizing t with
  | nil =>
      cases hrun
      exact start
  | append_singleton ls l ih =>
      obtain ⟨m, hprefix, hstep⟩ := run_snoc.mp hrun
      exact next ls m l t hprefix (ih hprefix) hstep

/-- The invariant rule for a predicate of the state alone. -/
theorem Reachable.invariant {motive : σ → Prop} {s t : σ} (h : Reachable step s t)
    (start : motive s) (next : ∀ m l t, motive m → step m l = some t → motive t) : motive t := by
  obtain ⟨ls, hrun⟩ := h
  exact run_induction (motive := fun _ s => motive s) start
    (fun _ m l t _ hm hstep => next m l t hm hstep) hrun

/-- `Along step ok s ls`: each step of the run `ls` from `s` is taken where `ok` allows its
label. -/
def Along (step : σ → ℓ → Option σ) (ok : σ → ℓ → Prop) : σ → List ℓ → Prop
  | _, [] => True
  | s, l :: ls => ok s l ∧ ∀ t, step s l = some t → Along step ok t ls

/-- A step in front of a run. -/
theorem Along.cons {ok : σ → ℓ → Prop} {s m : σ} {l : ℓ} {ls : List ℓ} (hok : ok s l)
    (hstep : step s l = some m) (h : Along step ok m ls) : Along step ok s (l :: ls) := by
  refine ⟨hok, fun t ht => ?_⟩
  rw [hstep, Option.some.injEq] at ht
  exact ht ▸ h

/-- Whether the steps of a run meet a condition can be tried out. -/
instance Along.decidable {ok : σ → ℓ → Prop} [∀ s l, Decidable (ok s l)] :
    ∀ (s : σ) (ls : List ℓ), Decidable (Along step ok s ls)
  | _, [] => isTrue trivial
  | s, l :: ls =>
      match hstep : step s l with
      | none => decidable_of_iff (ok s l) (by simp [Along, hstep])
      | some t =>
          have : Decidable (Along step ok t ls) := Along.decidable t ls
          decidable_of_iff (ok s l ∧ Along step ok t ls) (by simp [Along, hstep])

/-- The invariant rule for the runs whose steps all meet a condition. -/
theorem Along.invariant {ok : σ → ℓ → Prop} {motive : σ → Prop} {s t : σ} {ls : List ℓ}
    (hok : Along step ok s ls) (start : motive s)
    (next : ∀ m l t, motive m → ok m l → step m l = some t → motive t)
    (hrun : run step s ls = some t) : motive t := by
  induction ls generalizing s with
  | nil =>
      cases hrun
      exact start
  | cons l ls ih =>
      obtain ⟨m, hstep, hrest⟩ := Option.bind_eq_some_iff.mp hrun
      exact ih (hok.2 m hstep) (next s l m start hok.1 hstep) hrest

/-- The beginning of a run meets the condition. -/
theorem Along.of_append {ok : σ → ℓ → Prop} {s : σ} {first ls : List ℓ} (hfirst : first <+: ls)
    (h : Along step ok s ls) : Along step ok s first := by
  induction first generalizing s ls with
  | nil => trivial
  | cons l first ih =>
      obtain ⟨rest, rfl⟩ := hfirst
      exact ⟨h.1, fun t ht => ih (List.prefix_append first rest) (h.2 t ht)⟩

/-- A run meets a condition that its own steps imply of the states they start from. -/
theorem Along.of_steps {ok : σ → ℓ → Prop} {s t : σ} {ls : List ℓ}
    (hrun : run step s ls = some t)
    (h : ∀ first l m m', first ++ [l] <+: ls → run step s first = some m → step m l = some m' →
      ok m l) : Along step ok s ls := by
  induction ls generalizing s with
  | nil => trivial
  | cons l ls ih =>
      obtain ⟨m, hstep, hrest⟩ := Option.bind_eq_some_iff.mp hrun
      refine .cons (h [] l s m (by simp) rfl hstep) hstep (ih hrest ?_)
      intro first l' n n' hbegin hfirst hstep'
      refine h (l :: first) l' n n' ?_ ?_ hstep'
      · simpa using hbegin
      · simpa [run, hstep] using hfirst

/-- Every state reaches itself. -/
theorem Reachable.refl (s : σ) : Reachable step s s := ⟨[], rfl⟩

/-- A step can be put in front of a run. -/
theorem Reachable.head {s m t : σ} {l : ℓ} (hstep : step s l = some m)
    (h : Reachable step m t) : Reachable step s t := by
  obtain ⟨ls, hrun⟩ := h
  exact ⟨l :: ls, by simpa [run, hstep] using hrun⟩

/-- Runs compose. -/
theorem Reachable.trans {s m t : σ} (h : Reachable step s m) (h' : Reachable step m t) :
    Reachable step s t := by
  obtain ⟨first, hfirst⟩ := h
  obtain ⟨rest, hrest⟩ := h'
  exact ⟨first ++ rest, by simpa [run_append, hfirst] using hrest⟩

/-- Forward simulation. If every step of one machine is matched, through the abstraction `abs`,
by a run of another machine, then so is every run. The predicate `I` records what the matching
may assume of the concrete state. -/
theorem Reachable.simulation {step' : τ → κ → Option τ} {abs : σ → τ} {I : σ → Prop} {s t : σ}
    (h : Reachable step s t) (start : I s)
    (preserved : ∀ m l t, I m → step m l = some t → I t)
    (matched : ∀ m l t, I m → step m l = some t → Reachable step' (abs m) (abs t)) :
    Reachable step' (abs s) (abs t) := by
  have hboth : I t ∧ Reachable step' (abs s) (abs t) := by
    refine h.invariant (motive := fun t => I t ∧ Reachable step' (abs s) (abs t))
      ⟨start, .refl _⟩ ?_
    intro m l t hpair hstep
    obtain ⟨hm, hreach⟩ := hpair
    exact ⟨preserved m l t hm hstep, hreach.trans (matched m l t hm hstep)⟩
  exact hboth.2

/-! ## Runs of chosen steps -/

/-- A run that meets the condition goes on with one that does. -/
theorem Along.append {ok : σ → ℓ → Prop} {s m : σ} {first rest : List ℓ}
    (h : Along step ok s first) (hrun : run step s first = some m) (h' : Along step ok m rest) :
    Along step ok s (first ++ rest) := by
  induction first generalizing s with
  | nil =>
      cases hrun
      exact h'
  | cons l first ih =>
      obtain ⟨t, hstep, hrest⟩ := Option.bind_eq_some_iff.mp hrun
      exact .cons h.1 hstep (ih (h.2 t hstep) hrest)

/-- The end of a run meets the condition. -/
theorem Along.of_run {ok : σ → ℓ → Prop} {s m : σ} {first rest : List ℓ}
    (h : Along step ok s (first ++ rest)) (hrun : run step s first = some m) :
    Along step ok m rest := by
  induction first generalizing s with
  | nil =>
      cases hrun
      exact h
  | cons l first ih =>
      obtain ⟨t, hstep, hrest⟩ := Option.bind_eq_some_iff.mp hrun
      exact ih (h.2 t hstep) hrest

/-- The labels of a run have what the condition on its steps gives them. -/
theorem Along.labels {ok : σ → ℓ → Prop} {P : ℓ → Prop} (himp : ∀ s l, ok s l → P l) {s t : σ}
    {ls : List ℓ} (h : Along step ok s ls) (hrun : run step s ls = some t) : ∀ l ∈ ls, P l := by
  induction ls generalizing s with
  | nil => simp
  | cons l ls ih =>
      obtain ⟨m, hstep, hrest⟩ := Option.bind_eq_some_iff.mp hrun
      exact List.forall_mem_cons.mpr ⟨himp s l h.1, ih (h.2 m hstep) hrest⟩

/-- A run that meets a condition meets a weaker one. -/
theorem Along.mono {ok ok' : σ → ℓ → Prop} (himp : ∀ s l, ok s l → ok' s l) {s : σ}
    {ls : List ℓ} (h : Along step ok s ls) : Along step ok' s ls := by
  induction ls generalizing s with
  | nil => trivial
  | cons l ls ih => exact ⟨himp s l h.1, fun t ht => ih (h.2 t ht)⟩

/-- `Drives step ok s t` says some run whose steps are all taken where `ok` allows their label
leads from `s` to `t`. -/
def Drives (step : σ → ℓ → Option σ) (ok : σ → ℓ → Prop) (s t : σ) : Prop :=
  ∃ ls, Along step ok s ls ∧ run step s ls = some t

/-- Every state drives to itself. -/
theorem Drives.refl {ok : σ → ℓ → Prop} (s : σ) : Drives step ok s s := ⟨[], trivial, rfl⟩

/-- One step. -/
theorem Drives.one {ok : σ → ℓ → Prop} {s t : σ} {l : ℓ} (hstep : step s l = some t)
    (hl : ok s l) : Drives step ok s t :=
  ⟨[l], .cons hl hstep trivial, by simp [run, hstep]⟩

/-- Runs of chosen steps compose. -/
theorem Drives.trans {ok : σ → ℓ → Prop} {s m t : σ} (h : Drives step ok s m)
    (h' : Drives step ok m t) : Drives step ok s t := by
  obtain ⟨first, hfirst, hs⟩ := h
  obtain ⟨rest, hrest, hm⟩ := h'
  exact ⟨first ++ rest, hfirst.append hs hrest, by simpa [run_append, hs] using hm⟩

/-- A run of chosen steps is a run. -/
theorem Drives.reachable {ok : σ → ℓ → Prop} {s t : σ} (h : Drives step ok s t) :
    Reachable step s t := by
  obtain ⟨ls, -, hrun⟩ := h
  exact ⟨ls, hrun⟩

/-- If a machine can follow every chosen step of another one from related states to related states,
it can follow every run of chosen steps. -/
theorem Drives.lift {step' : τ → κ → Option τ} {ok : σ → ℓ → Prop} {ok' : τ → κ → Prop}
    {R : σ → τ → Prop}
    (follows : ∀ s d l d', R s d → ok' d l → step' d l = some d' →
      ∃ t, Drives step ok s t ∧ R t d')
    {s : σ} {d d' : τ} (hs : R s d) (h : Drives step' ok' d d') :
    ∃ t, Drives step ok s t ∧ R t d' := by
  obtain ⟨ls, hls, hrun⟩ := h
  induction ls generalizing s d with
  | nil =>
      cases hrun
      exact ⟨s, .refl s, hs⟩
  | cons l ls ih =>
      obtain ⟨e, hstep, hrest⟩ := Option.bind_eq_some_iff.mp hrun
      obtain ⟨m, hm, hrel⟩ := follows s d l e hs hls.1 hstep
      obtain ⟨t, ht, hrel⟩ := ih hrel (hls.2 e hstep) hrest
      exact ⟨t, hm.trans ht, hrel⟩

end Machine
