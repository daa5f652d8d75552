import Mathlib.Data.List.Basic

/-!
# Views of a growing history

A replicated store is a history of transactions and a state each prefix of it leads to. A client
sees a prefix: `view log k` is the state after the first `k` transactions. What a client has seen is
never taken back (`view_append`). Read `exists_crossing` first: between a view where a property
holds and a later one where it does not, there is one transaction that ends it.
-/

namespace History

variable {σ τ : Type*} (apply : σ → τ → σ) (init : σ)

/-- The state after a history. -/
def replay (log : List τ) : σ := log.foldl apply init

/-- The state after the first `k` transactions of a history. -/
def view (log : List τ) (k : Nat) : σ := replay apply init (log.take k)

variable {apply init} {log : List τ} {i j k : Nat}

/-- One more transaction. -/
theorem replay_snoc (t : τ) : replay apply init (log ++ [t]) = apply (replay apply init log) t := by
  simp [replay]

/-- The view of everything. -/
theorem view_length : view apply init log log.length = replay apply init log := by
  rw [view, List.take_length]

/-- A client that sees one more transaction. -/
theorem view_succ {t : τ} (h : log[k]? = some t) :
    view apply init log (k + 1) = apply (view apply init log k) t := by
  rw [view, List.take_add_one, h]
  exact replay_snoc t

/-- Beyond the end of the history there is nothing to see. -/
theorem view_succ_of_le (h : log.length ≤ k) :
    view apply init log (k + 1) = view apply init log k := by
  rw [view, view, List.take_of_length_le (by omega), List.take_of_length_le h]

/-- Transactions to come do not change what was seen. -/
theorem view_append (h : k ≤ log.length) (more : List τ) :
    view apply init (log ++ more) k = view apply init log k := by
  rw [view, List.take_append_of_le_length h, view]

/-- A later view is the same or one transaction further than the view before it. -/
theorem view_succ_cases (apply : σ → τ → σ) (init : σ) (log : List τ) (k : Nat) :
    view apply init log (k + 1) = view apply init log k ∨
      ∃ t, log[k]? = some t ∧
        view apply init log (k + 1) = apply (view apply init log k) t := by
  cases h : log[k]? with
  | none => exact Or.inl (view_succ_of_le (List.getElem?_eq_none_iff.mp h))
  | some t => exact Or.inr ⟨t, rfl, view_succ h⟩

/-- What every transaction preserves of the states before it holds between any two views. -/
theorem view_rel {R : σ → σ → Prop} (refl : ∀ s, R s s) (trans : ∀ s t u, R s t → R t u → R s u)
    (step : ∀ s t, R s (apply s t)) (h : i ≤ j) :
    R (view apply init log i) (view apply init log j) := by
  induction h with
  | refl => exact refl _
  | @step j _ ih =>
      rcases view_succ_cases apply init log j with heq | ⟨t, _, heq⟩
      · rw [heq]
        exact ih
      · rw [heq]
        exact trans _ _ _ ih (step _ t)

/-- Between a view where a property holds and a later one where it does not, one transaction ends
it. -/
theorem exists_crossing {P : σ → Prop} (h : i ≤ j) (hi : P (view apply init log i))
    (hj : ¬P (view apply init log j)) :
    ∃ k t, i ≤ k ∧ k < j ∧ log[k]? = some t ∧ P (view apply init log k) ∧
      ¬P (apply (view apply init log k) t) := by
  induction h with
  | refl => exact absurd hi hj
  | @step j hij ih =>
      by_cases hP : P (view apply init log j)
      · rcases view_succ_cases apply init log j with heq | ⟨t, ht, heq⟩
        · rw [heq] at hj
          exact absurd hP hj
        · rw [heq] at hj
          exact ⟨j, t, hij, Nat.lt_succ_self j, ht, hP, hj⟩
      · obtain ⟨k, t, hik, hkj, hrest⟩ := ih hP
        exact ⟨k, t, hik, Nat.lt_succ_of_lt hkj, hrest⟩

end History
