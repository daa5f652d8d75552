import Mathlib.Data.List.Basic

/-!
# Decimal text of integers

`Decimal.ofInt` writes an integer, with a sign only if it is negative; `Decimal.splitSign` and
`Decimal.ofDigits` read one. The two ends agree (`split_sign_of_int`), and the text of an integer
consists of digits and the sign, so it holds no separator.
-/

namespace Decimal

/-- The decimal text of an integer. -/
def ofInt : Int → List Char
  | .ofNat n => Nat.toDigits 10 n
  | .negSucc n => '-' :: Nat.toDigits 10 (n + 1)

/-- An optional sign, and what follows it. -/
def splitSign : List Char → Bool × List Char
  | '-' :: cs => (true, cs)
  | '+' :: cs => (false, cs)
  | cs => (false, cs)

/-- The integer with the sign `negative` and the digits `ds`. -/
def ofDigits (negative : Bool) (ds : List Char) : Int :=
  if negative then -(Nat.ofDigitChars 10 ds 0 : Int) else Nat.ofDigitChars 10 ds 0

/-- The characters of a decimal text are digits and the minus sign. -/
theorem mem_of_int {i : Int} {c : Char} (h : c ∈ ofInt i) : c.isDigit = true ∨ c = '-' := by
  cases i with
  | ofNat n => exact Or.inl (Nat.isDigit_of_mem_toDigits (by decide) (by decide) h)
  | negSucc n =>
      rcases List.mem_cons.mp h with rfl | h
      · exact Or.inr rfl
      · exact Or.inl (Nat.isDigit_of_mem_toDigits (by decide) (by decide) h)

/-- A character that is neither a digit nor the minus sign is in no decimal text. -/
theorem not_mem_of_int {c : Char} (hdigit : c.isDigit = false) (hsign : c ≠ '-') (i : Int) :
    c ∉ ofInt i := by
  intro h
  rcases mem_of_int h with h | h
  · rw [hdigit] at h
    cases h
  · exact hsign h

/-- Digits carry no sign. -/
theorem split_sign_digits {ds : List Char} (h : ∀ c ∈ ds, c.isDigit = true) :
    splitSign ds = (false, ds) := by
  unfold splitSign
  split
  · exact absurd (h '-' (by simp)) (by decide)
  · exact absurd (h '+' (by simp)) (by decide)
  · rfl

/-- The sign and the digits of a decimal text give back the integer. -/
theorem split_sign_of_int (i : Int) :
    ∃ negative ds, splitSign (ofInt i) = (negative, ds) ∧ ds ≠ [] ∧
      (∀ c ∈ ds, c.isDigit = true) ∧ ofDigits negative ds = i := by
  have hdigits : ∀ n, ∀ c ∈ Nat.toDigits 10 n, c.isDigit = true := fun n c hc =>
    Nat.isDigit_of_mem_toDigits (by decide) (by decide) hc
  cases i with
  | ofNat n =>
      refine ⟨false, Nat.toDigits 10 n, split_sign_digits (hdigits n), Nat.toDigits_ne_nil,
        hdigits n, ?_⟩
      simp [ofDigits]
  | negSucc n =>
      refine ⟨true, Nat.toDigits 10 (n + 1), rfl, Nat.toDigits_ne_nil, hdigits (n + 1), ?_⟩
      simp [ofDigits]
      omega

/-- Different integers have different decimal texts. -/
theorem of_int_injective : Function.Injective ofInt := by
  intro i j h
  obtain ⟨negative, ds, hsplit, -, -, hi⟩ := split_sign_of_int i
  obtain ⟨negative', ds', hsplit', -, -, hj⟩ := split_sign_of_int j
  rw [h, hsplit', Prod.mk.injEq] at hsplit
  rw [← hi, ← hj, hsplit.1, hsplit.2]

end Decimal
