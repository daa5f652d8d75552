import Mathlib.Algebra.Order.Floor.Div
import Mathlib.Algebra.Order.Floor.Ring
import Mathlib.Data.Int.Log
import Mathlib.Data.Rat.Floor
import Mathlib.Tactic.Linarith
import Mathlib.Tactic.Ring

/-!
# Rounding to a binary precision

A binary floating-point number of precision `p` is an integer of at most `p` bits times a power of
two. `nearest p x` rounds a non-negative rational to the nearest one, and to an even integer between
two. There is no bound on the exponent, so this is the rounding of IEEE 754 where nothing overflows
and no result is subnormal.

Read `ceil_nearest_div` first: for integers that fit the precision, the ceiling of the rounded
quotient is the ceiling of the quotient.
-/

namespace Rounding

/-! ## To an integer -/

/-- The nearest integer, and the even one between two. -/
def roundEven (x : ℚ) : ℤ :=
  if 2 * (x - ⌊x⌋) < 1 ∨ 2 * (x - ⌊x⌋) = 1 ∧ ⌊x⌋ % 2 = 0 then ⌊x⌋ else ⌊x⌋ + 1

/-- Rounding stays above the integers below. -/
theorem le_round_even {x : ℚ} {k : ℤ} (h : (k : ℚ) ≤ x) : k ≤ roundEven x := by
  have hfloor := Int.le_floor.mpr h
  unfold roundEven
  split <;> omega

/-- Rounding stays below the integers above. -/
theorem round_even_le {x : ℚ} {k : ℤ} (h : x ≤ k) : roundEven x ≤ k := by
  unfold roundEven
  split
  · exact Int.cast_le.mp ((Int.floor_le x).trans h)
  · next hup =>
    have hne : (⌊x⌋ : ℚ) < x := by
      refine lt_of_le_of_ne (Int.floor_le x) fun heq => hup (.inl ?_)
      rw [heq, sub_self, mul_zero]
      exact one_pos
    have hlt : ⌊x⌋ < k := Int.cast_lt.mp (hne.trans_le h)
    omega

/-- More than half above an integer, rounding leaves it. -/
theorem lt_round_even {x : ℚ} {k : ℤ} (h : 2 * (k : ℚ) + 1 < 2 * x) : k < roundEven x := by
  have hfloor : k ≤ ⌊x⌋ := Int.le_floor.mpr (by linarith)
  rcases hfloor.lt_or_eq with hlt | rfl
  · unfold roundEven
    split <;> omega
  · unfold roundEven
    rw [if_neg]
    · omega
    · push Not
      exact ⟨by linarith, fun heq => by linarith⟩

/-! ## To a precision -/

/-- The distance of the numbers of precision `p` around `x`. -/
def ulp (p : ℕ) (x : ℚ) : ℚ := 2 ^ (Int.log 2 x + 1 - p)

/-- The number of precision `p` nearest to `x`. -/
def nearest (p : ℕ) (x : ℚ) : ℚ := roundEven (x / ulp p x) * ulp p x

variable {p : ℕ} {x : ℚ}

/-- The distance is positive. -/
theorem ulp_pos (p : ℕ) (x : ℚ) : 0 < ulp p x := zpow_pos two_pos _

/-- `2 ^ p` distances are the power of two above `x`. -/
theorem two_pow_mul_ulp (p : ℕ) (x : ℚ) : (2 : ℚ) ^ p * ulp p x = 2 ^ (Int.log 2 x + 1) := by
  rw [ulp, ← zpow_natCast, ← zpow_add₀ two_ne_zero]
  congr 1
  ring

/-- Zero is a number of every precision. -/
@[simp] theorem nearest_zero (p : ℕ) : nearest p 0 = 0 := by
  simp [nearest, roundEven]

/-- Rounding stays above the power of two below `x`. -/
theorem zpow_log_le_nearest (hp : 1 ≤ p) (hx : 0 < x) : (2 : ℚ) ^ Int.log 2 x ≤ nearest p x := by
  have hbelow : (2 : ℚ) ^ Int.log 2 x ≤ x := mod_cast Int.zpow_log_le_self one_lt_two hx
  have hunits : ((2 ^ (p - 1) : ℤ) : ℚ) * ulp p x = 2 ^ Int.log 2 x := by
    have hmul := two_pow_mul_ulp p x
    obtain ⟨q, rfl⟩ := Nat.exists_eq_add_of_le' hp
    rw [zpow_add_one₀ two_ne_zero, pow_succ] at hmul
    rw [Nat.add_sub_cancel]
    push_cast
    linarith
  have hround : (2 ^ (p - 1) : ℤ) ≤ roundEven (x / ulp p x) := by
    refine le_round_even ((le_div_iff₀ (ulp_pos p x)).mpr ?_)
    rw [hunits]
    exact hbelow
  calc (2 : ℚ) ^ Int.log 2 x = ((2 ^ (p - 1) : ℤ) : ℚ) * ulp p x := hunits.symm
    _ ≤ roundEven (x / ulp p x) * ulp p x :=
        mul_le_mul_of_nonneg_right (Int.cast_le.mpr hround) (ulp_pos p x).le

/-- Rounding keeps a positive number positive. -/
theorem nearest_pos (hp : 1 ≤ p) (hx : 0 < x) : 0 < nearest p x :=
  lt_of_lt_of_le (zpow_pos two_pos _) (zpow_log_le_nearest hp hx)

/-- An integer that fits the precision and is not below the power of two is a multiple of the
distance. -/
theorem exists_mul_ulp (hp : 1 ≤ p) {k : ℕ} (hk : k ≤ 2 ^ p) (hle : (2 : ℚ) ^ Int.log 2 x ≤ k) :
    ∃ units : ℤ, (units : ℚ) * ulp p x = k := by
  have hlog : Int.log 2 x ≤ p := by
    have hpow : (2 : ℚ) ^ Int.log 2 x ≤ 2 ^ (p : ℤ) := hle.trans (mod_cast hk)
    exact (zpow_le_zpow_iff_right₀ one_lt_two).mp hpow
  rcases hlog.lt_or_eq with hlt | heq
  · obtain ⟨d, hd⟩ := Int.eq_ofNat_of_zero_le (show 0 ≤ (p : ℤ) - 1 - Int.log 2 x by omega)
    refine ⟨k * 2 ^ d, ?_⟩
    have hone : (2 : ℚ) ^ d * ulp p x = 1 := by
      rw [ulp, ← zpow_natCast, ← zpow_add₀ two_ne_zero]
      rw [show (d : ℤ) + (Int.log 2 x + 1 - p) = 0 by omega, zpow_zero]
    push_cast
    rw [mul_assoc, hone, mul_one]
  · -- the integer is the power of two
    have hpow : (2 : ℚ) ^ p = k := by
      refine le_antisymm ?_ (mod_cast hk)
      rw [heq] at hle
      exact mod_cast hle
    refine ⟨2 ^ (p - 1), ?_⟩
    have hmul := two_pow_mul_ulp p x
    rw [heq, zpow_add_one₀ two_ne_zero, zpow_natCast, hpow] at hmul
    obtain ⟨q, rfl⟩ := Nat.exists_eq_add_of_le' hp
    rw [← hpow, pow_succ] at hmul
    rw [← hpow, pow_succ, Nat.add_sub_cancel]
    push_cast
    linarith

/-- Rounding does not cross an integer above that fits the precision. -/
theorem nearest_le (hp : 1 ≤ p) (hx : 0 < x) {k : ℕ} (hk : k ≤ 2 ^ p) (h : x ≤ k) :
    nearest p x ≤ k := by
  have hunits : ∀ units : ℤ, x ≤ units * ulp p x → nearest p x ≤ units * ulp p x := by
    intro units hle
    have hround := round_even_le ((div_le_iff₀ (ulp_pos p x)).mpr hle)
    exact mul_le_mul_of_nonneg_right (Int.cast_le.mpr hround) (ulp_pos p x).le
  have hbelow : (2 : ℚ) ^ Int.log 2 x ≤ x := mod_cast Int.zpow_log_le_self one_lt_two hx
  obtain ⟨units, hmul⟩ := exists_mul_ulp hp hk (hbelow.trans h)
  rw [← hmul] at h ⊢
  exact hunits units h

/-- An integer that fits the precision is not rounded. -/
theorem nearest_natCast (hp : 1 ≤ p) {k : ℕ} (hk : k ≤ 2 ^ p) : nearest p k = k := by
  rcases Nat.eq_zero_or_pos k with rfl | hpos
  · simp
  · have hx : (0 : ℚ) < k := Nat.cast_pos.mpr hpos
    obtain ⟨units, hmul⟩ := exists_mul_ulp (x := (k : ℚ)) hp hk
      (mod_cast Int.zpow_log_le_self one_lt_two hx)
    refine le_antisymm (nearest_le hp hx hk le_rfl) ?_
    have hround : units ≤ roundEven ((k : ℚ) / ulp p k) :=
      le_round_even ((le_div_iff₀ (ulp_pos p _)).mpr hmul.le)
    calc (k : ℚ) = units * ulp p k := hmul.symm
      _ ≤ nearest p k := mul_le_mul_of_nonneg_right (Int.cast_le.mpr hround) (ulp_pos p _).le

/-- Rounding does not cross the largest integers of the precision from above. -/
theorem two_pow_le_nearest (hp : 1 ≤ p) (h : (2 : ℚ) ^ p ≤ x) : (2 : ℚ) ^ p ≤ nearest p x := by
  have hx : 0 < x := lt_of_lt_of_le (by positivity) h
  have hlog : (p : ℤ) ≤ Int.log 2 x := by
    rw [← Int.zpow_le_iff_le_log one_lt_two hx]
    exact mod_cast h
  calc (2 : ℚ) ^ p = 2 ^ (p : ℤ) := (zpow_natCast 2 p).symm
    _ ≤ 2 ^ Int.log 2 x := zpow_le_zpow_right₀ one_le_two hlog
    _ ≤ nearest p x := zpow_log_le_nearest hp hx

/-! ## Quotients -/

/-- The rounded quotient of integers that fit the precision is above every integer the quotient is
above. -/
theorem lt_nearest_div (hp : 1 ≤ p) {t n k : ℕ} (hn : 0 < n) (ht : t ≤ 2 ^ p) (h : k * n < t) :
    (k : ℚ) < nearest p (t / n) := by
  have hn' : (0 : ℚ) < n := Nat.cast_pos.mpr hn
  have hx : (0 : ℚ) < t / n := div_pos (Nat.cast_pos.mpr (by omega)) hn'
  -- the quotient exceeds `k` by at least `1 / n`
  have hstep : (k : ℚ) + 1 / n ≤ t / n := by
    have hcast : ((k * n + 1 : ℕ) : ℚ) ≤ t := Nat.cast_le.mpr h
    rw [le_div_iff₀ hn', add_mul, one_div, inv_mul_cancel₀ hn'.ne']
    exact_mod_cast hcast
  generalize hxe : (t : ℚ) / n = x at hx hstep ⊢
  rcases lt_or_ge (k : ℚ) (2 ^ Int.log 2 x) with hlow | hhigh
  · exact hlow.trans_le (zpow_log_le_nearest hp hx)
  · have hk : k ≤ 2 ^ p := by
      have hle : k * 1 ≤ k * n := Nat.mul_le_mul_left k hn
      omega
    obtain ⟨units, hmul⟩ := exists_mul_ulp hp hk hhigh
    -- half a distance is less than `1 / n`, because `k * n` is less than `2 ^ p`
    have hhalf : ulp p x < 2 * (1 / n) := by
      have hprod : (2 : ℚ) ^ Int.log 2 x * n < 2 ^ p := by
        calc (2 : ℚ) ^ Int.log 2 x * n ≤ k * n := mul_le_mul_of_nonneg_right hhigh hn'.le
          _ < 2 ^ p := by exact_mod_cast lt_of_lt_of_le h ht
      have hpow := two_pow_mul_ulp p x
      rw [zpow_add_one₀ two_ne_zero] at hpow
      have hless : (2 : ℚ) ^ p * (ulp p x * n) < 2 ^ p * 2 := by
        rw [← mul_assoc, hpow]
        linarith
      rw [mul_one_div, lt_div_iff₀ hn']
      exact lt_of_mul_lt_mul_left hless (by positivity)
    have hround : units < roundEven (x / ulp p x) := by
      refine lt_round_even ?_
      have hdiv : x = x / ulp p x * ulp p x := (div_mul_cancel₀ x (ulp_pos p x).ne').symm
      have hmore : (2 * (units : ℚ) + 1) * ulp p x < 2 * (x / ulp p x) * ulp p x := by
        rw [add_mul, mul_assoc, mul_assoc, hmul, ← hdiv]
        linarith
      exact lt_of_mul_lt_mul_right hmore (ulp_pos p x).le
    calc (k : ℚ) = units * ulp p x := hmul.symm
      _ < nearest p x := mul_lt_mul_of_pos_right (Int.cast_lt.mpr hround) (ulp_pos p x)

/-- The ceiling of the rounded quotient of integers that fit the precision is the ceiling of their
quotient. -/
theorem ceil_nearest_div (hp : 1 ≤ p) {t n : ℕ} (hn : 0 < n) (ht : t ≤ 2 ^ p) :
    ⌈nearest p (t / n)⌉ = ((t ⌈/⌉ n : ℕ) : ℤ) := by
  rcases Nat.eq_zero_or_pos t with rfl | hpos
  · simp
  · have hle : t ≤ n * (t ⌈/⌉ n) := (ceilDiv_le_iff_le_mul hn).mp le_rfl
    have hless : ∀ k < t ⌈/⌉ n, k * n < t := by
      intro k hk
      rw [Nat.mul_comm, ← Nat.not_le, ← ceilDiv_le_iff_le_mul hn]
      exact Nat.not_le.mpr hk
    have hmost : t ⌈/⌉ n ≤ t := (ceilDiv_le_iff_le_mul hn).mpr (Nat.le_mul_of_pos_left t hn)
    generalize t ⌈/⌉ n = c at hle hless hmost ⊢
    obtain ⟨k, rfl⟩ : ∃ k, c = k + 1 := Nat.exists_eq_succ_of_ne_zero (by
      rintro rfl
      omega)
    have hn' : (0 : ℚ) < n := Nat.cast_pos.mpr hn
    have hx : (0 : ℚ) < t / n := div_pos (Nat.cast_pos.mpr hpos) hn'
    rw [Int.ceil_eq_iff]
    constructor
    · have hlower := lt_nearest_div hp hn ht (hless k (Nat.lt_succ_self k))
      push_cast
      linarith
    · refine (nearest_le hp hx (hmost.trans ht) ?_).trans_eq (by push_cast; rfl)
      rw [div_le_iff₀ hn', mul_comm]
      exact_mod_cast hle

end Rounding
