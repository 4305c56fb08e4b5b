import Mathlib.Algebra.Order.Floor.Ring
import Mathlib.Data.Int.Log
import Mathlib.Data.Rat.Floor
import Mathlib.Tactic.Linarith
import Mathlib.Tactic.NormNum
import Mathlib.Tactic.Ring

/-!
# Rounding to a binary significand

The results of floating-point operations as rationals: the exact result rounded
to a given number of significant bits, ties to even.  Exponents are unbounded.
-/

namespace Rounding

/-- The nearest integer, the even one of two. -/
def nearestEven (q : ℚ) : ℤ :=
  if Int.fract q < 1 / 2 then ⌊q⌋
  else if 1 / 2 < Int.fract q then ⌊q⌋ + 1
  else if Even ⌊q⌋ then ⌊q⌋
  else ⌊q⌋ + 1

/-- The nearest rational with `precision` significant bits. -/
def roundSig (precision : ℕ) (q : ℚ) : ℚ :=
  if q = 0 then 0
  else
    let ulp : ℚ := 2 ^ (Int.log 2 |q| + 1 - precision)
    nearestEven (q / ulp) * ulp

/-- The significand of a `double`. -/
def double (q : ℚ) : ℚ := roundSig 53 q

/-- The significand of a `float`. -/
def float (q : ℚ) : ℚ := roundSig 24 q

/-- The nearest integer, the odd one of two. -/
def nearestOdd (q : ℚ) : ℤ :=
  if Int.fract q < 1 / 2 then ⌊q⌋
  else if 1 / 2 < Int.fract q then ⌊q⌋ + 1
  else if Even ⌊q⌋ then ⌊q⌋ + 1
  else ⌊q⌋

/-! ## The rounding error -/

theorem nearestEven_intCast (n : ℤ) : nearestEven (n : ℚ) = n := by
  rw [nearestEven, Int.fract_intCast, Int.floor_intCast]
  exact if_pos (by norm_num)

theorem abs_nearestEven_sub_le (q : ℚ) : |(nearestEven q : ℚ) - q| ≤ 1 / 2 := by
  have hfloor := Int.floor_add_fract q
  have hpos := Int.fract_nonneg q
  have hlt := Int.fract_lt_one q
  rw [abs_le, nearestEven]
  split_ifs <;> push_cast <;> constructor <;> linarith

/-- An integer that is nearest, and odd if it is not the only one. -/
theorem nearestOdd_eq {q : ℚ} {r : ℤ} (hnear : |q - r| ≤ 1 / 2)
    (hodd : |q - r| = 1 / 2 → Odd r) : nearestOdd q = r := by
  have hfloor := Int.floor_add_fract q
  have hpos := Int.fract_nonneg q
  have hlt := Int.fract_lt_one q
  obtain ⟨hlow, hhigh⟩ := abs_le.mp hnear
  have hstep : r = ⌊q⌋ ∨ r = ⌊q⌋ + 1 := by
    have h₀ : ((⌊q⌋ - 1 : ℤ) : ℚ) < r := by
      push_cast
      linarith
    have h₁ : (r : ℚ) < ((⌊q⌋ + 2 : ℤ) : ℚ) := by
      push_cast
      linarith
    have h₀' := Int.cast_lt.mp h₀
    have h₁' := Int.cast_lt.mp h₁
    omega
  rw [nearestOdd]
  rcases hstep with rfl | rfl
  · split_ifs with hless hmore heven
    · rfl
    · linarith
    · have htie : |q - ⌊q⌋| = 1 / 2 := by
        have hvalue : q - ⌊q⌋ = 1 / 2 := by linarith
        rw [hvalue, abs_of_pos (by norm_num)]
      exact absurd heven (Int.not_even_iff_odd.mpr (hodd htie))
    · rfl
  · push_cast at hlow hhigh hodd
    split_ifs with hless hmore heven
    · linarith
    · rfl
    · rfl
    · have htie : |q - (⌊q⌋ + 1)| = 1 / 2 := by
        have hvalue : q - (⌊q⌋ + 1) = -(1 / 2) := by linarith
        rw [hvalue, abs_neg, abs_of_pos (by norm_num)]
      have hplus := hodd htie
      rw [Int.odd_iff] at hplus
      rw [Int.even_iff] at heven
      omega

/-- The weight of the last bit of a significand. -/
def ulp (precision : ℕ) (q : ℚ) : ℚ :=
  2 ^ (Int.log 2 |q| + 1 - precision)

theorem ulp_pos (precision : ℕ) (q : ℚ) : 0 < ulp precision q :=
  zpow_pos (by norm_num) _

theorem roundSig_zero (precision : ℕ) : roundSig precision 0 = 0 :=
  if_pos rfl

theorem roundSig_of_ne_zero (precision : ℕ) {q : ℚ} (hq : q ≠ 0) :
    roundSig precision q =
      nearestEven (q / ulp precision q) * ulp precision q :=
  if_neg hq

theorem ulp_le (precision : ℕ) {q : ℚ} (hq : q ≠ 0) :
    ulp precision q ≤ |q| * (2 / 2 ^ precision) := by
  have hlog : (2 : ℚ) ^ Int.log 2 |q| ≤ |q| := by
    have h := Int.zpow_log_le_self (R := ℚ) (b := 2) one_lt_two
      (abs_pos.mpr hq)
    exact_mod_cast h
  have hulp : ulp precision q = 2 ^ Int.log 2 |q| * (2 / 2 ^ precision) := by
    rw [ulp, zpow_sub₀ two_ne_zero, zpow_add₀ two_ne_zero, zpow_one,
      zpow_natCast]
    ring
  rw [hulp]
  exact mul_le_mul_of_nonneg_right hlog (by positivity)

/-- A rounded value is within half a unit in the last place. -/
theorem abs_roundSig_sub_le_ulp (precision : ℕ) {q : ℚ} (hq : q ≠ 0) :
    |roundSig precision q - q| ≤ ulp precision q / 2 := by
  have hpos := ulp_pos precision q
  have hscaled : roundSig precision q - q =
      (nearestEven (q / ulp precision q) - q / ulp precision q) *
        ulp precision q := by
    rw [roundSig_of_ne_zero precision hq, sub_mul,
      div_mul_cancel₀ _ hpos.ne']
  have hnear := abs_nearestEven_sub_le (q / ulp precision q)
  rw [hscaled, abs_mul, abs_of_pos hpos]
  calc |(nearestEven (q / ulp precision q) : ℚ) - q / ulp precision q| *
        ulp precision q
      ≤ 1 / 2 * ulp precision q :=
        mul_le_mul_of_nonneg_right hnear hpos.le
    _ = ulp precision q / 2 := by ring

/-- The relative error of a rounded value. -/
theorem abs_roundSig_sub_le (precision : ℕ) (q : ℚ) :
    |roundSig precision q - q| ≤ |q| / 2 ^ precision := by
  by_cases hq : q = 0
  · rw [hq, roundSig_zero, sub_zero, abs_zero, zero_div]
  · calc |roundSig precision q - q|
        ≤ ulp precision q / 2 := abs_roundSig_sub_le_ulp precision hq
      _ ≤ |q| * (2 / 2 ^ precision) / 2 := by
          linarith [ulp_le precision hq]
      _ = |q| / 2 ^ precision := by ring

/-- The values kept as they are. -/
theorem roundSig_eq_self_iff (precision : ℕ) {q : ℚ} (hq : q ≠ 0) :
    roundSig precision q = q ↔ ∃ n : ℤ, q = n * ulp precision q := by
  have hpos := ulp_pos precision q
  rw [roundSig_of_ne_zero precision hq]
  constructor
  · intro h
    exact ⟨_, h.symm⟩
  · rintro ⟨n, hn⟩
    have hquot : q / ulp precision q = n := (div_eq_iff hpos.ne').mpr hn
    rw [hquot, nearestEven_intCast]
    exact hn.symm

/-! ## Natural numbers -/

/-- A number below `2 ^ precision` is kept. -/
theorem roundSig_natCast_of_lt {precision n : ℕ} (h : n < 2 ^ precision) :
    roundSig precision (n : ℚ) = n := by
  rcases Nat.eq_zero_or_pos n with rfl | hn
  · exact roundSig_zero precision
  · have hn0 : (n : ℚ) ≠ 0 := Nat.cast_ne_zero.mpr hn.ne'
    have hlog : Nat.log 2 n < precision :=
      Nat.log_lt_of_lt_pow hn.ne' h
    rw [roundSig_eq_self_iff precision hn0, ulp, Nat.abs_cast,
      Int.log_natCast]
    refine ⟨n * 2 ^ (precision - (Nat.log 2 n + 1)), ?_⟩
    have hexp : (Nat.log 2 n : ℤ) + 1 - precision =
        -((precision - (Nat.log 2 n + 1) : ℕ) : ℤ) := by
      omega
    rw [hexp, zpow_neg, zpow_natCast]
    push_cast
    rw [mul_assoc, mul_inv_cancel₀ (by positivity), mul_one]

/-- A longer number ends in as many zeros as it has bits too many. -/
theorem roundSig_natCast_eq_iff {precision n k : ℕ}
    (hlow : 2 ^ (precision + k) ≤ n) (hhigh : n < 2 ^ (precision + k + 1)) :
    roundSig precision (n : ℚ) = n ↔ 2 ^ (k + 1) ∣ n := by
  have hn : 0 < n := lt_of_lt_of_le (by positivity) hlow
  have hn0 : (n : ℚ) ≠ 0 := Nat.cast_ne_zero.mpr hn.ne'
  have hlog : Nat.log 2 n = precision + k :=
    (Nat.log_eq_iff (Or.inr ⟨by decide, hn.ne'⟩)).mpr ⟨hlow, hhigh⟩
  have hulp : ulp precision (n : ℚ) = ((2 ^ (k + 1) : ℕ) : ℚ) := by
    have hexp : ((precision + k : ℕ) : ℤ) + 1 - precision = (k + 1 : ℕ) := by
      omega
    rw [ulp, Nat.abs_cast, Int.log_natCast, hlog, hexp, zpow_natCast]
    push_cast
    rfl
  rw [roundSig_eq_self_iff precision hn0, hulp]
  constructor
  · rintro ⟨m, hm⟩
    have hint : (n : ℤ) = m * (2 ^ (k + 1) : ℕ) := by exact_mod_cast hm
    exact Int.natCast_dvd_natCast.mp (Dvd.intro_left m hint.symm)
  · rintro ⟨m, rfl⟩
    refine ⟨m, ?_⟩
    push_cast
    ring

/-- A number with bits to spare is rounded to a natural number. -/
theorem exists_int_roundSig {precision n : ℕ} (h : 2 ^ precision ≤ n) :
    ∃ m : ℤ, roundSig precision (n : ℚ) = m := by
  have hn : 0 < n := lt_of_lt_of_le (by positivity) h
  have hn0 : (n : ℚ) ≠ 0 := Nat.cast_ne_zero.mpr hn.ne'
  have hlog : precision ≤ Nat.log 2 n :=
    (Nat.le_log_iff_pow_le (by decide) hn.ne').mpr h
  obtain ⟨j, hj⟩ := Nat.exists_eq_add_of_le hlog
  have hexp : ((precision + j : ℕ) : ℤ) + 1 - precision = (j + 1 : ℕ) := by
    omega
  have hulp : ulp precision (n : ℚ) = 2 ^ (j + 1) := by
    rw [ulp, Nat.abs_cast, Int.log_natCast, hj, hexp, zpow_natCast]
  rw [roundSig_of_ne_zero precision hn0, hulp]
  refine ⟨nearestEven ((n : ℚ) / 2 ^ (j + 1)) * 2 ^ (j + 1), ?_⟩
  push_cast
  rfl

end Rounding
