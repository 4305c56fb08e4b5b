import Mathlib.Algebra.Order.Ring.Int
import Mathlib.Tactic.LinearCombination
import Mathlib.Tactic.Linarith
import Mathlib.Algebra.Order.Ring.Abs
import RedPitayaNotes.Support.Bits
import RedPitayaNotes.Support.Rounding

/-!
# Multiply-add slices

The exact part of a DSP48E1 slice: a signed product of 25 and 18 bits, a sum of
48 bits, and the pattern detector.  With a constant one below half a unit added,
and the detector looking for a fraction of ones, the upper bits of the sum are
the quotient rounded to the nearest, and from a tie to the odd neighbour.
-/

namespace Dsp48

/-- The multiplier takes the low 25 bits of port A and all of port B. -/
def mul (a : BitVec 30) (b : BitVec 18) : BitVec 48 :=
  (a.setWidth 25).signExtend 48 * b.signExtend 48

/-- `PATTERNBDETECT`: the bits outside the mask are the complement of the
pattern. -/
def patternBDetect (pattern mask p : BitVec 48) : Bool :=
  p ||| mask == ~~~pattern ||| mask

/-- Bits `n + k` to `n` of a sum, the lowest also set by the detector. -/
def rounded (n k : ℕ) (p : BitVec 48) (pbd : Bool) : BitVec (k + 1) :=
  p.extractLsb' (n + 1) k ++ BitVec.ofBool (p.getLsbD n || pbd)

/-- Mask and pattern that make the detector look for `n` ones. -/
def upper (n : ℕ) : BitVec 48 := BitVec.allOnes 48 <<< n

/-- The quotient by `2 ^ (n + 1)`, rounded to the nearest and from a tie to the
odd neighbour. -/
def roundOdd (n : ℕ) (v : ℤ) : ℤ :=
  let sum := v + (2 ^ n - 1)
  let q := sum / 2 ^ (n + 1)
  if sum % 2 ^ (n + 1) = 2 ^ (n + 1) - 1 then q + 1 - q % 2 else q

/-! ## Rounding -/

theorem roundOdd_neg (n : ℕ) (v : ℤ) : roundOdd n (-v) = -roundOdd n v := by
  have hpow : (2 : ℤ) ^ (n + 1) = 2 * 2 ^ n := pow_succ' 2 n
  have hhalf : (0 : ℤ) < 2 ^ n := pow_pos (by decide) n
  simp only [roundOdd, hpow]
  generalize (2 : ℤ) ^ n = half at hhalf
  have hpos : 0 < 2 * half := by omega
  obtain ⟨hv, hr, hr'⟩ :=
    (Int.ediv_emod_unique (a := v + (half - 1)) hpos).mp ⟨rfl, rfl⟩
  generalize (v + (half - 1)) / (2 * half) = q at hv
  generalize (v + (half - 1)) % (2 * half) = r at hv hr hr'
  by_cases htie : r = 2 * half - 1
  · have hneg := (Int.ediv_emod_unique (a := -v + (half - 1)) (q := -q - 1)
      (r := 2 * half - 1) hpos).mpr
      ⟨by linear_combination htie - hv, by omega, by omega⟩
    rw [if_pos htie, if_pos hneg.2, hneg.1]
    omega
  · have hneg := (Int.ediv_emod_unique (a := -v + (half - 1)) (q := -q)
      (r := 2 * half - 2 - r) hpos).mpr
      ⟨by linear_combination -hv, by omega, by omega⟩
    rw [if_neg htie, if_neg (by omega), hneg.1]

/-- No integer is nearer, and from a tie it is the odd one. -/
theorem roundOdd_near (n : ℕ) (v : ℤ) :
    |v - roundOdd n v * 2 ^ (n + 1)| ≤ 2 ^ n ∧
      (|v - roundOdd n v * 2 ^ (n + 1)| = 2 ^ n → Odd (roundOdd n v)) := by
  have hpow : (2 : ℤ) ^ (n + 1) = 2 * 2 ^ n := pow_succ' 2 n
  have hhalf : (0 : ℤ) < 2 ^ n := pow_pos (by decide) n
  simp only [roundOdd, hpow]
  generalize (2 : ℤ) ^ n = half at hhalf
  obtain ⟨hv, hr, hr'⟩ := (Int.ediv_emod_unique (a := v + (half - 1))
    (show 0 < 2 * half by omega)).mp ⟨rfl, rfl⟩
  generalize (v + (half - 1)) / (2 * half) = q at hv
  generalize (v + (half - 1)) % (2 * half) = r at hv hr hr'
  by_cases htie : r = 2 * half - 1
  · have hfar : |v - (q + 1 - q % 2) * (2 * half)| = half := by
      rcases Int.emod_two_eq q with heven | hodd
      · have hdist : v - (q + 1 - 0) * (2 * half) = -half := by
          linear_combination htie - hv
        rw [heven, hdist, abs_neg, abs_of_pos hhalf]
      · have hdist : v - (q + 1 - 1) * (2 * half) = half := by
          linear_combination htie - hv
        rw [hodd, hdist, abs_of_pos hhalf]
    rw [if_pos htie, Int.odd_iff]
    exact ⟨hfar.le, fun _ => by omega⟩
  · have hdist : v - q * (2 * half) = r - (half - 1) := by
      linear_combination -hv
    rw [if_neg htie, hdist]
    refine ⟨abs_le.mpr ⟨by omega, by omega⟩, ?_⟩
    intro hfar
    rcases abs_choice (r - (half - 1)) with habs | habs <;> omega

theorem roundOdd_eq_nearestOdd (n : ℕ) (v : ℤ) :
    roundOdd n v = Rounding.nearestOdd ((v : ℚ) / 2 ^ (n + 1)) := by
  have hhalf : (0 : ℚ) < 2 ^ n := pow_pos (by norm_num) n
  have hpow : (2 : ℚ) ^ (n + 1) = 2 * 2 ^ n := pow_succ' 2 n
  have hdist : |(v : ℚ) / 2 ^ (n + 1) - roundOdd n v| =
      ((|v - roundOdd n v * 2 ^ (n + 1)| : ℤ) : ℚ) / (2 * 2 ^ n) := by
    have hsub : (v : ℚ) / 2 ^ (n + 1) - roundOdd n v =
        ((v - roundOdd n v * 2 ^ (n + 1) : ℤ) : ℚ) / 2 ^ (n + 1) := by
      push_cast
      rw [sub_div, mul_div_cancel_right₀ _ (by positivity)]
    rw [hsub, abs_div, abs_of_pos (by positivity : (0 : ℚ) < 2 ^ (n + 1)), hpow,
      Int.cast_abs]
  obtain ⟨hnear, hodd⟩ := roundOdd_near n v
  symm
  apply Rounding.nearestOdd_eq
  · rw [hdist, div_le_div_iff₀ (by positivity) (by norm_num), mul_comm,
      one_mul]
    exact mul_le_mul_of_nonneg_left (by exact_mod_cast hnear) (by norm_num)
  · intro htie
    rw [hdist, div_eq_iff (by positivity), one_div_mul_eq_div,
      mul_div_cancel_left₀ _ (by norm_num)] at htie
    exact hodd (by exact_mod_cast htie)

/-! ## Products of signed numbers -/

/-- The product of two numbers of which not both are the lowest. -/
theorem mul_add_le {a b x y h : ℤ} (ha : -x ≤ a) (ha' : a < x) (hb : -y ≤ b)
    (hb' : b < y) (hx : h ≤ x) (hy : h ≤ y) (hne : ¬(a = -x ∧ b = -y)) :
    a * b + h ≤ x * y := by
  have habs : |b| ≤ y := abs_le.mpr ⟨hb, hb'.le⟩
  by_cases hmin : a = -x
  · have hlt : -b ≤ y - 1 := by
      have hbne : b ≠ -y := fun hby => hne ⟨hmin, hby⟩
      omega
    calc a * b + h = x * -b + h := by rw [hmin]; ring
      _ ≤ x * (y - 1) + x := by
          have hmul := mul_le_mul_of_nonneg_left hlt (show 0 ≤ x by omega)
          linarith
      _ = x * y := by ring
  · have habs' : |a| ≤ x - 1 := abs_le.mpr ⟨by omega, by omega⟩
    calc a * b + h ≤ |a| * |b| + h := by
          rw [← abs_mul]
          linarith [le_abs_self (a * b)]
      _ ≤ (x - 1) * y + y := by
          have hmul := mul_le_mul habs' habs (abs_nonneg b)
            (show 0 ≤ x - 1 by omega)
          linarith
      _ = x * y := by ring

theorem neg_mul_le {a b x y : ℤ} (ha : -x ≤ a) (ha' : a < x) (hb : -y ≤ b)
    (hb' : b < y) : -(x * y) ≤ a * b := by
  have habs : |a * b| ≤ x * y := by
    rw [abs_mul]
    exact mul_le_mul (abs_le.mpr ⟨ha, ha'.le⟩) (abs_le.mpr ⟨hb, hb'.le⟩)
      (abs_nonneg b) (by omega)
  exact (abs_le.mp habs).1

/-! ## The slice as integers -/

theorem toInt_mul (a : BitVec 30) (b : BitVec 18) :
    (mul a b).toInt = (a.setWidth 25).toInt * b.toInt := by
  have ha : |(a.setWidth 25).toInt| ≤ 2 ^ 24 :=
    abs_le.mpr ⟨(a.setWidth 25).le_toInt, (a.setWidth 25).toInt_lt.le⟩
  have hb : |b.toInt| ≤ 2 ^ 17 := abs_le.mpr ⟨b.le_toInt, b.toInt_lt.le⟩
  have hab : |(a.setWidth 25).toInt * b.toInt| ≤ 2 ^ 24 * 2 ^ 17 := by
    rw [abs_mul]
    exact mul_le_mul ha hb (abs_nonneg _) (by decide)
  obtain ⟨hlow, hhigh⟩ := abs_le.mp hab
  rw [mul, BitVec.toInt_mul, BitVec.toInt_signExtend_of_le (by decide),
    BitVec.toInt_signExtend_of_le (by decide)]
  apply Int.bmod_eq_of_le_mul_two <;> omega

/-- Some bits of a small number. -/
theorem toInt_extractLsb' {w n k : ℕ} {p : BitVec w} (h : n + (k + 1) ≤ w)
    (hlow : -2 ^ (n + k) ≤ p.toInt) (hhigh : p.toInt < 2 ^ (n + k)) :
    (p.extractLsb' n (k + 1)).toInt = p.toInt / 2 ^ n := by
  have hbits : p.extractLsb' n (k + 1) = (p.sshiftRight n).signExtend (k + 1) := by
    ext i hi
    have hlt : n + i < w := by omega
    rw [BitVec.getElem_extractLsb', BitVec.getElem_signExtend,
      dif_pos (by omega), BitVec.getElem_sshiftRight, dif_pos hlt,
      BitVec.getLsbD_eq_getElem hlt]
  have hpos : (0 : ℤ) < 2 ^ n := pow_pos (by decide) n
  rw [pow_add] at hlow hhigh
  rw [hbits, BitVec.toInt_signExtend_eq_toInt_bmod_of_le _ (by omega),
    BitVec.toInt_sshiftRight, Int.shiftRight_eq_div_pow]
  have hlow' : -2 ^ k ≤ p.toInt / 2 ^ n := by
    rw [Int.le_ediv_iff_mul_le hpos]
    linarith
  have hhigh' : p.toInt / 2 ^ n < 2 ^ k := by
    rw [Int.ediv_lt_iff_lt_mul hpos]
    linarith
  push_cast
  rw [pow_succ]
  apply Int.bmod_eq_of_le_mul_two <;> push_cast <;> linarith

theorem toInt_emod {w k : ℕ} (p : BitVec w) (h : k ≤ w) :
    p.toInt % 2 ^ k = ((p.toNat % 2 ^ k : ℕ) : ℤ) := by
  have hdvd : (2 : ℤ) ^ k ∣ 2 ^ w := pow_dvd_pow 2 h
  have hw : p.toInt % 2 ^ w = (p.toNat : ℤ) % 2 ^ w := by
    rw [BitVec.toInt_eq_toNat_bmod]
    exact_mod_cast Int.bmod_emod
  rw [← Int.emod_emod_of_dvd _ hdvd, hw, Int.emod_emod_of_dvd _ hdvd]
  push_cast
  rfl

/-- A bit of a signed number. -/
theorem getLsbD_eq_toInt {w n : ℕ} (p : BitVec w) (h : n < w) :
    p.getLsbD n = decide (p.toInt / 2 ^ n % 2 = 1) := by
  have hshift : (p.sshiftRight n).getLsbD 0 = p.getLsbD n := by
    have hw : w ≠ 0 := by omega
    rw [BitVec.getLsbD_sshiftRight]
    simp [h, hw]
  have hmod := toInt_emod (k := 1) (p.sshiftRight n) (by omega)
  rw [BitVec.toInt_sshiftRight, Int.shiftRight_eq_div_pow] at hmod
  rw [← hshift, BitVec.getLsbD, Nat.testBit_zero, decide_eq_decide]
  push_cast at hmod
  omega

theorem getLsbD_upper (n : ℕ) {i : ℕ} (hi : i < 48) :
    (upper n).getLsbD i = decide (n ≤ i) := by
  rw [upper, BitVec.getLsbD_shiftLeft, BitVec.getLsbD_allOnes,
    decide_eq_true hi, Bool.true_and, decide_eq_true (show i - n < 48 by omega),
    Bool.and_true, ← decide_not, decide_eq_decide, Nat.not_lt]

/-- Ones in the low bits of a signed number. -/
theorem patternBDetect_upper {n : ℕ} (p : BitVec 48) (h : n ≤ 48) :
    patternBDetect (upper n) (upper n) p =
      decide (p.toInt % 2 ^ n = 2 ^ n - 1) := by
  have hones : p ||| upper n = ~~~upper n ||| upper n ↔
      p.setWidth n = BitVec.allOnes n := by
    constructor
    · intro hall
      apply BitVec.eq_of_getLsbD_eq
      intro i hi
      have hbit := congrArg (BitVec.getLsbD · i) hall
      simp only [BitVec.getLsbD_or, BitVec.getLsbD_not,
        getLsbD_upper n (show i < 48 by omega)] at hbit
      rw [BitVec.getLsbD_setWidth, BitVec.getLsbD_allOnes]
      simpa [hi, show i < 48 by omega, Nat.not_le.mpr hi] using hbit
    · intro hlow
      apply BitVec.eq_of_getLsbD_eq
      intro i hi
      simp only [BitVec.getLsbD_or, BitVec.getLsbD_not, getLsbD_upper n hi]
      by_cases hin : i < n
      · have hbit := congrArg (BitVec.getLsbD · i) hlow
        rw [BitVec.getLsbD_setWidth, BitVec.getLsbD_allOnes] at hbit
        simpa [hi, hin, Nat.not_le.mpr hin] using hbit
      · simp [Nat.not_lt.mp hin]
  have hpow : 1 ≤ 2 ^ n := Nat.one_le_two_pow
  have hcast : ((2 ^ n : ℕ) : ℤ) = 2 ^ n := by
    push_cast
    rfl
  rw [patternBDetect, toInt_emod p h, beq_eq_decide, decide_eq_decide, hones,
    ← BitVec.toNat_inj, BitVec.toNat_setWidth, BitVec.toNat_allOnes, ← hcast]
  omega

theorem toInt_rounded {n k : ℕ} {p : BitVec 48} {v : ℤ}
    (h : n + 1 + (k + 1) < 48) (hp : p.toInt = v + (2 ^ n - 1))
    (hlow : -2 ^ (n + 1 + (k + 1)) ≤ p.toInt)
    (hhigh : p.toInt < 2 ^ (n + 1 + (k + 1))) :
    (rounded (n + 1) (k + 1) p
      (patternBDetect (upper (n + 1)) (upper (n + 1)) p)).toInt =
      roundOdd n v := by
  have hhi := toInt_extractLsb' (n := n + 1 + 1) (k := k) (p := p) (by omega)
    (by rwa [show n + 1 + 1 + k = n + 1 + (k + 1) by omega])
    (by rwa [show n + 1 + 1 + k = n + 1 + (k + 1) by omega])
  have hdiv : p.toInt / 2 ^ (n + 1 + 1) = p.toInt / 2 ^ (n + 1) / 2 := by
    rw [pow_succ, ← Int.ediv_ediv_of_nonneg (pow_nonneg (by decide) _)]
  have hk : ¬(k + 1 == 0) = true := by simp
  have hbit : ∀ b : Bool, ((BitVec.ofBool b).toNat : ℤ) = b.toNat := by
    decide
  rw [rounded, BitVec.toInt_append, if_neg hk, hhi, hdiv, hbit,
    getLsbD_eq_toInt p (by omega), patternBDetect_upper p (by omega), roundOdd,
    ← hp]
  generalize p.toInt / 2 ^ (n + 1) = q
  have hparity := Int.emod_two_eq q
  by_cases htie : p.toInt % 2 ^ (n + 1) = 2 ^ (n + 1) - 1
  · rw [if_pos htie, decide_eq_true htie, Bool.or_true, Bool.toNat_true]
    push_cast
    omega
  · rw [if_neg htie, decide_eq_false htie, Bool.or_false]
    rcases hparity with heven | hodd
    · rw [heven, decide_eq_false (by decide), Bool.toNat_false]
      push_cast
      omega
    · rw [hodd, decide_eq_true rfl, Bool.toNat_true]
      push_cast
      omega

/-- The same at widths that are not successors by their form. -/
theorem toInt_rounded_of_pos {n k : ℕ} {p : BitVec 48} {v : ℤ} (hn : 0 < n)
    (hk : 0 < k) (h : n + k < 48) (hp : p.toInt = v + (2 ^ (n - 1) - 1))
    (hlow : -2 ^ (n + k) ≤ p.toInt) (hhigh : p.toInt < 2 ^ (n + k)) :
    (rounded n k p (patternBDetect (upper n) (upper n) p)).toInt =
      roundOdd (n - 1) v := by
  cases n with
  | zero => exact absurd hn (lt_irrefl 0)
  | succ n =>
      cases k with
      | zero => exact absurd hk (lt_irrefl 0)
      | succ k => exact toInt_rounded h hp hlow hhigh

/-- A sum of one bit above the result's range and of less than half a unit: the
result wraps to its lowest value. -/
theorem toInt_rounded_wraps {n k : ℕ} {p : BitVec 48} (hn : 0 < n) (hk : 0 < k)
    (h : n + k < 47) (hp : p.toNat = 2 ^ (n + k) + (2 ^ (n - 1) - 1)) :
    (rounded n k p (patternBDetect (upper n) (upper n) p)).toInt = -2 ^ k := by
  obtain ⟨half, hhalf⟩ : ∃ half, half = 2 ^ (n - 1) := ⟨_, rfl⟩
  have hunit : 2 ^ n = 2 * half := by
    rw [hhalf, ← pow_succ', Nat.sub_add_cancel hn]
  have htop : 2 ^ (n + k) = 2 ^ k * (2 * half) := by
    rw [pow_add, hunit, mul_comm]
  have hpos : 0 < half := by
    rw [hhalf]
    positivity
  have hdiv : p.toNat / 2 ^ n = 2 ^ k := by
    rw [hp, hunit, htop, ← hhalf, Nat.mul_comm, Nat.mul_add_div (by omega),
      Nat.div_eq_of_lt (by omega), Nat.add_zero]
  have hrest : p.toNat % 2 ^ n = half - 1 := by
    rw [hp, hunit, htop, ← hhalf, Nat.mul_comm, Nat.mul_add_mod,
      Nat.mod_eq_of_lt (by omega)]
  obtain ⟨quarter, hquarter⟩ : ∃ quarter, 2 ^ k = 2 * quarter :=
    ⟨2 ^ (k - 1), by rw [← pow_succ', Nat.sub_add_cancel hk]⟩
  have hquarter0 : 0 < 2 ^ k := by positivity
  have hdetect : patternBDetect (upper n) (upper n) p = false := by
    rw [patternBDetect_upper p (by omega), toInt_emod p (by omega), hrest,
      decide_eq_false_iff_not]
    have hcast : (2 : ℤ) ^ n = 2 * half := by exact_mod_cast hunit
    rw [hcast]
    omega
  have hbit : p.getLsbD n = false := by
    rw [BitVec.getLsbD, Nat.testBit_eq_decide_div_mod_eq, hdiv, hquarter,
      Nat.mul_mod_right]
    rfl
  have hupper : (p.extractLsb' (n + 1) k).toNat = quarter := by
    rw [BitVec.extractLsb'_toNat, Nat.shiftRight_eq_div_pow, pow_succ,
      ← Nat.div_div_eq_div_mul, hdiv, hquarter,
      Nat.mul_div_cancel_left _ (by decide), Nat.mod_eq_of_lt (by omega)]
  have hnat : (rounded n k p false).toNat = 2 ^ k := by
    rw [rounded, hbit, BitVec.toNat_append, hupper, hquarter]
    simp [Nat.shiftLeft_eq, Nat.mul_comm]
  rw [hdetect, BitVec.toInt_eq_toNat_cond, hnat, if_neg (by omega)]
  push_cast
  ring

end Dsp48
