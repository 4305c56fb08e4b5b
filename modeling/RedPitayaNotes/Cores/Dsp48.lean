import RedPitayaNotes.Support.Clocked
import RedPitayaNotes.Support.Dsp48

/-!
# The dsp48 core

`cores/dsp48.v` multiplies two signed numbers and drops the low bits of the
product.  The rounding constant, the mask that the slice derives from it and the
slice of the sum are all set by the three widths.
-/

namespace RedPitayaNotes.Dsp48Core

open Clocked Dsp48

structure Params where
  aWidth : ℕ := 24
  bWidth : ℕ := 16
  pWidth : ℕ := 24

namespace Params

variable (p : Params)

def shift : ℕ := p.aWidth + p.bWidth - p.pWidth - 1

def ones : ℕ := p.shift - 1

/-- Port C: `ONES` ones. -/
def c : BitVec 48 := (BitVec.allOnes p.ones).setWidth 48

/-- `ROUNDING_MODE1`: the complement of port C, shifted left by one. -/
def mask : BitVec 48 := ~~~p.c <<< 1

/-- The widths at which the result fits. -/
structure Fits : Prop where
  aWidth_le : p.aWidth ≤ 25
  bWidth_le : p.bWidth ≤ 18
  aWidth_le_pWidth : p.aWidth ≤ p.pWidth
  bWidth_le_pWidth : p.bWidth ≤ p.pWidth
  two_le_shift : 2 ≤ p.shift

end Params

/-- The registers of `dsp_0`. -/
structure State where
  a : BitVec 30
  b : BitVec 18
  m : BitVec 48
  p : BitVec 48

structure Input (p : Params) where
  a : BitVec p.aWidth
  b : BitVec p.bWidth

variable {p : Params}

def next (s : State) (i : Input p) : State where
  a := i.a.signExtend 30
  b := i.b.signExtend 18
  m := mul s.a s.b
  p := p.c + s.m

/-- `int_pbd_wire`; the pattern is zero by default. -/
def intPbdWire (p : Params) (s : State) : Bool :=
  patternBDetect 0 p.mask s.p

/-- Output `P`. -/
def out (p : Params) (s : State) : BitVec (p.pWidth - 1 + 1) :=
  rounded p.shift (p.pWidth - 1) s.p (intPbdWire p s)

/-! ## The slice -/

theorem mask_eq_upper (h : 2 ≤ p.shift) : p.mask = upper p.shift := by
  apply BitVec.eq_of_getLsbD_eq
  intro i hi
  rw [getLsbD_upper p.shift hi, Params.mask, BitVec.getLsbD_shiftLeft,
    BitVec.getLsbD_not, Params.c, BitVec.getLsbD_setWidth,
    BitVec.getLsbD_allOnes, Params.ones, Bool.eq_iff_iff]
  simp only [Bool.and_eq_true, Bool.not_eq_true', decide_eq_true_eq,
    decide_eq_false_iff_not, Bool.and_eq_false_imp]
  omega

/-- With the mask as the pattern the detector does the same: a pattern matters
outside the mask only. -/
theorem patternBDetect_zero (mask v : BitVec 48) :
    patternBDetect 0 mask v = patternBDetect mask mask v := by
  have hones : ~~~(0 : BitVec 48) ||| mask = ~~~mask ||| mask := by
    have hnot : ~~~(0 : BitVec 48) = BitVec.allOnes 48 := BitVec.not_zero
    rw [hnot, BitVec.allOnes_or]
    apply BitVec.eq_of_getLsbD_eq
    intro i hi
    rw [BitVec.getLsbD_allOnes, BitVec.getLsbD_or, BitVec.getLsbD_not,
      decide_eq_true hi]
    cases mask.getLsbD i <;> rfl
  rw [patternBDetect, patternBDetect, hones]

theorem toNat_c (h : p.ones ≤ 48) : p.c.toNat = 2 ^ p.ones - 1 := by
  have hpow : 2 ^ p.ones ≤ 2 ^ 48 := Nat.pow_le_pow_right (by decide) h
  have hpos : 0 < 2 ^ p.ones := Nat.two_pow_pos _
  rw [Params.c, BitVec.toNat_setWidth, BitVec.toNat_allOnes,
    Nat.mod_eq_of_lt (by omega)]

theorem toInt_product (hp : p.Fits) (i : Input p) :
    (mul (i.a.signExtend 30) (i.b.signExtend 18)).toInt =
      i.a.toInt * i.b.toInt := by
  have ha := hp.aWidth_le
  have hlow : (i.a.signExtend 30).setWidth 25 = i.a.signExtend 25 := by
    apply BitVec.eq_of_getLsbD_eq
    intro n hn
    simp only [BitVec.getLsbD_setWidth, BitVec.getLsbD_signExtend, hn,
      decide_true, Bool.true_and]
    rw [decide_eq_true (show n < 30 by omega), Bool.true_and]
  rw [toInt_mul, hlow, BitVec.toInt_signExtend_of_le ha,
    BitVec.toInt_signExtend_of_le hp.bWidth_le]

/-! ## Rounding -/

theorem widths (hp : p.Fits) :
    p.ones + 1 = p.shift ∧ p.ones ≤ 38 ∧ p.shift + (p.pWidth - 1) ≤ 41 ∧
      p.shift + p.pWidth + 1 = p.aWidth + p.bWidth ∧ 3 ≤ p.aWidth ∧
      3 ≤ p.bWidth := by
  obtain ⟨ha, hb, hap, hbp, hshift⟩ := hp
  rw [Params.ones]
  rw [Params.shift] at hshift ⊢
  omega

/-- The bounds of an operand. -/
theorem toInt_bounds {w : ℕ} (x : BitVec w) :
    -2 ^ (w - 1) ≤ x.toInt ∧ x.toInt < 2 ^ (w - 1) :=
  ⟨x.le_toInt, x.toInt_lt⟩

theorem toInt_eq_min_iff {w : ℕ} (h : 0 < w) (x : BitVec w) :
    x.toInt = -2 ^ (w - 1) ↔ x = BitVec.intMin w := by
  rw [← BitVec.toInt_inj, BitVec.toInt_intMin_of_pos h]

/-- What a product of two operands leaves free of the range of the sum. -/
theorem product_bounds (hp : p.Fits) (i : Input p) :
    -2 ^ (p.shift + (p.pWidth - 1)) ≤ i.a.toInt * i.b.toInt ∧
      (¬(i.a = BitVec.intMin _ ∧ i.b = BitVec.intMin _) →
        i.a.toInt * i.b.toInt + 2 ^ p.ones ≤ 2 ^ (p.shift + (p.pWidth - 1))) := by
  obtain ⟨hones, -, -, hwidths, ha₀, hb₀⟩ := widths hp
  have hap := hp.aWidth_le_pWidth
  have hbp := hp.bWidth_le_pWidth
  have hpow : (2 : ℤ) ^ (p.shift + (p.pWidth - 1)) =
      2 ^ (p.aWidth - 1) * 2 ^ (p.bWidth - 1) := by
    rw [← pow_add]
    congr 1
    omega
  obtain ⟨ha, ha'⟩ := toInt_bounds i.a
  obtain ⟨hb, hb'⟩ := toInt_bounds i.b
  rw [hpow]
  refine ⟨neg_mul_le ha ha' hb hb', fun hne => ?_⟩
  apply mul_add_le ha ha' hb hb'
  · exact pow_le_pow_right₀ (by norm_num) (by omega)
  · exact pow_le_pow_right₀ (by norm_num) (by omega)
  · rwa [toInt_eq_min_iff (by omega), toInt_eq_min_iff (by omega)]

/-- The product divided by `2 ^ SHIFT`. -/
def quotient (p : Params) (i : Input p) : ℚ :=
  ((i.a.toInt * i.b.toInt : ℤ) : ℚ) / 2 ^ p.shift

section Run

variable (s : State) (i j k : Input p)

/-- Three edges after its inputs, the sum. -/
theorem run_three :
    (run next s [i, j, k]).p =
      p.c + mul (i.a.signExtend 30) (i.b.signExtend 18) :=
  rfl

variable {s i j k}

theorem toInt_sum (hp : p.Fits)
    (hne : ¬(i.a = BitVec.intMin _ ∧ i.b = BitVec.intMin _)) :
    (run next s [i, j, k]).p.toInt =
      i.a.toInt * i.b.toInt + (2 ^ p.ones - 1) := by
  obtain ⟨hlow, hhigh⟩ := product_bounds hp i
  have hhigh := hhigh hne
  obtain ⟨hshift, hones, htop, -⟩ := widths hp
  have hc : p.c.toInt = 2 ^ p.ones - 1 := by
    have hpow : 2 ^ p.ones ≤ 2 ^ 38 := Nat.pow_le_pow_right (by decide) hones
    rw [BitVec.toInt_eq_toNat_of_lt (by rw [toNat_c (by omega)]; omega),
      toNat_c (by omega), Nat.cast_sub Nat.one_le_two_pow]
    push_cast
    rfl
  have hbound : (2 : ℤ) ^ (p.shift + (p.pWidth - 1)) ≤ 2 ^ 41 :=
    pow_le_pow_right₀ (by norm_num) htop
  have hpos : (1 : ℤ) ≤ 2 ^ p.ones := one_le_pow₀ (by norm_num)
  rw [run_three, BitVec.toInt_add, hc, toInt_product hp, add_comm]
  apply Int.bmod_eq_of_le_mul_two <;> push_cast <;> omega

theorem out_eq_nearestOdd (hp : p.Fits)
    (hne : ¬(i.a = BitVec.intMin _ ∧ i.b = BitVec.intMin _)) :
    (out p (run next s [i, j, k])).toInt =
      Rounding.nearestOdd (quotient p i) := by
  obtain ⟨hlow, hhigh⟩ := product_bounds hp i
  have hhigh := hhigh hne
  have hsum := toInt_sum (s := s) (j := j) (k := k) hp hne
  obtain ⟨hshift, -, htop, hwidths, ha₀, hb₀⟩ := widths hp
  have hap := hp.aWidth_le_pWidth
  have hones : p.ones = p.shift - 1 := rfl
  have hpos : (1 : ℤ) ≤ 2 ^ p.ones := one_le_pow₀ (by norm_num)
  rw [out, intPbdWire, patternBDetect_zero, mask_eq_upper hp.two_le_shift,
    toInt_rounded_of_pos (by omega) (by omega) (by omega) hsum (by omega)
      (by omega), roundOdd_eq_nearestOdd, ← hones, hshift, quotient]

theorem toNat_sum (hp : p.Fits)
    (hmin : i.a = BitVec.intMin _ ∧ i.b = BitVec.intMin _) :
    (run next s [i, j, k]).p.toNat =
      2 ^ (p.shift + (p.pWidth - 1)) + (2 ^ p.ones - 1) := by
  obtain ⟨hshift, hones, htop, hwidths, ha₀, hb₀⟩ := widths hp
  have hap := hp.aWidth_le_pWidth
  have hproduct : (mul (i.a.signExtend 30) (i.b.signExtend 18)).toInt =
      ((2 ^ (p.shift + (p.pWidth - 1)) : ℕ) : ℤ) := by
    rw [toInt_product hp, (toInt_eq_min_iff (by omega) i.a).mpr hmin.1,
      (toInt_eq_min_iff (by omega) i.b).mpr hmin.2, neg_mul_neg, ← pow_add]
    push_cast
    congr 1
    omega
  have hbound : 2 ^ (p.shift + (p.pWidth - 1)) ≤ 2 ^ 41 :=
    Nat.pow_le_pow_right (by decide) htop
  have hpow : 2 ^ p.ones ≤ 2 ^ 38 := Nat.pow_le_pow_right (by decide) hones
  have hnat : (mul (i.a.signExtend 30) (i.b.signExtend 18)).toNat =
      2 ^ (p.shift + (p.pWidth - 1)) := by
    have hcases := BitVec.toInt_eq_toNat_cond
      (mul (i.a.signExtend 30) (i.b.signExtend 18))
    rw [hproduct] at hcases
    generalize 2 ^ (p.shift + (p.pWidth - 1)) = top at hcases hbound ⊢
    split at hcases <;> omega
  rw [run_three, BitVec.toNat_add, hnat, toNat_c (by omega)]
  generalize 2 ^ (p.shift + (p.pWidth - 1)) = top at hbound
  omega

theorem out_intMin (hp : p.Fits)
    (hmin : i.a = BitVec.intMin _ ∧ i.b = BitVec.intMin _) :
    (out p (run next s [i, j, k])).toInt = -2 ^ (p.pWidth - 1) := by
  have hsum := toNat_sum (s := s) (j := j) (k := k) hp hmin
  obtain ⟨hshift, -, htop, hwidths, ha₀, hb₀⟩ := widths hp
  have hap := hp.aWidth_le_pWidth
  rw [out, intPbdWire, patternBDetect_zero, mask_eq_upper hp.two_le_shift,
    toInt_rounded_wraps (by omega) (by omega) (by omega) hsum]

end Run

theorem nearestOdd_neg (hp : p.Fits) (v : ℤ) :
    Rounding.nearestOdd (((-v : ℤ) : ℚ) / 2 ^ p.shift) =
      -Rounding.nearestOdd ((v : ℚ) / 2 ^ p.shift) := by
  rw [← (widths hp).1, ← roundOdd_eq_nearestOdd, ← roundOdd_eq_nearestOdd,
    roundOdd_neg]

/-- Three edges after its inputs the output is the quotient, rounded to the
nearest integer and from a tie to the odd neighbour, which always fits; a negated
operand negates it.  Only the two most negative operands wrap. -/
theorem out_rounded (hp : p.Fits) (s : State) (i j k : Input p) :
    (¬(i.a = BitVec.intMin _ ∧ i.b = BitVec.intMin _) →
        (out p (run next s [i, j, k])).toInt =
            Rounding.nearestOdd (quotient p i) ∧
          -2 ^ (p.pWidth - 1) ≤ Rounding.nearestOdd (quotient p i) ∧
          Rounding.nearestOdd (quotient p i) < 2 ^ (p.pWidth - 1)) ∧
      (i.a ≠ BitVec.intMin _ →
        ∀ (s' : State) (i' j' k' : Input p), i'.a = -i.a → i'.b = i.b →
          (out p (run next s' [i', j', k'])).toInt =
            -(out p (run next s [i, j, k])).toInt) ∧
      (i.a = BitVec.intMin _ ∧ i.b = BitVec.intMin _ →
        (out p (run next s [i, j, k])).toInt = -2 ^ (p.pWidth - 1)) := by
  refine ⟨?_, ?_, out_intMin hp⟩
  · intro hne
    have hout := out_eq_nearestOdd (s := s) (j := j) (k := k) hp hne
    obtain ⟨hlow, hhigh⟩ := toInt_bounds (out p (run next s [i, j, k]))
    rw [hout] at hlow hhigh
    exact ⟨hout, hlow, hhigh⟩
  · intro hmin s' i' j' k' ha hb
    have hneg : i'.a.toInt = -i.a.toInt := by
      rw [ha, BitVec.toInt_neg_of_ne_intMin hmin]
    have hmin' : i'.a ≠ BitVec.intMin _ := by
      obtain ⟨-, -, -, -, ha₀, -⟩ := widths hp
      have hbound := (toInt_bounds i.a).2
      intro hbad
      have hlow := (toInt_eq_min_iff (by omega) i'.a).mpr hbad
      omega
    rw [out_eq_nearestOdd hp fun h => hmin' h.1,
      out_eq_nearestOdd hp fun h => hmin h.1, quotient, hneg, hb, neg_mul,
      nearestOdd_neg hp, quotient]

/-- The widths in `cfg_slicer`. -/
theorem fits_cfgSlicer : Params.Fits ⟨15, 16, 16⟩ :=
  ⟨by decide, by decide, by decide, by decide, by decide⟩

/-- At those widths, a tie between 0 and 1. -/
theorem out_rounded_tie :
    let p : Params := ⟨15, 16, 16⟩
    let i : Input p := ⟨64, 128⟩
    ¬(i.a = BitVec.intMin _ ∧ i.b = BitVec.intMin _) ∧
      quotient p i = 1 / 2 ∧
      (out p (run next ⟨0, 0, 0, 0⟩ [i, i, i])).toInt =
        Rounding.nearestOdd (quotient p i) := by
  intro p i
  have hne : ¬(i.a = BitVec.intMin _ ∧ i.b = BitVec.intMin _) := by decide
  refine ⟨hne, ?_, ((out_rounded fits_cfgSlicer ⟨0, 0, 0, 0⟩ i i i).1 hne).1⟩
  have hproduct : i.a.toInt * i.b.toInt = 8192 := by decide
  have hshift : p.shift = 14 := rfl
  rw [quotient, hproduct, hshift]
  norm_num

end RedPitayaNotes.Dsp48Core
