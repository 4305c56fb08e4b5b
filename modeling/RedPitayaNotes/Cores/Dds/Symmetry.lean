import Mathlib.Data.BitVec
import Mathlib.Data.List.GetD
import Mathlib.Tactic.Ring
import RedPitayaNotes.Cores.Dds.Model

/-!
# The quadrants of the dds core

Over the integers: no register of the core is too small for what it holds, and
a quarter of a turn takes cosine and sine to minus sine and cosine, rounding
included.
-/

namespace RedPitayaNotes.Dds

open Bits Clocked Dsp48

/-! ## The table -/

theorem ddsMem_getD_fits {k : ℕ} (hk : k < 2048) :
    fits (ddsMem.getD k 0) (ddsMem.getD (2047 - k) 0) = true := by
  have hlen := length_ddsMem
  have hall := List.all_eq_true.mp ddsMem_fits
  have hzip : k < (List.zipWith fits ddsMem ddsMem.reverse).length := by
    simp only [List.length_zipWith, List.length_reverse, hlen]
    omega
  have hmem := hall _ (List.getElem_mem hzip)
  rw [List.getElem_zipWith, List.getElem_reverse] at hmem
  rw [List.getD_eq_getElem _ _ (by omega), List.getD_eq_getElem _ _ (by omega)]
  simpa only [hlen] using hmem

/-- The words are not zero, and small enough for the correction. -/
theorem word_fits (addr : BitVec 11) :
    0 < (word addr).toNat ∧
      (word addr).toNat * 2 ^ 24 + (word (~~~addr)).toNat * 8192 + 2 ^ 23 <
        2 ^ 47 := by
  have hfits := ddsMem_getD_fits addr.isLt
  have hfits' := ddsMem_getD_fits (~~~addr).isLt
  simp only [fits, Bool.and_eq_true, decide_eq_true_eq] at hfits hfits'
  obtain ⟨⟨hpos, hlt⟩, hsum⟩ := hfits
  have hnot : (~~~addr).toNat = 2047 - addr.toNat := by
    rw [BitVec.toNat_not]
  rw [hnot] at hfits'
  rw [word, word, BitVec.toNat_ofNat, BitVec.toNat_ofNat, hnot,
    Nat.mod_eq_of_lt hlt, Nat.mod_eq_of_lt hfits'.1.2]
  exact ⟨hpos, hsum⟩

/-! ## The ports -/

/-- A word of the table and its sign. -/
def value (sign : Bool) (lut : BitVec 23) : ℤ :=
  if sign then -lut.toNat else lut.toNat

/-- The negation in two parts is right for words that are not zero. -/
theorem toInt_signed (sign : Bool) {lut : BitVec 23} (h : 0 < lut.toNat) :
    ((signed sign lut).setWidth 25).toInt = value sign lut ∧
      ((signed sign lut).setWidth 24).toInt = value sign lut := by
  have hlt := lut.isLt
  cases sign <;>
    simp only [signed, value, BitVec.toInt_eq_toNat_cond, BitVec.toNat_setWidth,
      toNat_append_eq_add, BitVec.toNat_neg, BitVec.toNat_ofNat,
      Bool.false_eq_true, if_false, if_true] <;>
    omega

/-- Port A of `dsp_0` as a signed number. -/
theorem toInt_fine (phase : BitVec 32) :
    ((fine phase).setWidth 25).toInt = phase.toNat % 2 ^ 19 - 2 ^ 18 := by
  have hbit : phase.getLsbD 18 = decide (phase.toNat / 2 ^ 18 % 2 = 1) := by
    rw [BitVec.getLsbD, Nat.testBit_eq_decide_div_mod_eq]
  rw [fine, BitVec.toInt_eq_toNat_cond, BitVec.toNat_setWidth,
    toNat_append_eq_add, BitVec.extractLsb'_toNat, Nat.shiftRight_zero, hbit]
  split_ifs with hhigh hsign hsign <;> rw [decide_eq_true_eq] at hhigh <;>
    simp only [BitVec.toNat_allOnes, BitVec.toNat_ofNat] at * <;>
    omega

/-! ## The correction -/

/-- The phase within a step of the table, from its middle. -/
def offset (phase : BitVec 32) : ℤ := phase.toNat % 2 ^ 19 - 2 ^ 18

/-- What `dsp_0` computes: the offset times a quarter of a turn, rounded. -/
def correction (phase : BitVec 32) : ℤ := roundOdd 16 (offset phase * 3217)

theorem correction_bounds (phase : BitVec 32) :
    -8192 ≤ correction phase ∧ correction phase ≤ 8192 := by
  simp only [correction, roundOdd, offset]
  split_ifs <;> omega

theorem toInt_corr (phase : BitVec 32) :
    (corr phase).toInt = correction phase := by
  have hmul : (mul (fine phase) 3217).toInt = offset phase * 3217 := by
    rw [toInt_mul, toInt_fine]
    rfl
  have hoffset : -2 ^ 18 ≤ offset phase ∧ offset phase < 2 ^ 18 := by
    unfold offset
    omega
  have hsum : ((0xffff : BitVec 48) + mul (fine phase) 3217).toInt =
      offset phase * 3217 + (2 ^ 16 - 1) := by
    have hconst : (0xffff : BitVec 48).toInt = 2 ^ 16 - 1 := by decide
    rw [BitVec.toInt_add, hmul, hconst, Int.bmod_eq_of_le_mul_two] <;> omega
  exact toInt_rounded (n := 16) (k := 16) (by decide) hsum (by omega) (by omega)

/-! ## The sums -/

/-- The words of the table with their signs. -/
def cosValue (phase : BitVec 32) : ℤ :=
  let addr := phase.extractLsb' 19 11
  value (phase.getLsbD 31 ^^ phase.getLsbD 30)
    (word (if phase.getLsbD 30 then ~~~addr else addr))

def sinValue (phase : BitVec 32) : ℤ :=
  let addr := phase.extractLsb' 19 11
  value (phase.getLsbD 31)
    (word (if phase.getLsbD 30 then addr else ~~~addr))

/-- The cosine and the sine before the last rounding, in units of `2 ^ -24`. -/
def exactCos (phase : BitVec 32) : ℤ :=
  cosValue phase * 2 ^ 24 - sinValue phase * correction phase

def exactSin (phase : BitVec 32) : ℤ :=
  sinValue phase * 2 ^ 24 + cosValue phase * correction phase

theorem toInt_coarse (phase : BitVec 32) :
    ((coarseCos phase).setWidth 25).toInt = cosValue phase ∧
      ((coarseCos phase).setWidth 24).toInt = cosValue phase ∧
      ((coarseSin phase).setWidth 25).toInt = sinValue phase ∧
      ((coarseSin phase).setWidth 24).toInt = sinValue phase := by
  obtain ⟨hcos, hcos'⟩ := toInt_signed (phase.getLsbD 31 ^^ phase.getLsbD 30)
    (word_fits (if phase.getLsbD 30 then ~~~phase.extractLsb' 19 11
      else phase.extractLsb' 19 11)).1
  obtain ⟨hsin, hsin'⟩ := toInt_signed (phase.getLsbD 31)
    (word_fits (if phase.getLsbD 30 then phase.extractLsb' 19 11
      else ~~~phase.extractLsb' 19 11)).1
  exact ⟨hcos, hcos', hsin, hsin'⟩

theorem abs_value (sign : Bool) (lut : BitVec 23) :
    |value sign lut| = lut.toNat := by
  cases sign with
  | false => exact abs_of_nonneg (Int.natCast_nonneg _)
  | true => exact (abs_neg _).trans (abs_of_nonneg (Int.natCast_nonneg _))

/-- The two words of a phase leave room for the correction of each. -/
theorem abs_values_lt (phase : BitVec 32) :
    |cosValue phase| * 2 ^ 24 + |sinValue phase| * 8192 + 2 ^ 23 < 2 ^ 47 ∧
      |sinValue phase| * 2 ^ 24 + |cosValue phase| * 8192 + 2 ^ 23 <
        2 ^ 47 := by
  have hfits := (word_fits (phase.extractLsb' 19 11)).2
  have hfits' := (word_fits (~~~phase.extractLsb' 19 11)).2
  rw [BitVec.not_not] at hfits'
  simp only [cosValue, sinValue, abs_value]
  split_ifs <;> omega

theorem abs_sub_mul_lt {c d k : ℤ} (h : |c| * 2 ^ 24 + |d| * 8192 + 2 ^ 23 < 2 ^ 47)
    (hk : |k| ≤ 8192) : |c * 2 ^ 24 + d * k| + 2 ^ 23 < 2 ^ 47 := by
  have hdk : |d * k| ≤ |d| * 8192 := by
    rw [abs_mul]
    exact mul_le_mul_of_nonneg_left hk (abs_nonneg d)
  have hc : |c * 2 ^ 24| = |c| * 2 ^ 24 := abs_mul c _
  have hsum := abs_add_le (c * 2 ^ 24) (d * k)
  omega

theorem toInt_sums (phase : BitVec 32) :
    (sumCos phase).toInt = exactCos phase + (2 ^ 23 - 1) ∧
      (sumSin phase).toInt = exactSin phase + (2 ^ 23 - 1) := by
  obtain ⟨hcos, hcos', hsin, hsin'⟩ := toInt_coarse phase
  obtain ⟨hfits, hfits'⟩ := abs_values_lt phase
  have hk : |correction phase| ≤ 8192 := abs_le.mpr (correction_bounds phase)
  have hcosine := abs_lt.mp
    (lt_sub_iff_add_lt.mpr (abs_sub_mul_lt hfits ((abs_neg _).trans_le hk)))
  have hsine := abs_lt.mp (lt_sub_iff_add_lt.mpr (abs_sub_mul_lt hfits' hk))
  have hport : ∀ x : BitVec 24,
      (x ++ 0x7fffff#24).toInt = x.toInt * 2 ^ 24 + (2 ^ 23 - 1) := by
    intro x
    rw [BitVec.toInt_append, if_neg (by decide)]
    have hones : ((0x7fffff#24).toNat : ℤ) = 2 ^ 23 - 1 := by decide
    rw [hones, mul_comm]
  rw [mul_neg, ← sub_eq_add_neg] at hcosine
  constructor
  · rw [sumCos, BitVec.toInt_sub, hport, toInt_mul, toInt_corr, hcos', hsin,
      exactCos, Int.bmod_eq_of_le_mul_two] <;> omega
  · rw [sumSin, BitVec.toInt_add, hport, toInt_mul, toInt_corr, hsin', hcos,
      exactSin, Int.bmod_eq_of_le_mul_two] <;> omega

theorem toInt_doutHalf {p : BitVec 48} {v : ℤ} (h : p.toInt = v + (2 ^ 23 - 1)) :
    (doutHalf p).toInt = roundOdd 23 v :=
  toInt_rounded (n := 23) (k := 22) (by decide) h p.le_toInt p.toInt_lt

/-! ## A quarter of a turn -/

/-- The phase a quarter of a turn later. -/
theorem quarter_bits (phase : BitVec 32) :
    (phase + 2 ^ 30).extractLsb' 19 11 = phase.extractLsb' 19 11 ∧
      (phase + 2 ^ 30).getLsbD 30 = !phase.getLsbD 30 ∧
      (phase + 2 ^ 30).getLsbD 31 =
        (phase.getLsbD 31 ^^ phase.getLsbD 30) ∧
      offset (phase + 2 ^ 30) = offset phase := by
  have hbit : ∀ (x : BitVec 32) (k : ℕ),
      x.getLsbD k = decide (x.toNat / 2 ^ k % 2 = 1) := by
    intro x k
    rw [BitVec.getLsbD, Nat.testBit_eq_decide_div_mod_eq]
  have hsum : (phase + 2 ^ 30).toNat = (phase.toNat + 2 ^ 30) % 2 ^ 32 :=
    BitVec.toNat_add _ _
  have hlt := phase.isLt
  refine ⟨?_, ?_, ?_, ?_⟩
  · apply BitVec.eq_of_toNat_eq
    rw [BitVec.extractLsb'_toNat, BitVec.extractLsb'_toNat, hsum,
      Nat.shiftRight_eq_div_pow, Nat.shiftRight_eq_div_pow]
    omega
  · rw [hbit, hbit, hsum, ← decide_not, decide_eq_decide]
    omega
  · rw [hbit, hbit, hbit, hsum]
    by_cases h30 : phase.toNat / 2 ^ 30 % 2 = 1 <;>
      by_cases h31 : phase.toNat / 2 ^ 31 % 2 = 1 <;>
      simp only [h30, h31, decide_true, decide_false, Bool.xor_true,
        Bool.xor_false, Bool.not_true, Bool.not_false, decide_eq_true_eq,
        decide_eq_false_iff_not] <;>
      omega
  · rw [offset, offset, hsum]
    omega

theorem value_not (sign : Bool) (lut : BitVec 23) :
    value (!sign) lut = -value sign lut := by
  cases sign with
  | false => rfl
  | true => exact (neg_neg _).symm

theorem cosValue_quarter (phase : BitVec 32) :
    cosValue (phase + 2 ^ 30) = -sinValue phase := by
  obtain ⟨haddr, h30, h31, -⟩ := quarter_bits phase
  rw [sinValue, ← value_not, cosValue, haddr, h30, h31]
  cases phase.getLsbD 30 <;> cases phase.getLsbD 31 <;> rfl

theorem sinValue_quarter (phase : BitVec 32) :
    sinValue (phase + 2 ^ 30) = cosValue phase := by
  obtain ⟨haddr, h30, h31, -⟩ := quarter_bits phase
  rw [sinValue, cosValue, haddr, h30, h31]
  cases phase.getLsbD 30 <;> rfl

theorem exact_quarter (phase : BitVec 32) :
    exactCos (phase + 2 ^ 30) = -exactSin phase ∧
      exactSin (phase + 2 ^ 30) = exactCos phase := by
  have hcorr : correction (phase + 2 ^ 30) = correction phase := by
    rw [correction, correction, (quarter_bits phase).2.2.2]
  constructor
  · rw [exactCos, exactSin, cosValue_quarter, sinValue_quarter, hcorr]
    ring
  · rw [exactCos, exactSin, cosValue_quarter, sinValue_quarter, hcorr]
    ring

/-- What `dout` shows six cycles after a phase is its exact cosine and sine,
rounded. -/
theorem toInt_dout (negativeSine : Bool) (s : State)
    {pincs : List (BitVec 32)} (h : pincs.length = 6) :
    (cos (run (next negativeSine) s pincs)).toInt =
        roundOdd 23 (exactCos s.intCntrReg) ∧
      (sin (run (next negativeSine) s pincs)).toInt =
        roundOdd 23 (exactSin s.intCntrReg) := by
  obtain ⟨hcos, hsin⟩ := toInt_sums s.intCntrReg
  rw [cos, sin, dout_run_six negativeSine s h]
  constructor
  · rw [← toInt_doutHalf hcos,
      BitVec.extractLsb'_append_eq_of_add_le (by decide),
      BitVec.extractLsb'_eq_self]
  · rw [← toInt_doutHalf hsin, BitVec.extractLsb'_append_eq_of_le (by decide),
      Nat.sub_self, BitVec.extractLsb'_eq_self]

/-- A quarter of a turn takes cosine and sine exactly to minus sine and cosine,
and both are the exact values, rounded: nothing wraps. -/
theorem quarter_turn (negativeSine negativeSine' : Bool) {s s' : State}
    (hphase : s'.intCntrReg = s.intCntrReg + 2 ^ 30)
    {pincs pincs' : List (BitVec 32)} (h : pincs.length = 6)
    (h' : pincs'.length = 6) :
    let t := run (next negativeSine) s pincs
    let t' := run (next negativeSine') s' pincs'
    (cos t').toInt = -(sin t).toInt ∧ (sin t').toInt = (cos t).toInt ∧
      (cos t).toInt = roundOdd 23 (exactCos s.intCntrReg) ∧
      (sin t).toInt = roundOdd 23 (exactSin s.intCntrReg) := by
  intro t t'
  obtain ⟨hcos, hsin⟩ := toInt_dout negativeSine s h
  obtain ⟨hcos', hsin'⟩ := toInt_dout negativeSine' s' h'
  obtain ⟨hexact, hexact'⟩ := exact_quarter s.intCntrReg
  rw [hphase, hexact, roundOdd_neg] at hcos'
  rw [hphase, hexact'] at hsin'
  exact ⟨hcos'.trans (congrArg _ hsin.symm), hsin'.trans hcos.symm, hcos, hsin⟩

/-- The first and the second quadrant, from cleared registers. -/
theorem quarter_turn_zero :
    let s : BitVec 32 → State := fun cntr =>
      ⟨cntr, 0, 0, 0, 0, 0, 0, ⟨0, 0, 0, 0⟩, ⟨0, 0, 0⟩, ⟨0, 0, 0, 0, 0⟩,
        ⟨0, 0, 0, 0, 0⟩⟩
    let t := run (next false) (s 0) (List.replicate 6 5)
    let t' := run (next true) (s (2 ^ 30)) (List.replicate 6 7)
    ((cos t').toInt = -(sin t).toInt ∧ (sin t').toInt = (cos t).toInt ∧
      (cos t).toInt = roundOdd 23 (exactCos 0) ∧
      (sin t).toInt = roundOdd 23 (exactSin 0)) ∧
      (cos t).toInt = 0x7ffffe ∧ (sin t).toInt = 0 := by
  refine ⟨quarter_turn false true (by decide) rfl rfl, ?_, ?_⟩
  · decide +kernel
  · decide +kernel

end RedPitayaNotes.Dds
