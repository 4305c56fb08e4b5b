import Mathlib.Tactic.Positivity
import RedPitayaNotes.Patches.Si5351.Registers
import RedPitayaNotes.Support.Rounding

/-!
# The settings of the Si5351 for a frequency

`si5351_Calc` of `patches/red_pitaya_fsbl_hooks.c` looks for the two ratios that
make a frequency of the reference.  Up to 81 MHz the first ratio is fixed and
the second one divides a PLL frequency of 900 MHz, which is that of a reference
of 25 MHz.  From 81 MHz on both are made for the reference that there is.
-/

namespace RedPitayaNotes.Si5351

/-! ## si5351_Calc -/

/-- `XREF_FREQ` -/
def xrefFreq : U32 := 24576000

/-- `(u32)((((double)Fclk)/100000000.0)*((double)si5351Correction))` -/
def correctionOf (si5351Correction fclk : U32) : U32 :=
  BitVec.ofInt 32
    ⌊Rounding.double (Rounding.double (fclk.toNat / 100000000) *
      si5351Correction.toNat)⌋

/-- The range of the function. -/
def clamped (fclk : U32) : U32 :=
  if fclk < 8000 then 8000 else if fclk > 160000000 then 160000000 else fclk

/-- Low frequencies are made 64 times higher and divided at the end. -/
def scaled (fclk : U32) : U32 × RDiv :=
  if fclk < 1000000 then (fclk * 64, .div64) else (fclk, .div1)

/-- The branch below 81 MHz. -/
def lowConfig (fclk : U32) (rdiv : RDiv) : PllConfig × OutputConfig :=
  let fpll : U32 := 900000000
  let x := fpll / fclk
  let t := (fclk >>> 20) + 1
  let y := (fpll % fclk) / t
  let z := fclk / t
  (⟨36, 0, 1⟩, ⟨1, x, y, z, rdiv⟩)

/-- The divider of the branch from 81 MHz on. -/
def highDiv (fclk : U32) : U32 :=
  if fclk ≥ 150000000 then 4 else if fclk ≥ 100000000 then 6 else 8

/-- The branch from 81 MHz on. -/
def highConfig (fclk : U32) (rdiv : RDiv) : PllConfig × OutputConfig :=
  let fxtal := xrefFreq
  let x := highDiv fclk
  let numerator := x * fclk
  let a := numerator / fxtal
  let t := (fxtal >>> 20) + 1
  let b := (numerator % fxtal) / t
  let c := fxtal / t
  (⟨a, b, c⟩, ⟨1, x, 0, 1, rdiv⟩)

def si5351Calc (si5351Correction fclk : U32) : PllConfig × OutputConfig :=
  let (fclk, rdiv) := scaled (clamped fclk)
  let fclk := fclk - correctionOf si5351Correction fclk
  if fclk < 81000000 then lowConfig fclk rdiv
  else highConfig fclk rdiv

/-! ## What it promises -/

/-- `a + b / c` -/
def PllConfig.ratio (conf : PllConfig) : ℚ :=
  conf.mult.toNat + (conf.num.toNat : ℚ) / conf.denom.toNat

/-- `x + y / z` -/
def OutputConfig.ratio (conf : OutputConfig) : ℚ :=
  conf.div.toNat + (conf.num.toNat : ℚ) / conf.denom.toNat

/-- The frequency of the output. -/
def frequency (conf : PllConfig × OutputConfig) : ℚ :=
  xrefFreq.toNat * conf.1.ratio /
    (conf.2.ratio * 2 ^ conf.2.rdiv.code.toNat)

/-- The product is one of the integers. -/
def Exact (x y : U32) : Prop := (x * y).toNat = x.toNat * y.toNat

/-- The settings can be written, and the registers mean them. -/
structure Written (conf : PllConfig × OutputConfig) : Prop where
  pll_denom : conf.1.denom ≠ 0
  output_denom : conf.2.denom ≠ 0
  pll_products : Exact 128 conf.1.mult ∧ Exact 128 conf.1.num
  output_products : Exact 128 conf.2.div ∧ Exact 128 conf.2.num
  pll_fits : (pllParameters conf.1).Fits
  output_fits : (outputParameters conf.2).Fits
  pll_decoded : ∀ {σ : Type} (iic : Iic σ) (pll : Pll) (s : σ),
    (setupPll iic pll conf.1 s).2 = xstSuccess →
      (fields (iic.registers (setupPll iic pll conf.1 s).1)
        (pllBaseaddr pll)).ratio = conf.1.ratio
  output_decoded : ∀ {σ : Type} (iic : Iic σ) (output : U8) (pll : Pll)
    (drive : DriveStrength) (phase : U8) (s : σ),
    (setupOutput iic output pll drive conf.2 phase s).2 = xstSuccess →
      (fields (iic.registers (setupOutput iic output pll drive conf.2 phase s).1)
          (outputRegisters output).1).ratio = conf.2.ratio ∧
        (fields (iic.registers
            (setupOutput iic output pll drive conf.2 phase s).1)
          (outputRegisters output).1).rDivisor = 2 ^ conf.2.rdiv.code.toNat

/-- What the comments of the driver say of a frequency in its range. -/
structure Promise (fclk : U32) : Prop where
  scaled_exact : fclk < 1000000 → Exact fclk 64
  numerator_exact : ¬(scaled fclk).1 < 81000000 →
    Exact (highDiv (scaled fclk).1) (scaled fclk).1
  written : Written (si5351Calc 0 fclk)
  accurate : |frequency (si5351Calc 0 fclk) - fclk.toNat| ≤ 6

/-! ## Settings that can be written -/

theorem Written.of_encodable {conf : PllConfig × OutputConfig}
    (hpll : Encodable conf.1.mult conf.1.num conf.1.denom)
    (houtput : Encodable conf.2.div conf.2.num conf.2.denom)
    (hdiv : conf.2.div = 4 → conf.2.num = 0) : Written conf := by
  have hne : ∀ {c : U32}, 0 < c.toNat → c ≠ 0 := by
    rintro c hpos rfl
    exact absurd hpos (lt_irrefl 0)
  have hoptions : conf.2.div = 4 ∧ conf.2.num = 0 ∨
      conf.2.div ≠ 4 ∧ Encodable conf.2.div conf.2.num conf.2.denom := by
    by_cases h4 : conf.2.div = 4
    · exact Or.inl ⟨h4, hdiv h4⟩
    · exact Or.inr ⟨h4, houtput⟩
  refine ⟨hne hpll.denom_pos, hne houtput.denom_pos, hpll.toNat_products,
    houtput.toNat_products, hpll.fits, ?_, ?_, ?_⟩
  · rw [outputParameters]
    split
    next => exact ⟨by decide, by decide, by decide⟩
    next => exact houtput.fits
  · intro σ iic pll s hok
    exact setupPll_ratio iic hpll hok
  · intro σ iic output pll drive phase s hok
    exact ⟨setupOutput_ratio iic hoptions hok, setupOutput_rDivisor iic hok⟩

/-! ## The frequency that is looked for -/

theorem correctionOf_zero (fclk : U32) : correctionOf 0 fclk = 0 := by
  have h0 : (0 : U32).toNat = 0 := rfl
  rw [correctionOf, h0, Nat.cast_zero, mul_zero, Rounding.double,
    Rounding.roundSig_zero, Int.floor_zero]
  rfl

theorem clamped_of_mem {fclk : U32} (hlow : 8000 ≤ fclk.toNat)
    (hhigh : fclk.toNat ≤ 160000000) : clamped fclk = fclk := by
  have h₁ : ¬fclk < 8000 := BitVec.not_lt.mpr hlow
  have h₂ : ¬fclk > 160000000 := BitVec.not_lt.mpr hhigh
  rw [clamped, if_neg h₁, if_neg h₂]

theorem si5351Calc_of_mem {fclk : U32} (hlow : 8000 ≤ fclk.toNat)
    (hhigh : fclk.toNat ≤ 160000000) :
    si5351Calc 0 fclk =
      if (scaled fclk).1 < 81000000 then
        lowConfig (scaled fclk).1 (scaled fclk).2
      else highConfig (scaled fclk).1 (scaled fclk).2 := by
  have hsub : ∀ x : U32, x - 0 = x := BitVec.sub_zero
  rw [si5351Calc, clamped_of_mem hlow hhigh]
  simp only [correctionOf_zero, hsub]

/-- Either the frequency is made 64 times higher, and all of it is kept, or it
is taken as it is. -/
theorem scaled_cases (fclk : U32) :
    fclk.toNat < 1000000 ∧ (scaled fclk).1.toNat = fclk.toNat * 64 ∧
        (scaled fclk).2 = .div64 ∨
      1000000 ≤ fclk.toNat ∧ scaled fclk = (fclk, .div1) := by
  by_cases hsmall : fclk < 1000000
  · have hlt : fclk.toNat < 1000000 := hsmall
    have h64 : (64 : U32).toNat = 64 := rfl
    rw [scaled, if_pos hsmall, BitVec.toNat_mul, h64,
      Nat.mod_eq_of_lt (by omega)]
    exact Or.inl ⟨hlt, rfl, rfl⟩
  · rw [scaled, if_neg hsmall]
    exact Or.inr ⟨BitVec.not_lt.mp hsmall, rfl⟩

/-! ## Below 81 MHz -/

/-- A fraction whose two terms have been divided by `t`, the denominator rounded
down. -/
theorem mul_div_le_div_mul (m : ℕ) {n t : ℕ} (hpos : 0 < n / t) :
    ((t : ℕ) * (m / t : ℕ) : ℚ) ≤ (m / t : ℕ) / (n / t : ℕ) * n := by
  have hcast : (t * (n / t : ℕ) : ℚ) ≤ n := by
    exact_mod_cast Nat.mul_div_le n t
  have hne : ((n / t : ℕ) : ℚ) ≠ 0 := Nat.cast_ne_zero.mpr hpos.ne'
  calc (t * (m / t : ℕ) : ℚ)
      = (m / t : ℕ) / (n / t : ℕ) * (t * (n / t : ℕ)) := by
        field_simp
    _ ≤ (m / t : ℕ) / (n / t : ℕ) * n :=
        mul_le_mul_of_nonneg_left hcast (by positivity)

section Low

variable {fclk : U32} (hlow : 512000 ≤ fclk.toNat)
  (hhigh : fclk.toNat < 81000000) (rdiv : RDiv)

include hlow hhigh

theorem toNat_lowConfig :
    let t := fclk.toNat / 2 ^ 20 + 1
    (lowConfig fclk rdiv).2.div.toNat = 900000000 / fclk.toNat ∧
      (lowConfig fclk rdiv).2.num.toNat = 900000000 % fclk.toNat / t ∧
      (lowConfig fclk rdiv).2.denom.toNat = fclk.toNat / t := by
  have h900 : (900000000 : U32).toNat = 900000000 := rfl
  have h1 : (1 : U32).toNat = 1 := rfl
  have ht : ((fclk >>> 20) + 1).toNat = fclk.toNat / 2 ^ 20 + 1 := by
    rw [BitVec.toNat_add, BitVec.toNat_ushiftRight, Nat.shiftRight_eq_div_pow,
      h1, Nat.mod_eq_of_lt (by omega)]
  refine ⟨?_, ?_, ?_⟩
  · rw [lowConfig, BitVec.toNat_udiv, h900]
  · rw [lowConfig, BitVec.toNat_udiv, BitVec.toNat_umod, ht, h900]
  · rw [lowConfig, BitVec.toNat_udiv, ht]

theorem lowConfig_div_bounds :
    11 ≤ 900000000 / fclk.toNat ∧ 900000000 / fclk.toNat ≤ 1757 := by
  have hpos : 0 < fclk.toNat := by omega
  constructor
  · rw [Nat.le_div_iff_mul_le hpos]
    omega
  · rw [← Nat.lt_succ_iff, Nat.div_lt_iff_lt_mul hpos]
    omega

theorem lowConfig_encodable :
    Encodable (lowConfig fclk rdiv).2.div (lowConfig fclk rdiv).2.num
      (lowConfig fclk rdiv).2.denom := by
  obtain ⟨hdiv, hnum, hdenom⟩ := toNat_lowConfig hlow hhigh rdiv
  obtain ⟨h11, h1757⟩ := lowConfig_div_bounds hlow hhigh
  have hpos : 0 < fclk.toNat := by omega
  refine ⟨?_, ?_, ?_, ?_, ?_⟩
  · omega
  · omega
  · rw [hnum, hdenom]
    exact Nat.div_le_div_right (Nat.mod_lt _ hpos).le
  · rw [hdenom]
    exact Nat.div_pos (by omega) (Nat.succ_pos _)
  · rw [hdenom, Nat.div_lt_iff_lt_mul (Nat.succ_pos _)]
    exact Nat.lt_mul_div_succ fclk.toNat (Nat.two_pow_pos 20)

theorem lowConfig_written : Written (lowConfig fclk rdiv) := by
  obtain ⟨hdiv, -, -⟩ := toNat_lowConfig hlow hhigh rdiv
  obtain ⟨h11, -⟩ := lowConfig_div_bounds hlow hhigh
  apply Written.of_encodable
  · have hpll : Encodable 36 0 1 :=
      ⟨by decide, by decide, by decide, by decide, by decide⟩
    exact hpll
  · exact lowConfig_encodable hlow hhigh rdiv
  · intro h4
    rw [h4] at hdiv
    have hfour : (4 : U32).toNat = 4 := rfl
    omega

theorem lowConfig_ratio_le : (lowConfig fclk rdiv).2.ratio ≤ 1758 := by
  obtain ⟨hdiv, -, -⟩ := toNat_lowConfig hlow hhigh rdiv
  obtain ⟨-, h1757⟩ := lowConfig_div_bounds hlow hhigh
  have henc := lowConfig_encodable hlow hhigh rdiv
  have hone : ((lowConfig fclk rdiv).2.num.toNat : ℚ) /
      (lowConfig fclk rdiv).2.denom.toNat ≤ 1 := by
    rw [div_le_one (Nat.cast_pos.mpr henc.denom_pos)]
    exact_mod_cast henc.num_le
  have hcast : ((lowConfig fclk rdiv).2.div.toNat : ℚ) ≤ 1757 := by
    rw [hdiv]
    exact_mod_cast h1757
  rw [OutputConfig.ratio]
  linarith

/-- The second ratio divides 900 MHz, but for the rest of a division by `t`. -/
theorem le_lowConfig_ratio :
    899999923 ≤ (lowConfig fclk rdiv).2.ratio * fclk.toNat := by
  obtain ⟨hdiv, hnum, hdenom⟩ := toNat_lowConfig hlow hhigh rdiv
  have hpos := (lowConfig_encodable hlow hhigh rdiv).denom_pos
  rw [hdenom] at hpos
  rw [OutputConfig.ratio, hdiv, hnum, hdenom, add_mul]
  have hpart := mul_div_le_div_mul (900000000 % fclk.toNat) hpos
  have hsum := Nat.div_add_mod 900000000 fclk.toNat
  have hrest := Nat.div_add_mod (900000000 % fclk.toNat)
    (fclk.toNat / 2 ^ 20 + 1)
  have hlt : 900000000 % fclk.toNat % (fclk.toNat / 2 ^ 20 + 1) <
      fclk.toNat / 2 ^ 20 + 1 := Nat.mod_lt _ (Nat.succ_pos _)
  have hlower : 899999923 ≤ fclk.toNat * (900000000 / fclk.toNat) +
      (fclk.toNat / 2 ^ 20 + 1) *
        (900000000 % fclk.toNat / (fclk.toNat / 2 ^ 20 + 1)) := by
    omega
  have hcast : (899999923 : ℚ) ≤
      fclk.toNat * (900000000 / fclk.toNat : ℕ) +
        (fclk.toNat / 2 ^ 20 + 1 : ℕ) *
          (900000000 % fclk.toNat / (fclk.toNat / 2 ^ 20 + 1) : ℕ) := by
    exact_mod_cast hlower
  linarith

/-- The frequency is too low, by 1.7 percent. -/
theorem lowConfig_frequency_lt {r : ℕ} (hr : 2 ^ rdiv.code.toNat = r)
    (hrpos : 0 < r) (hr64 : r ≤ 64) :
    frequency (lowConfig fclk rdiv) < fclk.toNat / r - 6 := by
  have hlower := le_lowConfig_ratio hlow hhigh rdiv
  have hupper := lowConfig_ratio_le hlow hhigh rdiv
  have hpll : (lowConfig fclk rdiv).1.ratio = 36 := by
    change (36 : ℚ) + 0 / 1 = 36
    norm_num
  have hxref : (xrefFreq.toNat : ℚ) = 24576000 := rfl
  have hrdiv : (2 : ℚ) ^ (lowConfig fclk rdiv).2.rdiv.code.toNat = r := by
    exact_mod_cast hr
  have hfclk : (0 : ℚ) < fclk.toNat := by
    have hpos : 0 < fclk.toNat := by omega
    exact_mod_cast hpos
  have hr0 : (0 : ℚ) < r := Nat.cast_pos.mpr hrpos
  have hr' : (r : ℚ) ≤ 64 := by exact_mod_cast hr64
  rw [frequency, hpll, hxref, hrdiv]
  generalize (lowConfig fclk rdiv).2.ratio = m at hlower hupper
  have hm : 0 < m := by
    by_contra hneg
    have h := mul_nonpos_of_nonpos_of_nonneg (not_lt.mp hneg) hfclk.le
    linarith
  have hprod : m * r ≤ 1758 * 64 :=
    mul_le_mul hupper hr' hr0.le (by norm_num)
  rw [div_lt_iff₀ (mul_pos hm hr0)]
  have hexpand : (fclk.toNat / r - 6) * (m * r) = m * fclk.toNat - 6 * (m * r) := by
    field_simp
  rw [hexpand]
  linarith

end Low

/-! ## From 81 MHz on -/

section High

variable {fclk : U32} (hlow : 81000000 ≤ fclk.toNat)
  (hhigh : fclk.toNat ≤ 160000000) (rdiv : RDiv)

include hlow hhigh

/-- The PLL frequency is between 600 MHz and 900 MHz. -/
theorem highDiv_bounds :
    4 ≤ (highDiv fclk).toNat ∧ (highDiv fclk).toNat ≤ 8 ∧
      600000000 ≤ (highDiv fclk).toNat * fclk.toNat ∧
      (highDiv fclk).toNat * fclk.toNat ≤ 900000000 := by
  have h4 : (4 : U32).toNat = 4 := rfl
  have h6 : (6 : U32).toNat = 6 := rfl
  have h8 : (8 : U32).toNat = 8 := rfl
  by_cases h150 : fclk ≥ 150000000
  · have hge : 150000000 ≤ fclk.toNat := h150
    rw [highDiv, if_pos h150, h4]
    omega
  · have hlt : fclk.toNat < 150000000 := BitVec.not_le.mp h150
    rw [highDiv, if_neg h150]
    by_cases h100 : fclk ≥ 100000000
    · have hge : 100000000 ≤ fclk.toNat := h100
      rw [if_pos h100, h6]
      omega
    · have hlt' : fclk.toNat < 100000000 := BitVec.not_le.mp h100
      rw [if_neg h100, h8]
      omega

theorem highConfig_exact : Exact (highDiv fclk) fclk := by
  obtain ⟨-, -, -, hle⟩ := highDiv_bounds hlow hhigh
  rw [Exact, BitVec.toNat_mul, Nat.mod_eq_of_lt (by omega)]

theorem toNat_highConfig :
    let numerator := (highDiv fclk).toNat * fclk.toNat
    (highConfig fclk rdiv).1.mult.toNat = numerator / 24576000 ∧
      (highConfig fclk rdiv).1.num.toNat = numerator % 24576000 / 24 ∧
      (highConfig fclk rdiv).1.denom.toNat = 1024000 := by
  have hnumerator : (highDiv fclk * fclk).toNat = _ := highConfig_exact hlow hhigh
  have hxref : xrefFreq.toNat = 24576000 := rfl
  have ht : ((xrefFreq >>> 20) + 1).toNat = 24 := by decide
  refine ⟨?_, ?_, ?_⟩
  · rw [highConfig, BitVec.toNat_udiv, hnumerator, hxref]
  · rw [highConfig, BitVec.toNat_udiv, BitVec.toNat_umod, ht, hnumerator, hxref]
  · rw [highConfig, BitVec.toNat_udiv, ht, hxref]

theorem highConfig_written : Written (highConfig fclk rdiv) := by
  obtain ⟨hmult, hnum, hdenom⟩ := toNat_highConfig hlow hhigh rdiv
  obtain ⟨h4, h8, hge, hle⟩ := highDiv_bounds hlow hhigh
  apply Written.of_encodable
  · refine ⟨?_, ?_, ?_, ?_, ?_⟩ <;> omega
  · have hone : (1 : U32).toNat = 1 := rfl
    have hzero : (0 : U32).toNat = 0 := rfl
    have hout : Encodable (highDiv fclk) 0 1 := by
      refine ⟨h4, ?_, ?_, ?_, ?_⟩ <;> omega
    exact hout
  · intro _
    rfl

/-- The output is short of the frequency by the rest of a division by 24. -/
theorem highConfig_accurate :
    |frequency (highConfig fclk .div1) - fclk.toNat| ≤ 6 := by
  obtain ⟨hmult, hnum, hdenom⟩ := toNat_highConfig hlow hhigh .div1
  obtain ⟨h4, -, -, -⟩ := highDiv_bounds hlow hhigh
  have hout : (highConfig fclk .div1).2.ratio = (highDiv fclk).toNat := by
    change ((highDiv fclk).toNat : ℚ) + 0 / 1 = _
    rw [zero_div, add_zero]
  have hrdiv : (2 : ℚ) ^ (highConfig fclk .div1).2.rdiv.code.toNat = 1 :=
    pow_zero 2
  have hxref : (xrefFreq.toNat : ℚ) = 24576000 := rfl
  rw [frequency, PllConfig.ratio, hout, hrdiv, hmult, hnum, hdenom, hxref]
  set x := (highDiv fclk).toNat with hx
  set rest := x * fclk.toNat % 24576000 with hrest
  have hsum : 24576000 * (x * fclk.toNat / 24576000) + rest = x * fclk.toNat :=
    Nat.div_add_mod _ _
  have hrestSum : 24 * (rest / 24) + rest % 24 = rest := Nat.div_add_mod _ _
  have hshort : rest % 24 ≤ 23 := Nat.le_of_lt_succ (Nat.mod_lt _ (by decide))
  have hxpos : (4 : ℚ) ≤ x := by exact_mod_cast h4
  have hcast : (24576000 : ℚ) * (x * fclk.toNat / 24576000 : ℕ) +
      (24 * (rest / 24 : ℕ) + (rest % 24 : ℕ)) = x * fclk.toNat := by
    exact_mod_cast hrestSum.symm ▸ hsum
  have herror : (24576000 : ℚ) * ((x * fclk.toNat / 24576000 : ℕ) +
        (rest / 24 : ℕ) / (1024000 : ℕ)) / (x * 1) - fclk.toNat =
      -((rest % 24 : ℕ) / x) := by
    have hx0 : (x : ℚ) ≠ 0 := by linarith
    field_simp
    push_cast
    linarith
  have hrestNonneg : (0 : ℚ) ≤ (rest % 24 : ℕ) := Nat.cast_nonneg _
  have hrestLe : ((rest % 24 : ℕ) : ℚ) ≤ 23 := by exact_mod_cast hshort
  rw [herror, abs_neg, abs_of_nonneg (by positivity), div_le_iff₀ (by linarith)]
  linarith

end High

/-! ## Where the promise is kept -/

/-- The settings can be written at every frequency of the range. -/
theorem written_of_mem {fclk : U32} (hlow : 8000 ≤ fclk.toNat)
    (hhigh : fclk.toNat ≤ 160000000) : Written (si5351Calc 0 fclk) := by
  rw [si5351Calc_of_mem hlow hhigh]
  have hrange : 512000 ≤ (scaled fclk).1.toNat ∧
      (scaled fclk).1.toNat ≤ 160000000 := by
    rcases scaled_cases fclk with ⟨hsmall, hvalue, -⟩ | ⟨hlarge, hscaled⟩
    · omega
    · rw [hscaled]
      exact ⟨le_trans (by decide) hlarge, hhigh⟩
  split_ifs with hregime
  · exact lowConfig_written hrange.1 hregime _
  · exact highConfig_written (BitVec.not_lt.mp hregime) hrange.2 _

/-- The first ratio is that of a reference of 25 MHz. -/
theorem frequency_lt_of_lt {fclk : U32} (hlow : 8000 ≤ fclk.toNat)
    (hhigh : fclk.toNat < 81000000) :
    frequency (si5351Calc 0 fclk) < fclk.toNat - 6 := by
  rw [si5351Calc_of_mem hlow (by omega)]
  rcases scaled_cases fclk with ⟨hsmall, hvalue, hdiv⟩ | ⟨hlarge, hscaled⟩
  · have hge : 512000 ≤ (scaled fclk).1.toNat := by omega
    have hlt : (scaled fclk).1.toNat < 81000000 := by omega
    have hr : 2 ^ (scaled fclk).2.code.toNat = 64 := by
      rw [hdiv]
      rfl
    have hshort := lowConfig_frequency_lt hge hlt _ hr (by decide) le_rfl
    have hregime : (scaled fclk).1 < 81000000 := hlt
    rw [hvalue] at hshort
    push_cast at hshort
    rw [mul_div_cancel_right₀ _ (by norm_num)] at hshort
    rw [if_pos hregime]
    exact hshort
  · have hge : 512000 ≤ fclk.toNat := le_trans (by decide) hlarge
    have hshort := lowConfig_frequency_lt hge hhigh .div1 (r := 1) rfl
      (by decide) (by decide)
    have hregime : fclk < 81000000 := hhigh
    rw [Nat.cast_one, div_one] at hshort
    rw [hscaled, if_pos hregime]
    exact hshort

theorem not_promise_of_lt {fclk : U32} (hlow : 8000 ≤ fclk.toNat)
    (hhigh : fclk.toNat < 81000000) : ¬Promise fclk := by
  intro hpromise
  have hshort := frequency_lt_of_lt hlow hhigh
  have hge := (abs_le.mp hpromise.accurate).1
  linarith

theorem promise_of_le {fclk : U32} (hlow : 81000000 ≤ fclk.toNat)
    (hhigh : fclk.toNat ≤ 160000000) : Promise fclk := by
  have hmin : 8000 ≤ fclk.toNat := le_trans (by decide) hlow
  rcases scaled_cases fclk with ⟨hsmall, -, -⟩ | ⟨-, hscaled⟩
  · omega
  · refine ⟨fun hsmall => ?_, fun _ => ?_, written_of_mem hmin hhigh, ?_⟩
    · have hlt : fclk.toNat < 1000000 := hsmall
      omega
    · rw [hscaled]
      exact highConfig_exact hlow hhigh
    · have hregime : ¬fclk < 81000000 := BitVec.not_lt.mpr hlow
      rw [si5351Calc_of_mem hmin hhigh, hscaled, if_neg hregime]
      exact highConfig_accurate hlow hhigh

/-- The frequencies that the driver makes to within 6 Hz are those from 81 MHz
on. -/
theorem promise_iff (fclk : U32) (hlow : 8000 ≤ fclk.toNat)
    (hhigh : fclk.toNat ≤ 160000000) :
    Promise fclk ↔ 81000000 ≤ fclk.toNat := by
  constructor
  · intro hpromise
    by_contra hlt
    exact not_promise_of_lt hlow (Nat.not_le.mp hlt) hpromise
  · intro hregime
    exact promise_of_le hregime hhigh

theorem promise_highest : Promise 122880000 :=
  (promise_iff 122880000 (by decide) (by decide)).mpr (by decide)

/-- 10 MHz come out as 9.83 MHz. -/
theorem not_promise_ten : ¬Promise 10000000 :=
  not_promise_of_lt (by decide) (by decide)

end RedPitayaNotes.Si5351
