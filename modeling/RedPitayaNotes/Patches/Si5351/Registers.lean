import Mathlib.Algebra.Field.Rat
import Mathlib.Data.Rat.Cast.Defs
import Mathlib.Logic.Function.Basic
import Mathlib.Tactic.FieldSimp
import Mathlib.Tactic.IntervalCases
import Mathlib.Tactic.LinearCombination
import Mathlib.Tactic.Ring

/-!
# The registers of the Si5351

The driver of the clock generator in `patches/red_pitaya_fsbl_hooks.c`: a ratio
`a + b / c` is turned into three numbers, and these are spread over eight
registers.  The bus and the chip are modelled by what a successful write leaves
in the registers.
-/

namespace RedPitayaNotes.Si5351

abbrev U8 := BitVec 8

abbrev U32 := BitVec 32

def xstSuccess : U32 := 0

def xstFailure : U32 := 1

inductive Pll where
  | a
  | b
deriving DecidableEq

/-- `si5351RDiv_t` -/
inductive RDiv where
  | div1 | div2 | div4 | div8 | div16 | div32 | div64 | div128
deriving DecidableEq

def RDiv.code : RDiv → U32
  | div1 => 0
  | div2 => 1
  | div4 => 2
  | div8 => 3
  | div16 => 4
  | div32 => 5
  | div64 => 6
  | div128 => 7

inductive DriveStrength where
  | ma2 | ma4 | ma6 | ma8
deriving DecidableEq

def DriveStrength.code : DriveStrength → U8
  | ma2 => 0
  | ma4 => 1
  | ma6 => 2
  | ma8 => 3

structure PllConfig where
  mult : U32
  num : U32
  denom : U32
deriving DecidableEq

structure OutputConfig where
  allowIntegerMode : U8
  div : U32
  num : U32
  denom : U32
  rdiv : RDiv
deriving DecidableEq

/-! ## Writes -/

/-- The bus with the chip on it: a send that succeeds stores its byte. -/
structure Iic (σ : Type*) where
  registers : σ → U8 → U8
  send : σ → U8 → U8 → σ × Bool
  stores : ∀ s reg value, (send s reg value).2 = true →
    registers (send s reg value).1 = Function.update (registers s) reg value

variable {σ : Type*}

/-- Calls of `si5351_write` in a row, up to the first that fails. -/
def writeAll (iic : Iic σ) : List (U8 × U8) → σ → σ × U32
  | [], s => (s, xstSuccess)
  | (reg, value) :: writes, s =>
    let sent := iic.send s reg value
    if sent.2 then writeAll iic writes sent.1 else (sent.1, xstFailure)

/-- The registers after writes that have all succeeded. -/
def stored (regs : U8 → U8) (writes : List (U8 × U8)) : U8 → U8 :=
  writes.foldl (fun regs write => Function.update regs write.1 write.2) regs

theorem registers_writeAll (iic : Iic σ) {writes : List (U8 × U8)} {s : σ}
    (h : (writeAll iic writes s).2 = xstSuccess) :
    iic.registers (writeAll iic writes s).1 =
      stored (iic.registers s) writes := by
  induction writes generalizing s with
  | nil => rfl
  | cons write writes ih =>
      obtain ⟨reg, value⟩ := write
      rw [writeAll] at h ⊢
      cases hsent : (iic.send s reg value).2 with
      | false =>
          rw [hsent] at h
          have hbad : xstFailure = xstSuccess := h
          exact absurd hbad (by decide)
      | true =>
          simp only [hsent, if_true] at h ⊢
          rw [ih h, iic.stores s reg value hsent]
          rfl

/-- A bus on which every send succeeds. -/
def reliable : Iic (U8 → U8) where
  registers regs := regs
  send regs reg value := (Function.update regs reg value, true)
  stores _ _ _ _ := rfl

theorem writeAll_reliable (writes : List (U8 × U8)) (regs : U8 → U8) :
    (writeAll reliable writes regs).2 = xstSuccess := by
  induction writes generalizing regs with
  | nil => rfl
  | cons write writes ih => exact ih _

/-- The three numbers of a ratio, and the flag of a division by 4. -/
structure Parameters where
  p1 : U32
  p2 : U32
  p3 : U32
  divBy4 : U8
deriving DecidableEq

/-- `si5351_writeBulk` -/
def writeBulk (baseaddr : U8) (params : Parameters) (rdiv : RDiv) :
    List (U8 × U8) :=
  [(baseaddr, ((params.p3 >>> 8) &&& 0xFF#32).setWidth 8),
    (baseaddr + 1, (params.p3 &&& 0xFF#32).setWidth 8),
    (baseaddr + 2,
      (((params.p1 >>> 16) &&& 0x3#32) |||
        ((params.divBy4.setWidth 32 &&& 0x3#32) <<< 2) |||
        ((rdiv.code &&& 0x7#32) <<< 4)).setWidth 8),
    (baseaddr + 3, ((params.p1 >>> 8) &&& 0xFF#32).setWidth 8),
    (baseaddr + 4, (params.p1 &&& 0xFF#32).setWidth 8),
    (baseaddr + 5,
      (((params.p3 >>> 12) &&& 0xF0#32) |||
        ((params.p2 >>> 16) &&& 0xF#32)).setWidth 8),
    (baseaddr + 6, ((params.p2 >>> 8) &&& 0xFF#32).setWidth 8),
    (baseaddr + 7, (params.p2 &&& 0xFF#32).setWidth 8)]

/-! ## Setting up -/

/-- The numbers of `a + b / c`. -/
def ratioParameters (a b c : U32) : Parameters where
  p1 := 128 * a + (128 * b) / c - 512
  p2 := (128 * b) % c
  p3 := c
  divBy4 := 0

/-- `P1`, `P2` and `P3` in `si5351_SetupPLL`. -/
def pllParameters (conf : PllConfig) : Parameters :=
  ratioParameters conf.mult conf.num conf.denom

def pllBaseaddr : Pll → U8
  | .a => 26
  | .b => 34

def setupPll (iic : Iic σ) (pll : Pll) (conf : PllConfig) (s : σ) : σ × U32 :=
  writeAll iic
    (writeBulk (pllBaseaddr pll) (pllParameters conf) .div1 ++ [(177, 0xA0)]) s

/-- `P1`, `P2`, `P3` and `divBy4` in `si5351_SetupOutput`. -/
def outputParameters (conf : OutputConfig) : Parameters :=
  if conf.div = 4 then ⟨0, 0, 1, 3⟩
  else ratioParameters conf.div conf.num conf.denom

/-- `baseaddr`, `phaseOffsetRegister` and `clkControlRegister` of an output. -/
def outputRegisters (output : U8) : U8 × U8 × U8 :=
  if output = 0 then (42, 165, 16)
  else if output = 1 then (50, 166, 17)
  else if output = 2 then (58, 167, 18)
  else (0, 0, 0)

def clkControl (pllSource : Pll) (driveStrength : DriveStrength)
    (conf : OutputConfig) : U8 :=
  0x0C ||| driveStrength.code |||
    (if pllSource = .b then 1 <<< 5 else 0) |||
    (if conf.allowIntegerMode ≠ 0 ∧ (conf.num = 0 ∨ conf.div = 4) then 1 <<< 6
      else 0)

def setupOutput (iic : Iic σ) (output : U8) (pllSource : Pll)
    (driveStrength : DriveStrength) (conf : OutputConfig) (phaseOffset : U8)
    (s : σ) : σ × U32 :=
  if output > 2 then (s, 1)
  else if conf.allowIntegerMode = 0 ∧
      (conf.div < 8 ∨ conf.div = 8 ∧ conf.num = 0) then
    -- 4, 6 and 8 are possible in the integer mode only
    (s, 2)
  else
    let (baseaddr, phaseOffsetRegister, clkControlRegister) :=
      outputRegisters output
    writeAll iic
      ((clkControlRegister, clkControl pllSource driveStrength conf) ::
        writeBulk baseaddr (outputParameters conf) conf.rdiv ++
          [(phaseOffsetRegister, phaseOffset &&& 0x7F)]) s

/-! ## What the registers mean -/

/-- The fields of eight registers. -/
structure Fields where
  p1 : BitVec 18
  p2 : BitVec 20
  p3 : BitVec 20
  divBy4 : BitVec 2
  rDiv : BitVec 3
deriving DecidableEq

def fields (regs : U8 → U8) (baseaddr : U8) : Fields where
  p1 := (regs (baseaddr + 2)).extractLsb' 0 2 ++ regs (baseaddr + 3) ++
    regs (baseaddr + 4)
  p2 := (regs (baseaddr + 5)).extractLsb' 0 4 ++ regs (baseaddr + 6) ++
    regs (baseaddr + 7)
  p3 := (regs (baseaddr + 5)).extractLsb' 4 4 ++ regs baseaddr ++
    regs (baseaddr + 1)
  divBy4 := (regs (baseaddr + 2)).extractLsb' 2 2
  rDiv := (regs (baseaddr + 2)).extractLsb' 4 3

/-- The ratio that the chip makes of its registers. -/
def Fields.ratio (f : Fields) : ℚ :=
  if f.divBy4 = 3 then 4
  else (f.p1.toNat + 512 + (f.p2.toNat : ℚ) / f.p3.toNat) / 128

/-- The division after it. -/
def Fields.rDivisor (f : Fields) : ℕ := 2 ^ f.rDiv.toNat

/-- The numbers fit the fields. -/
structure Parameters.Fits (params : Parameters) : Prop where
  p1 : params.p1.toNat < 2 ^ 18
  p2 : params.p2.toNat < 2 ^ 20
  p3 : params.p3.toNat < 2 ^ 20

/-! ## The bytes -/

theorem byte_eq (x : U32) (k : ℕ) :
    ((x >>> k) &&& 0xFF#32).setWidth 8 = x.extractLsb' k 8 := by
  apply BitVec.eq_of_getLsbD_eq
  intro i hi
  interval_cases i <;> simp

theorem low_byte_eq (x : U32) : (x &&& 0xFF#32).setWidth 8 = x.extractLsb' 0 8 :=
  byte_eq x 0

/-- The third byte: the top of `P1`, the flag and the second division. -/
theorem third_byte (x d r : U32) :
    let byte := (((x >>> 16) &&& 0x3#32) ||| ((d &&& 0x3#32) <<< 2) |||
      ((r &&& 0x7#32) <<< 4)).setWidth 8
    byte.extractLsb' 0 2 = x.extractLsb' 16 2 ∧
      byte.extractLsb' 2 2 = d.setWidth 2 ∧
      byte.extractLsb' 4 3 = r.setWidth 3 := by
  refine ⟨?_, ?_, ?_⟩ <;> apply BitVec.eq_of_getLsbD_eq <;> intro i hi <;>
    interval_cases i <;> simp

/-- The sixth byte: the tops of `P3` and `P2`. -/
theorem sixth_byte (x y : U32) :
    let byte := (((x >>> 12) &&& 0xF0#32) ||| ((y >>> 16) &&& 0xF#32)).setWidth 8
    byte.extractLsb' 0 4 = y.extractLsb' 16 4 ∧
      byte.extractLsb' 4 4 = x.extractLsb' 16 4 := by
  refine ⟨?_, ?_⟩ <;> apply BitVec.eq_of_getLsbD_eq <;> intro i hi <;>
    interval_cases i <;> simp

/-- The three parts of a number. -/
theorem parts_eq (x : U32) (n : ℕ) :
    x.extractLsb' 16 n ++ x.extractLsb' 8 8 ++ x.extractLsb' 0 8 =
      x.setWidth (n + 8 + 8) := by
  rw [BitVec.extractLsb'_append_extractLsb'_eq_extractLsb'
      (show 16 = 8 + 8 from rfl),
    BitVec.extractLsb'_append_extractLsb'_eq_extractLsb'
      (show 8 = 0 + 8 from rfl)]
  apply BitVec.eq_of_getLsbD_eq
  intro i hi
  simp [hi]

theorem stored_eight (regs : U8 → U8) (base v₀ v₁ v₂ v₃ v₄ v₅ v₆ v₇ : U8) :
    let after := stored regs [(base, v₀), (base + 1, v₁), (base + 2, v₂),
      (base + 3, v₃), (base + 4, v₄), (base + 5, v₅), (base + 6, v₆),
      (base + 7, v₇)]
    after base = v₀ ∧ after (base + 1) = v₁ ∧ after (base + 2) = v₂ ∧
      after (base + 3) = v₃ ∧ after (base + 4) = v₄ ∧ after (base + 5) = v₅ ∧
      after (base + 6) = v₆ ∧ after (base + 7) = v₇ := by
  simp [stored]

/-- What `si5351_writeBulk` leaves in the fields. -/
theorem fields_writeBulk (regs : U8 → U8) (baseaddr : U8) (params : Parameters)
    (rdiv : RDiv) :
    fields (stored regs (writeBulk baseaddr params rdiv)) baseaddr =
      ⟨params.p1.setWidth 18, params.p2.setWidth 20, params.p3.setWidth 20,
        (params.divBy4.setWidth 32).setWidth 2, rdiv.code.setWidth 3⟩ := by
  obtain ⟨htop, hflag, hrdiv⟩ :=
    third_byte params.p1 (params.divBy4.setWidth 32) rdiv.code
  obtain ⟨hlow, hhigh⟩ := sixth_byte params.p3 params.p2
  obtain ⟨h₀, h₁, h₂, h₃, h₄, h₅, h₆, h₇⟩ := stored_eight regs baseaddr _ _ _ _ _ _ _ _
  rw [writeBulk, fields, h₀, h₁, h₂, h₃, h₄, h₅, h₆, h₇, htop, hflag, hrdiv, hlow,
    hhigh, byte_eq, byte_eq, byte_eq, low_byte_eq, low_byte_eq, low_byte_eq,
    parts_eq, parts_eq, parts_eq]

/-- A register elsewhere does not matter. -/
theorem fields_update (regs : U8 → U8) {reg baseaddr : U8} (value : U8)
    (h : ∀ k : Fin 8, baseaddr + BitVec.ofNat 8 k ≠ reg) :
    fields (Function.update regs reg value) baseaddr = fields regs baseaddr := by
  have h₀ : baseaddr ≠ reg := by simpa using h 0
  have hne : ∀ k : Fin 8, Function.update regs reg value
      (baseaddr + BitVec.ofNat 8 k) = regs (baseaddr + BitVec.ofNat 8 k) :=
    fun k => Function.update_of_ne (h k) _ _
  have h₁ : Function.update regs reg value (baseaddr + 1) = _ := hne 1
  have h₂ : Function.update regs reg value (baseaddr + 2) = _ := hne 2
  have h₃ : Function.update regs reg value (baseaddr + 3) = _ := hne 3
  have h₄ : Function.update regs reg value (baseaddr + 4) = _ := hne 4
  have h₅ : Function.update regs reg value (baseaddr + 5) = _ := hne 5
  have h₆ : Function.update regs reg value (baseaddr + 6) = _ := hne 6
  have h₇ : Function.update regs reg value (baseaddr + 7) = _ := hne 7
  rw [fields, fields, Function.update_of_ne h₀, h₁, h₂, h₃, h₄, h₅, h₆, h₇]
  rfl

/-- Writes elsewhere do not matter. -/
theorem fields_stored {regs : U8 → U8} {baseaddr : U8} {writes : List (U8 × U8)}
    (h : ∀ write ∈ writes, ∀ k : Fin 8, baseaddr + BitVec.ofNat 8 k ≠ write.1) :
    fields (stored regs writes) baseaddr = fields regs baseaddr := by
  induction writes generalizing regs with
  | nil => rfl
  | cons write writes ih =>
      rw [List.forall_mem_cons] at h
      exact (ih h.2).trans (fields_update regs write.2 h.1)

theorem stored_append (regs : U8 → U8) (xs ys : List (U8 × U8)) :
    stored regs (xs ++ ys) = stored (stored regs xs) ys :=
  List.foldl_append

/-! ## Ratios -/

/-- The numbers of a ratio that the fields can take. -/
structure Encodable (a b c : U32) : Prop where
  four_le : 4 ≤ a.toNat
  le : a.toNat ≤ 2000
  num_le : b.toNat ≤ c.toNat
  denom_pos : 0 < c.toNat
  denom_lt : c.toNat < 2 ^ 20

namespace Encodable

variable {a b c : U32} (h : Encodable a b c)

include h

theorem toNat_products :
    (128 * a).toNat = 128 * a.toNat ∧ (128 * b).toNat = 128 * b.toNat := by
  obtain ⟨-, hle, hnum, -, hlt⟩ := h
  have h128 : (128 : U32).toNat = 128 := rfl
  rw [BitVec.toNat_mul, BitVec.toNat_mul, h128, Nat.mod_eq_of_lt (by omega),
    Nat.mod_eq_of_lt (by omega)]
  exact ⟨rfl, rfl⟩

theorem quotient_le : 128 * b.toNat / c.toNat ≤ 128 := by
  apply Nat.div_le_of_le_mul
  rw [Nat.mul_comm c.toNat]
  exact Nat.mul_le_mul_left 128 h.num_le

theorem toNat_parameters :
    (ratioParameters a b c).p1.toNat =
        128 * a.toNat + 128 * b.toNat / c.toNat - 512 ∧
      (ratioParameters a b c).p2.toNat = 128 * b.toNat % c.toNat ∧
      (ratioParameters a b c).p3.toNat = c.toNat := by
  obtain ⟨ha, hb⟩ := h.toNat_products
  have hquot := h.quotient_le
  have hfour := h.four_le
  have hle := h.le
  refine ⟨?_, ?_, rfl⟩
  · have h512 : (512 : U32).toNat = 512 := rfl
    rw [ratioParameters, BitVec.toNat_sub, BitVec.toNat_add, BitVec.toNat_udiv,
      ha, hb, h512]
    generalize 128 * b.toNat / c.toNat = quot at hquot
    omega
  · rw [ratioParameters, BitVec.toNat_umod, hb]

theorem fits : (ratioParameters a b c).Fits := by
  obtain ⟨h₁, h₂, h₃⟩ := h.toNat_parameters
  have hquot := h.quotient_le
  have hle := h.le
  have hlt := h.denom_lt
  have hmod := Nat.mod_lt (128 * b.toNat) h.denom_pos
  refine ⟨?_, ?_, ?_⟩
  · rw [h₁]
    omega
  · rw [h₂]
    omega
  · rw [h₃]
    exact hlt

/-- The chip makes the ratio of the registers. -/
theorem ratio_eq (rDiv : BitVec 3) :
    Fields.ratio ⟨(ratioParameters a b c).p1.setWidth 18,
        (ratioParameters a b c).p2.setWidth 20,
        (ratioParameters a b c).p3.setWidth 20, 0, rDiv⟩ =
      a.toNat + (b.toNat : ℚ) / c.toNat := by
  obtain ⟨h₁, h₂, h₃⟩ := h.toNat_parameters
  obtain ⟨hfit₁, hfit₂, hfit₃⟩ := h.fits
  have hc : (c.toNat : ℚ) ≠ 0 := by
    have hpos := h.denom_pos
    exact_mod_cast hpos.ne'
  have hfour := h.four_le
  have hdiv := Nat.div_add_mod (128 * b.toNat) c.toNat
  have hcast : (c.toNat : ℚ) * (128 * b.toNat / c.toNat : ℕ) +
      (128 * b.toNat % c.toNat : ℕ) = 128 * b.toNat := by
    exact_mod_cast hdiv
  have hp1 : ((128 * a.toNat + 128 * b.toNat / c.toNat - 512 : ℕ) : ℚ) =
      128 * a.toNat + (128 * b.toNat / c.toNat : ℕ) - 512 := by
    rw [Nat.cast_sub (by generalize 128 * b.toNat / c.toNat = quot; omega)]
    push_cast
    ring
  have hflag : ¬(0 : BitVec 2) = 3 := by decide
  rw [Fields.ratio, if_neg hflag, BitVec.toNat_setWidth,
    BitVec.toNat_setWidth, BitVec.toNat_setWidth, Nat.mod_eq_of_lt hfit₁,
    Nat.mod_eq_of_lt hfit₂, Nat.mod_eq_of_lt hfit₃, h₁, h₂, h₃, hp1]
  field_simp
  linear_combination hcast

end Encodable

/-! ## What a successful set-up leaves -/

theorem setupPll_ratio (iic : Iic σ) {pll : Pll} {conf : PllConfig} {s : σ}
    (h : Encodable conf.mult conf.num conf.denom)
    (hok : (setupPll iic pll conf s).2 = xstSuccess) :
    (fields (iic.registers (setupPll iic pll conf s).1) (pllBaseaddr pll)).ratio =
      conf.mult.toNat + (conf.num.toNat : ℚ) / conf.denom.toNat := by
  have hreset : ∀ write ∈ [((177 : U8), (0xA0 : U8))], ∀ k : Fin 8,
      pllBaseaddr pll + BitVec.ofNat 8 k ≠ write.1 := by
    intro write hwrite
    rw [List.mem_singleton.mp hwrite]
    cases pll <;> decide
  rw [setupPll, registers_writeAll iic hok, stored_append, fields_stored hreset,
    fields_writeBulk]
  exact h.ratio_eq _

example (pll : Pll) (regs : U8 → U8) :
    (fields (setupPll reliable pll ⟨36, 1, 1024000⟩ regs).1
      (pllBaseaddr pll)).ratio = 36 + 1 / 1024000 := by
  have henc : Encodable 36 1 1024000 :=
    ⟨by decide, by decide, by decide, by decide, by decide⟩
  exact setupPll_ratio reliable henc (writeAll_reliable _ regs)

/-- An output whose set-up succeeds is one of the three, and its set-up is its
writes. -/
theorem setupOutput_of_success (iic : Iic σ) {output : U8} {pllSource : Pll}
    {driveStrength : DriveStrength} {conf : OutputConfig} {phaseOffset : U8}
    {s : σ} (hok : (setupOutput iic output pllSource driveStrength conf
      phaseOffset s).2 = xstSuccess) :
    (output = 0 ∨ output = 1 ∨ output = 2) ∧
      setupOutput iic output pllSource driveStrength conf phaseOffset s =
        writeAll iic
          (((outputRegisters output).2.2,
              clkControl pllSource driveStrength conf) ::
            writeBulk (outputRegisters output).1 (outputParameters conf)
                conf.rdiv ++
              [((outputRegisters output).2.1, phaseOffset &&& 0x7F)]) s := by
  by_cases hlarge : output > 2
  · rw [setupOutput, if_pos hlarge] at hok
    have hbad : (1 : U32) = xstSuccess := hok
    exact absurd hbad (by decide)
  · rw [setupOutput, if_neg hlarge] at hok ⊢
    by_cases hinteger : conf.allowIntegerMode = 0 ∧
        (conf.div < 8 ∨ conf.div = 8 ∧ conf.num = 0)
    · rw [if_pos hinteger] at hok
      have hbad : (2 : U32) = xstSuccess := hok
      exact absurd hbad (by decide)
    · rw [if_neg hinteger]
      refine ⟨?_, rfl⟩
      have hle : output.toNat ≤ 2 := BitVec.not_lt.mp hlarge
      have hcases : output.toNat = 0 ∨ output.toNat = 1 ∨ output.toNat = 2 := by
        omega
      rcases hcases with h | h | h
      · exact Or.inl (BitVec.eq_of_toNat_eq h)
      · exact Or.inr (Or.inl (BitVec.eq_of_toNat_eq h))
      · exact Or.inr (Or.inr (BitVec.eq_of_toNat_eq h))

/-- The fields of an output after its set-up. -/
theorem setupOutput_fields (iic : Iic σ) {output : U8} {pllSource : Pll}
    {driveStrength : DriveStrength} {conf : OutputConfig} {phaseOffset : U8}
    {s : σ} (hok : (setupOutput iic output pllSource driveStrength conf
      phaseOffset s).2 = xstSuccess) :
    fields (iic.registers (setupOutput iic output pllSource driveStrength conf
        phaseOffset s).1) (outputRegisters output).1 =
      ⟨(outputParameters conf).p1.setWidth 18,
        (outputParameters conf).p2.setWidth 20,
        (outputParameters conf).p3.setWidth 20,
        ((outputParameters conf).divBy4.setWidth 32).setWidth 2,
        conf.rdiv.code.setWidth 3⟩ := by
  obtain ⟨houtput, heq⟩ := setupOutput_of_success iic hok
  rw [heq] at hok ⊢
  have hphase : ∀ write ∈ [((outputRegisters output).2.1, phaseOffset &&& 0x7F)],
      ∀ k : Fin 8, (outputRegisters output).1 + BitVec.ofNat 8 k ≠ write.1 := by
    intro write hwrite
    rw [List.mem_singleton.mp hwrite]
    change ∀ k : Fin 8, _ ≠ (outputRegisters output).2.1
    rcases houtput with rfl | rfl | rfl <;> decide
  rw [registers_writeAll iic hok, stored_append, fields_stored hphase]
  exact fields_writeBulk _ _ _ _

theorem setupOutput_ratio (iic : Iic σ) {output : U8} {pllSource : Pll}
    {driveStrength : DriveStrength} {conf : OutputConfig} {phaseOffset : U8}
    {s : σ} (h : conf.div = 4 ∧ conf.num = 0 ∨
      conf.div ≠ 4 ∧ Encodable conf.div conf.num conf.denom)
    (hok : (setupOutput iic output pllSource driveStrength conf phaseOffset
      s).2 = xstSuccess) :
    (fields (iic.registers (setupOutput iic output pllSource driveStrength conf
        phaseOffset s).1) (outputRegisters output).1).ratio =
      conf.div.toNat + (conf.num.toNat : ℚ) / conf.denom.toNat := by
  rw [setupOutput_fields iic hok]
  rcases h with ⟨hdiv, hnum⟩ | ⟨hdiv, henc⟩
  · rw [outputParameters, if_pos hdiv, hdiv, hnum]
    have h4 : (4 : U32).toNat = 4 := rfl
    have h0 : (0 : U32).toNat = 0 := rfl
    rw [h4, h0, Nat.cast_zero, zero_div, add_zero]
    rfl
  · rw [outputParameters, if_neg hdiv]
    exact henc.ratio_eq _

theorem setupOutput_rDivisor (iic : Iic σ) {output : U8} {pllSource : Pll}
    {driveStrength : DriveStrength} {conf : OutputConfig} {phaseOffset : U8}
    {s : σ} (hok : (setupOutput iic output pllSource driveStrength conf
      phaseOffset s).2 = xstSuccess) :
    (fields (iic.registers (setupOutput iic output pllSource driveStrength conf
        phaseOffset s).1) (outputRegisters output).1).rDivisor =
      2 ^ conf.rdiv.code.toNat := by
  rw [setupOutput_fields iic hok]
  cases conf.rdiv <;> rfl

end RedPitayaNotes.Si5351
