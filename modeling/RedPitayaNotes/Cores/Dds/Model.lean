import Mathlib.Data.BitVec
import RedPitayaNotes.Cores.Dds.Rom
import RedPitayaNotes.Support.Clocked
import RedPitayaNotes.Support.Dsp48

/-!
# The dds core

`cores/dds.v`: a phase accumulator, a table of a quarter of a cosine, and a
first-order correction by the low bits of the phase.  The table is read at an
address and at its complement; two sign bits make the four quadrants of it.
-/

namespace RedPitayaNotes.Dds

open Clocked Dsp48

/-- The registers of a slice without the registers of ports B and C. -/
structure DspA where
  a : BitVec 30
  m : BitVec 48
  p : BitVec 48

structure Dsp where
  a : BitVec 30
  b : BitVec 18
  c : BitVec 48
  m : BitVec 48
  p : BitVec 48

/-- The ROM reads in two cycles. -/
structure Rom where
  readA : BitVec 23
  readB : BitVec 23
  douta : BitVec 23
  doutb : BitVec 23

structure State where
  intCntrReg : BitVec 32
  intCosReg : BitVec 24
  intSinReg : BitVec 24
  intAddrReg : BitVec 11
  intSignReg0 : BitVec 2
  intSignReg1 : BitVec 2
  intSignReg2 : BitVec 2
  rom0 : Rom
  dsp0 : DspA
  dsp1 : Dsp
  dsp2 : Dsp

/-- A word of the table. -/
def word (addr : BitVec 11) : BitVec 23 :=
  BitVec.ofNat 23 (ddsMem.getD addr.toNat 0)

/-- `sign ? {7'h7f, -lut} : {7'h00, lut}` -/
def signed (sign : Bool) (lut : BitVec 23) : BitVec 30 :=
  if sign then 0x7f#7 ++ -lut else 0x00#7 ++ lut

/-! ## Functions of the phase -/

/-- Port A of `dsp_0`. -/
def fine (cntr : BitVec 32) : BitVec 30 :=
  (if cntr.getLsbD 18 then 0#12 else BitVec.allOnes 12) ++
    cntr.extractLsb' 0 18

/-- `int_corr_wire`, of the sum of `dsp_0`. -/
def intCorrWire (p : BitVec 48) : BitVec 18 :=
  p.extractLsb' 18 17 ++ BitVec.ofBool
    (p.getLsbD 17 || patternBDetect 0xfffffffe0000 0xfffffffe0000 p)

/-- Half of `dout`, of the sum of `dsp_1` or `dsp_2`. -/
def doutHalf (p : BitVec 48) : BitVec 24 :=
  p.extractLsb' 25 23 ++ BitVec.ofBool
    (p.getLsbD 24 || patternBDetect 0xffffff000000 0xffffff000000 p)

section Wires

variable (negativeSine : Bool) (s : State) (pinc : BitVec 32)

def intCntrWire : BitVec 32 :=
  if negativeSine then s.intCntrReg - pinc else s.intCntrReg + pinc

def intCosWire : BitVec 30 := signed (s.intSignReg2.getLsbD 0) s.rom0.douta

def intSinWire : BitVec 30 := signed (s.intSignReg2.getLsbD 1) s.rom0.doutb

def addra : BitVec 11 :=
  if s.intSignReg0.getLsbD 0 then ~~~s.intAddrReg else s.intAddrReg

def addrb : BitVec 11 :=
  if s.intSignReg0.getLsbD 0 then s.intAddrReg else ~~~s.intAddrReg

def dout : BitVec 48 := doutHalf s.dsp2.p ++ doutHalf s.dsp1.p

def cos : BitVec 24 := (dout s).extractLsb' 0 24

def sin : BitVec 24 := (dout s).extractLsb' 24 24

end Wires

/-- The `always` block, the ROM and the slices. -/
def step (aresetn negativeSine : Bool) (s : State) (pinc : BitVec 32) :
    State where
  intCntrReg := if !aresetn then 0 else intCntrWire negativeSine s pinc
  intCosReg := if !aresetn then 0 else (intCosWire s).setWidth 24
  intSinReg := if !aresetn then 0 else (intSinWire s).setWidth 24
  intAddrReg := if !aresetn then 0 else s.intCntrReg.extractLsb' 19 11
  intSignReg0 := if !aresetn then 0 else s.intCntrReg.extractLsb' 30 2
  intSignReg1 :=
    if !aresetn then 0
    else
      BitVec.ofBool (s.intSignReg0.getLsbD 1) ++
        BitVec.ofBool (s.intSignReg0.getLsbD 1 ^^ s.intSignReg0.getLsbD 0)
  intSignReg2 := if !aresetn then 0 else s.intSignReg1
  rom0 := {
    readA := word (addra s)
    readB := word (addrb s)
    douta := s.rom0.readA
    doutb := s.rom0.readB }
  dsp0 := {
    a := fine s.intCntrReg
    m := mul s.dsp0.a 3217
    p := 0xffff + s.dsp0.m }
  dsp1 := {
    a := intSinWire s
    b := intCorrWire s.dsp0.p
    c := s.intCosReg ++ 0x7fffff#24
    m := mul s.dsp1.a s.dsp1.b
    p := s.dsp1.c - s.dsp1.m }
  dsp2 := {
    a := intCosWire s
    b := intCorrWire s.dsp0.p
    c := s.intSinReg ++ 0x7fffff#24
    m := mul s.dsp2.a s.dsp2.b
    p := s.dsp2.c + s.dsp2.m }

/-- An edge out of reset. -/
def next (negativeSine : Bool) (s : State) (pinc : BitVec 32) : State :=
  step true negativeSine s pinc

/-! ## The pipeline -/

/-- The correction of a phase. -/
def corr (phase : BitVec 32) : BitVec 18 :=
  intCorrWire (0xffff + mul (fine phase) 3217)

/-- The words of the table for a phase, with their signs. -/
def coarseCos (phase : BitVec 32) : BitVec 30 :=
  let addr := phase.extractLsb' 19 11
  signed (phase.getLsbD 31 ^^ phase.getLsbD 30)
    (word (if phase.getLsbD 30 then ~~~addr else addr))

def coarseSin (phase : BitVec 32) : BitVec 30 :=
  let addr := phase.extractLsb' 19 11
  signed (phase.getLsbD 31)
    (word (if phase.getLsbD 30 then addr else ~~~addr))

/-- The sums of `dsp_1` and `dsp_2` for a phase. -/
def sumCos (phase : BitVec 32) : BitVec 48 :=
  ((coarseCos phase).setWidth 24 ++ 0x7fffff#24) -
    mul (coarseSin phase) (corr phase)

def sumSin (phase : BitVec 32) : BitVec 48 :=
  ((coarseSin phase).setWidth 24 ++ 0x7fffff#24) +
    mul (coarseCos phase) (corr phase)

section Pipeline

variable (negativeSine : Bool) (s : State) (a b c : BitVec 32)

/-- The slices take three cycles from the wires to the sums. -/
theorem run_three_dsp :
    let s' := run (next negativeSine) s [a, b, c]
    s'.dsp1.p = ((intCosWire s).setWidth 24 ++ 0x7fffff#24) -
        mul (intSinWire s) (intCorrWire s.dsp0.p) ∧
      s'.dsp2.p = ((intSinWire s).setWidth 24 ++ 0x7fffff#24) +
        mul (intCosWire s) (intCorrWire s.dsp0.p) :=
  ⟨rfl, rfl⟩

theorem run_three_corr :
    intCorrWire (run (next negativeSine) s [a, b, c]).dsp0.p =
      corr s.intCntrReg :=
  rfl

theorem extractLsb'_sign (phase : BitVec 32) :
    (phase.extractLsb' 30 2).getLsbD 0 = phase.getLsbD 30 ∧
      (phase.extractLsb' 30 2).getLsbD 1 = phase.getLsbD 31 := by
  simp

theorem getLsbD_sign (x y : Bool) :
    (BitVec.ofBool x ++ BitVec.ofBool y).getLsbD 0 = y ∧
      (BitVec.ofBool x ++ BitVec.ofBool y).getLsbD 1 = x := by
  cases x <;> cases y <;> decide

theorem next_sign (s : State) (a : BitVec 32) :
    (next negativeSine s a).intSignReg0 = s.intCntrReg.extractLsb' 30 2 ∧
      (next negativeSine s a).intSignReg1 =
        BitVec.ofBool (s.intSignReg0.getLsbD 1) ++
          BitVec.ofBool (s.intSignReg0.getLsbD 1 ^^ s.intSignReg0.getLsbD 0) ∧
      (next negativeSine s a).intSignReg2 = s.intSignReg1 :=
  ⟨rfl, rfl, rfl⟩

theorem next_table (s : State) (a : BitVec 32) :
    (next negativeSine s a).intAddrReg = s.intCntrReg.extractLsb' 19 11 ∧
      (next negativeSine s a).rom0 =
        ⟨word (addra s), word (addrb s), s.rom0.readA, s.rom0.readB⟩ :=
  ⟨rfl, rfl⟩

/-- The table and the signs take three cycles from the phase to the wires. -/
theorem run_three_coarse :
    intCosWire (run (next negativeSine) s [a, b, c]) =
        coarseCos s.intCntrReg ∧
      intSinWire (run (next negativeSine) s [a, b, c]) =
        coarseSin s.intCntrReg := by
  obtain ⟨h30, h31⟩ := extractLsb'_sign s.intCntrReg
  simp only [run_cons, run_nil, intCosWire, intSinWire, next_sign, next_table,
    addra, addrb, getLsbD_sign, h30, h31, coarseCos, coarseSin, and_self]

/-- Six cycles after a phase, whatever the increments, `dout` shows its sums. -/
theorem dout_run_six {pincs : List (BitVec 32)} (h : pincs.length = 6) :
    dout (run (next negativeSine) s pincs) =
      doutHalf (sumSin s.intCntrReg) ++ doutHalf (sumCos s.intCntrReg) := by
  match pincs, h with
  | [a, b, c, d, e, f], _ =>
    obtain ⟨hcos, hsin⟩ := run_three_dsp negativeSine
      (run (next negativeSine) s [a, b, c]) d e f
    obtain ⟨hcos', hsin'⟩ := run_three_coarse negativeSine s a b c
    rw [hcos', hsin', run_three_corr, ← run_append] at hcos hsin
    rw [show [a, b, c, d, e, f] = [a, b, c] ++ [d, e, f] from rfl, dout, hcos,
      hsin, sumSin, sumCos]

end Pipeline

end RedPitayaNotes.Dds
