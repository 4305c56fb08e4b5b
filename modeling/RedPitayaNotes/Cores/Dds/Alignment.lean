import RedPitayaNotes.Cores.Dds.Model

/-!
# The stages of the dds core

Between a phase and its sine lie six edges.  The registers of the core fall into
six stages, by the number of edges since the phase they belong to was in the
accumulator, and every edge moves a phase from one stage to the next.
-/

namespace RedPitayaNotes.Dds

open Clocked Dsp48

/-- What the core computes from one phase, without its registers. -/
def unpipelined (phase : BitVec 32) : BitVec 48 :=
  doutHalf (sumSin phase) ++ doutHalf (sumCos phase)

/-- The address of the first port of the ROM. -/
def romAddr (phase : BitVec 32) : BitVec 11 :=
  let addr := phase.extractLsb' 19 11
  if phase.getLsbD 30 then ~~~addr else addr

/-! ## Stages -/

section Stages

variable (phase : BitVec 32) (s : State)

structure Stage1 : Prop where
  intAddrReg : s.intAddrReg = phase.extractLsb' 19 11
  intSignReg0 : s.intSignReg0 = phase.extractLsb' 30 2
  dsp0 : s.dsp0.a = fine phase

/-- The signs of sine and cosine, as `int_sign_reg[1]` has them. -/
def signs : BitVec 2 :=
  BitVec.ofBool (phase.getLsbD 31) ++
    BitVec.ofBool (phase.getLsbD 31 ^^ phase.getLsbD 30)

structure Stage2 : Prop where
  readA : s.rom0.readA = word (romAddr phase)
  readB : s.rom0.readB = word (~~~romAddr phase)
  intSignReg1 : s.intSignReg1 = signs phase
  dsp0 : s.dsp0.m = mul (fine phase) 3217

structure Stage3 : Prop where
  douta : s.rom0.douta = word (romAddr phase)
  doutb : s.rom0.doutb = word (~~~romAddr phase)
  intSignReg2 : s.intSignReg2 = signs phase
  dsp0 : s.dsp0.p = 0xffff + mul (fine phase) 3217

structure Stage4 : Prop where
  intCosReg : s.intCosReg = (coarseCos phase).setWidth 24
  intSinReg : s.intSinReg = (coarseSin phase).setWidth 24
  dsp1A : s.dsp1.a = coarseSin phase
  dsp1B : s.dsp1.b = corr phase
  dsp2A : s.dsp2.a = coarseCos phase
  dsp2B : s.dsp2.b = corr phase

structure Stage5 : Prop where
  dsp1C : s.dsp1.c = (coarseCos phase).setWidth 24 ++ 0x7fffff#24
  dsp1M : s.dsp1.m = mul (coarseSin phase) (corr phase)
  dsp2C : s.dsp2.c = (coarseSin phase).setWidth 24 ++ 0x7fffff#24
  dsp2M : s.dsp2.m = mul (coarseCos phase) (corr phase)

structure Stage6 : Prop where
  dsp1 : s.dsp1.p = sumCos phase
  dsp2 : s.dsp2.p = sumSin phase

/-- The registers of stage `k` belong to `phase`. -/
def Stage : ℕ → Prop
  | 0 => s.intCntrReg = phase
  | 1 => Stage1 phase s
  | 2 => Stage2 phase s
  | 3 => Stage3 phase s
  | 4 => Stage4 phase s
  | 5 => Stage5 phase s
  | 6 => Stage6 phase s
  | _ => True

end Stages

variable {negativeSine : Bool} {phase : BitVec 32} {s : State}

theorem coarseCos_eq : coarseCos phase =
    signed ((signs phase).getLsbD 0) (word (romAddr phase)) := by
  rw [signs, (getLsbD_sign _ _).1]
  rfl

theorem coarseSin_eq : coarseSin phase =
    signed ((signs phase).getLsbD 1) (word (~~~romAddr phase)) := by
  rw [signs, (getLsbD_sign _ _).2, coarseSin, romAddr]
  cases phase.getLsbD 30 <;> simp

theorem stage1_next (pinc : BitVec 32) :
    Stage1 s.intCntrReg (next negativeSine s pinc) :=
  ⟨rfl, rfl, rfl⟩

theorem addra_eq (h : Stage1 phase s) : addra s = romAddr phase := by
  rw [addra, h.intSignReg0, (extractLsb'_sign phase).1, h.intAddrReg, romAddr]

theorem addrb_eq (h : Stage1 phase s) : addrb s = ~~~romAddr phase := by
  rw [addrb, h.intSignReg0, (extractLsb'_sign phase).1, h.intAddrReg, romAddr]
  cases phase.getLsbD 30 <;> simp

theorem Stage1.next (h : Stage1 phase s) (pinc : BitVec 32) :
    Stage2 phase (next negativeSine s pinc) where
  readA := congrArg word (addra_eq h)
  readB := congrArg word (addrb_eq h)
  intSignReg1 := by
    obtain ⟨h30, h31⟩ := extractLsb'_sign phase
    rw [(next_sign negativeSine s pinc).2.1, h.intSignReg0, h30, h31, signs]
  dsp0 := congrArg (mul · 3217) h.dsp0

theorem Stage2.next (h : Stage2 phase s) (pinc : BitVec 32) :
    Stage3 phase (Dds.next negativeSine s pinc) where
  douta := h.readA
  doutb := h.readB
  intSignReg2 := h.intSignReg1
  dsp0 := congrArg (0xffff + ·) h.dsp0

theorem intCosWire_eq (h : Stage3 phase s) :
    intCosWire s = coarseCos phase := by
  rw [intCosWire, h.intSignReg2, h.douta, coarseCos_eq]

theorem intSinWire_eq (h : Stage3 phase s) :
    intSinWire s = coarseSin phase := by
  rw [intSinWire, h.intSignReg2, h.doutb, coarseSin_eq]

theorem Stage3.next (h : Stage3 phase s) (pinc : BitVec 32) :
    Stage4 phase (Dds.next negativeSine s pinc) where
  intCosReg := congrArg (BitVec.setWidth 24) (intCosWire_eq h)
  intSinReg := congrArg (BitVec.setWidth 24) (intSinWire_eq h)
  dsp1A := intSinWire_eq h
  dsp1B := congrArg intCorrWire h.dsp0
  dsp2A := intCosWire_eq h
  dsp2B := congrArg intCorrWire h.dsp0

theorem Stage4.next (h : Stage4 phase s) (pinc : BitVec 32) :
    Stage5 phase (Dds.next negativeSine s pinc) where
  dsp1C := congrArg (· ++ 0x7fffff#24) h.intCosReg
  dsp1M := congrArg₂ mul h.dsp1A h.dsp1B
  dsp2C := congrArg (· ++ 0x7fffff#24) h.intSinReg
  dsp2M := congrArg₂ mul h.dsp2A h.dsp2B

theorem Stage5.next (h : Stage5 phase s) (pinc : BitVec 32) :
    Stage6 phase (Dds.next negativeSine s pinc) where
  dsp1 := congrArg₂ (· - ·) h.dsp1C h.dsp1M
  dsp2 := congrArg₂ (· + ·) h.dsp2C h.dsp2M

theorem dout_eq_unpipelined (h : Stage6 phase s) : dout s = unpipelined phase := by
  rw [dout, h.dsp1, h.dsp2, unpipelined]

/-- An edge moves a phase to the next stage. -/
theorem stage_next (k : ℕ) (s : State) (pinc : BitVec 32)
    (h : Stage phase s k) : Stage phase (next negativeSine s pinc) (k + 1) := by
  match k with
  | 0 =>
      have hphase : s.intCntrReg = phase := h
      rw [← hphase]
      exact stage1_next pinc
  | 1 => exact Stage1.next h pinc
  | 2 => exact Stage2.next h pinc
  | 3 => exact Stage3.next h pinc
  | 4 => exact Stage4.next h pinc
  | 5 => exact Stage5.next h pinc
  | _ + 6 => trivial

/-- A phase passes the six stages alone, whatever the increments and whatever the
registers held, and after the sixth `dout` is the function of it. -/
theorem dout_aligned {pincs : List (BitVec 32)} {n : ℕ}
    {c : Cycle State (BitVec 32)}
    (hc : (trace (next negativeSine) s pincs)[n]? = some c) :
    (∀ k d, (trace (next negativeSine) s pincs)[n + k]? = some d →
        Stage c.state.intCntrReg d.state k) ∧
      ∀ d, (trace (next negativeSine) s pincs)[n + 6]? = some d →
        dout d.state = unpipelined c.state.intCntrReg := by
  have hstage : ∀ k d, (trace (next negativeSine) s pincs)[n + k]? = some d →
      Stage c.state.intCntrReg d.state k := by
    intro k d hd
    exact trace_since (fun k s => Stage c.state.intCntrReg s k)
      (fun k s i => stage_next k s i) hc hd rfl
  refine ⟨hstage, ?_⟩
  intro d hd
  exact dout_eq_unpipelined (hstage 6 d hd)

/-- Eight increments from cleared registers.  The phase of the second cycle comes
out with the sine -3624597 and the cosine 7565118, of 8388607 each. -/
theorem dout_aligned_cleared :
    let s : State := ⟨0, 0, 0, 0, 0, 0, 0, ⟨0, 0, 0, 0⟩, ⟨0, 0, 0⟩,
      ⟨0, 0, 0, 0, 0⟩, ⟨0, 0, 0, 0, 0⟩⟩
    ∀ d, (trace (next true) s (List.replicate 8 0x12345678))[7]? = some d →
      dout d.state = unpipelined 0xedcba988 ∧
        dout d.state = BitVec.ofInt 24 (-3624597) ++ BitVec.ofInt 24 7565118 := by
  intro s d hd
  have hdout : dout d.state = unpipelined 0xedcba988 :=
    (dout_aligned (n := 1) (c := ⟨next true s 0x12345678, 0x12345678⟩) rfl).2 d hd
  refine ⟨hdout, hdout.trans ?_⟩
  decide +kernel

end RedPitayaNotes.Dds
