import RedPitayaNotes.Support.Bits
import RedPitayaNotes.Support.Clocked

/-!
# The axis_misc_reader core

`cores/axis_misc_reader.v` takes the upper bits off a sample stream, replaces
three of them and passes the rest on.  It counts the rising edges of the top
bit, the pulses.  At every pulse it reflects the count bit by bit, and at every
sixteenth it starts to send it over a UART.
-/

namespace RedPitayaNotes.AxisMiscReader

open Clocked Bits

/-- The widths of the module; the slices it takes are not empty. -/
structure Params where
  sAxisTdataWidth : ℕ := 40
  mAxisTdataWidth : ℕ := 32
  miscWidth : ℕ := 8
  mAxisTdata_pos : 0 < mAxisTdataWidth
  mAxisTdata_le : mAxisTdataWidth ≤ sAxisTdataWidth
  misc_gt : 3 < miscWidth
  misc_le : miscWidth ≤ sAxisTdataWidth + 3

/-- The registers that change when a sample is accepted. -/
structure Regs (p : Params) where
  intMiscReg : BitVec p.miscWidth
  pulseCounter : BitVec 40
  keyLatch : Bool
  uartBuffer : BitVec 54
  uartPos : BitVec 8
  uartPrescaler : BitVec 6
  reflectBuffer : BitVec 40
  reflectPos : BitVec 8

structure State (p : Params) extends Regs p where
  intEnblReg : Bool

structure Input (p : Params) where
  sAxisTdata : BitVec p.sAxisTdataWidth
  sAxisTvalid : Bool
  mAxisTready : Bool

variable {p : Params}

/-! ## The UART buffer -/

/-- The assignments to `uart_buffer` at the beginning of every 16th pulse. -/
def loadUart (uartBuffer : BitVec 54) (pulseCounter : BitVec 40) :
    BitVec 54 :=
  let b := uartBuffer
  let b := assign b 0 0#1
  let b := assign b 1 (pulseCounter.extractLsb' 4 7)
  let b := assign b 8 1#1
  let b := assign b 9 1#1
  let b := assign b 10 1#1
  let b := assign b 11 0#1
  let b := assign b 12 (pulseCounter.extractLsb' 11 7)
  let b := assign b 20 1#1
  let b := assign b 21 1#1
  let b := assign b 22 0#1
  let b := assign b 23 (pulseCounter.extractLsb' 18 7)
  let b := assign b 31 1#1
  let b := assign b 32 1#1
  let b := assign b 33 0#1
  -- `[40:34] <= pulse_counter[32:25]`, eight bits for a slice of seven
  let b := assign b 34 ((pulseCounter.extractLsb' 25 8).setWidth 7)
  let b := assign b 42 1#1
  let b := assign b 43 1#1
  let b := assign b 44 0#1
  let b := assign b 45 (pulseCounter.extractLsb' 33 7)
  assign b 53 1#1

/-! ## An accepted sample -/

namespace Regs

variable (r : Regs p) (sAxisTdata : BitVec p.sAxisTdataWidth)

/-- `s_axis_tdata[S_AXIS_TDATA_WIDTH-1] & (~key_latch)` -/
def pulse : Bool :=
  sAxisTdata.getLsbD (p.sAxisTdataWidth - 1) && !r.keyLatch

/-- The beginning of every 16th pulse. -/
def groupStart : Bool :=
  r.pulse sAxisTdata && (r.pulseCounter.extractLsb' 0 4 == 0)

/-- `int_misc_reg` with the bits of the sample above the lowest three. -/
def miscNext : BitVec p.miscWidth :=
  let m := r.intMiscReg
  let m := assign m 3
    (sAxisTdata.extractLsb' (p.sAxisTdataWidth + 3 - p.miscWidth)
      (p.miscWidth - 3))
  let m := assign m 0 (BitVec.ofBool (r.uartBuffer.getLsbD r.uartPos.toNat))
  let m := assign m 1
    (BitVec.ofBool (r.reflectBuffer.getLsbD r.reflectPos.toNat))
  assign m 2 (BitVec.ofBool (r.reflectPos != 0))

/-- The body of `if(s_axis_tvalid & s_axis_tready)`. -/
def sample : Regs p where
  intMiscReg := r.miscNext sAxisTdata
  pulseCounter :=
    if r.pulse sAxisTdata then r.pulseCounter + 1 else r.pulseCounter
  keyLatch := sAxisTdata.getLsbD (p.sAxisTdataWidth - 1)
  uartBuffer :=
    if r.groupStart sAxisTdata then loadUart r.uartBuffer r.pulseCounter
    else r.uartBuffer
  uartPos :=
    if r.groupStart sAxisTdata then 0
    else if r.uartPrescaler = 62 then
      if r.uartPos < 53 then r.uartPos + 1 else r.uartPos
    else r.uartPos
  uartPrescaler :=
    if r.groupStart sAxisTdata then 0
    else if r.uartPrescaler < 62 then r.uartPrescaler + 1 else 0
  reflectBuffer :=
    if r.pulse sAxisTdata then r.pulseCounter else r.reflectBuffer
  reflectPos :=
    if r.pulse sAxisTdata then 0
    else if r.reflectPos < 39 then r.reflectPos + 1 else r.reflectPos

end Regs

/-! ## The clock edge -/

section Wires

variable (s : State p) (i : Input p)

def sAxisTready : Bool := s.intEnblReg && i.mAxisTready

def miscData : BitVec p.miscWidth := s.intMiscReg

def mAxisTdata : BitVec p.mAxisTdataWidth :=
  i.sAxisTdata.setWidth p.mAxisTdataWidth

def mAxisTvalid : Bool := s.intEnblReg && i.sAxisTvalid

end Wires

/-- The `always` block.  `int_misc_reg` and `reflect_buffer` have no reset. -/
def step (aresetn : Bool) (s : State p) (i : Input p) : State p :=
  if !aresetn then
    { s with
      intEnblReg := false
      pulseCounter := 0
      keyLatch := false
      uartPos := 0
      uartBuffer := 0
      uartPrescaler := 0
      reflectPos := 0 }
  else
    { toRegs :=
        if i.sAxisTvalid && sAxisTready s i then s.sample i.sAxisTdata
        else s.toRegs
      intEnblReg := true }

/-- An edge out of reset. -/
def next (s : State p) (i : Input p) : State p := step true s i

/-- The registers after an edge in reset. -/
structure State.IsReset (s : State p) : Prop where
  intEnblReg : s.intEnblReg = false
  pulseCounter : s.pulseCounter = 0
  keyLatch : s.keyLatch = false
  uartPos : s.uartPos = 0
  uartBuffer : s.uartBuffer = 0
  uartPrescaler : s.uartPrescaler = 0
  reflectPos : s.reflectPos = 0

theorem isReset_step (s : State p) (i : Input p) : (step false s i).IsReset :=
  ⟨rfl, rfl, rfl, rfl, rfl, rfl, rfl⟩

/-! ## Accepted samples -/

/-- `s_axis_tvalid & s_axis_tready` -/
def accepted (c : Cycle (State p) (Input p)) : Bool :=
  c.input.sAxisTvalid && sAxisTready c.state c.input

/-- The core neither keeps a sample back nor invents one. -/
theorem accepted_eq_forwarded (c : Cycle (State p) (Input p)) :
    accepted c = (mAxisTvalid c.state c.input && c.input.mAxisTready) := by
  cases hv : c.input.sAxisTvalid <;>
    simp [accepted, sAxisTready, mAxisTvalid, hv]

theorem toRegs_next_of_accepted {s : State p} {i : Input p}
    (h : accepted ⟨s, i⟩ = true) :
    (next s i).toRegs = s.sample i.sAxisTdata :=
  if_pos h

theorem toRegs_next_of_not_accepted {s : State p} {i : Input p}
    (h : accepted ⟨s, i⟩ = false) :
    (next s i).toRegs = s.toRegs :=
  if_neg (Bool.not_eq_true _ ▸ h)

/-- The sample of an accepted cycle and the registers it meets. -/
def sampled (c : Cycle (State p) (Input p)) :
    Cycle (Regs p) (BitVec p.sAxisTdataWidth) :=
  c.map State.toRegs Input.sAxisTdata

/-- The registers see the accepted samples and nothing else. -/
theorem map_sampled_eq_trace (s : State p) (inputs : List (Input p)) :
    ((trace next s inputs).filter accepted).map sampled =
      trace Regs.sample s.toRegs
        (((trace next s inputs).filter accepted).map
          fun c => c.input.sAxisTdata) :=
  trace_accepted State.toRegs Input.sAxisTdata accepted
    (fun _ _ => toRegs_next_of_not_accepted)
    (fun _ _ => toRegs_next_of_accepted) s inputs

end RedPitayaNotes.AxisMiscReader
