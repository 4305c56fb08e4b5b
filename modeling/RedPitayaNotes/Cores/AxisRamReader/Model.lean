import Mathlib.Data.Nat.Log
import RedPitayaNotes.Modules.Buffers
import RedPitayaNotes.Support.Fifo

/-!
# The axis_ram_reader core

`cores/axis_ram_reader.v` reads memory in bursts of 16 words into a FIFO and
streams them out.  One burst is in flight at a time: a pulse requests it when
the FIFO has room for it, a flag is kept until RLAST.  RREADY is always high.
The FIFO macro is a parameter.
-/

namespace RedPitayaNotes.AxisRamReader

open Clocked Elastic

/-- The widths of the module.  A beat of an AXI bus has a power of two of byte
lanes, and the FIFO macro has at least 16 words. -/
structure Params where
  addrWidth : ℕ := 16
  axiAddrWidth : ℕ := 32
  axiDataWidth : ℕ := 64
  fifoWriteDepth : ℕ := 512
  axi_lanes : ∃ n, axiDataWidth = 8 * 2 ^ n
  fifo_depth : 16 ≤ fifoWriteDepth

def Params.addrSize (p : Params) : ℕ := Nat.clog 2 (p.axiDataWidth / 8)

universe u v w

variable {α : Type u} {β : Type v}

structure State (p : Params) (fifo0 : CountedFifo.{u, v, w} α β) where
  intArvalidReg : Bool
  intRvalidReg : Bool
  intAddrReg : BitVec p.addrWidth
  fifo : fifo0.State
  buf0 : OutputBuffer (BitVec p.axiAddrWidth)

structure Input (p : Params) (α : Type u) where
  minAddr : BitVec p.axiAddrWidth
  cfgData : BitVec p.addrWidth
  mAxiArready : Bool
  mAxiRlast : Bool
  mAxiRdata : α
  mAxiRvalid : Bool
  mAxisTready : Bool

variable {p : Params} {fifo0 : CountedFifo.{u, v, w} α β}

/-! ## Wires -/

section Wires

variable (s : State p fifo0) (i : Input p α)

def intValidWire : Bool :=
  decide (fifo0.wrDataCount s.fifo < p.fifoWriteDepth - 15) && !s.intRvalidReg

def intArvalidWire : Bool := intValidWire s || s.intArvalidReg

def intArreadyWire : Bool := s.buf0.inReady i.mAxiArready

/-- `min_addr + {int_addr_reg, 4'd0, {(ADDR_SIZE){1'b0}}}` -/
def buf0InData : BitVec p.axiAddrWidth :=
  i.minAddr + (s.intAddrReg ++ 0#4 ++ 0#p.addrSize).setWidth p.axiAddrWidth

def stsData : BitVec p.addrWidth := s.intAddrReg

def mAxiRready : Bool := true

def mAxisTvalid : Bool := !fifo0.empty s.fifo

def mAxisTdata : β := fifo0.dout s.fifo

end Wires

/-! ## The clock edge -/

/-- The `always` block, the FIFO and the buffer.  Of two assignments to a
register the later one counts. -/
def step (aresetn : Bool) (s : State p fifo0) (i : Input p α) :
    State p fifo0 where
  intArvalidReg :=
    if !aresetn then false
    else if intArvalidWire s && intArreadyWire s i then false
    else if intValidWire s then true
    else s.intArvalidReg
  intRvalidReg :=
    if !aresetn then false
    -- RLAST counts whether or not RVALID is high
    else if i.mAxiRlast then false
    else if intValidWire s then true
    else s.intRvalidReg
  intAddrReg :=
    if !aresetn then 0
    else if intArvalidWire s && intArreadyWire s i then
      if s.intAddrReg < i.cfgData then s.intAddrReg + 1 else 0
    else s.intAddrReg
  fifo := fifo0.step (!aresetn) s.fifo i.mAxiRvalid i.mAxiRdata i.mAxisTready
  buf0 := s.buf0.step aresetn (buf0InData s i) (intArvalidWire s) i.mAxiArready

/-- An edge out of reset. -/
def next (s : State p fifo0) (i : Input p α) : State p fifo0 := step true s i

/-! ## Events of a cycle -/

section Events

variable (c : Cycle (State p fifo0) (Input p α))

/-- The pulse that starts a burst. -/
def started : Bool := intValidWire c.state

/-- The address taken by `buf_0`. -/
def requested : List (BitVec p.axiAddrWidth) :=
  transfer (intArvalidWire c.state) (intArreadyWire c.state c.input)
    (buf0InData c.state c.input)

/-- The transfer on the AR channel. -/
def arSent : List (BitVec p.axiAddrWidth) :=
  transfer c.state.buf0.outValid c.input.mAxiArready c.state.buf0.outData

/-- The beat on the R channel. -/
def beat : List α :=
  transfer c.input.mAxiRvalid mAxiRready c.input.mAxiRdata

/-- The word delivered on `m_axis`. -/
def delivered : List β :=
  transfer (mAxisTvalid c.state) c.input.mAxisTready (mAxisTdata c.state)

/-- RLAST without RVALID while a burst is in flight or starts. -/
def spuriousLast : Bool :=
  c.input.mAxiRlast && !c.input.mAxiRvalid &&
    (intValidWire c.state || c.state.intRvalidReg)

end Events

end RedPitayaNotes.AxisRamReader
