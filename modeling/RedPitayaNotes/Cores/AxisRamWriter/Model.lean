import Mathlib.Data.Nat.Log
import RedPitayaNotes.Modules.Buffers
import RedPitayaNotes.Support.Fifo

/-!
# The axis_ram_writer core

`cores/axis_ram_writer.v` collects a stream in a FIFO and writes it to memory in
bursts of 16 words.  A burst starts with a pulse; from there the address request
and the data beats go their own ways, each with a pending flag and an output
buffer.  The FIFO macro is a parameter.
-/

namespace RedPitayaNotes.AxisRamWriter

open Clocked Elastic

/-- The widths of the module.  A beat of an AXI bus has a power of two of byte
lanes. -/
structure Params where
  addrWidth : ℕ := 16
  axiAddrWidth : ℕ := 32
  axiDataWidth : ℕ := 64
  axi_lanes : ∃ n, axiDataWidth = 8 * 2 ^ n

def Params.addrSize (p : Params) : ℕ := Nat.clog 2 (p.axiDataWidth / 8)

universe u v w

variable {α : Type u} {β : Type v}

structure State (p : Params) (fifo0 : Fifo.{u, v, w} α β) where
  intAwvalidReg : Bool
  intWvalidReg : Bool
  intCntrReg : BitVec 4
  intAddrReg : BitVec p.addrWidth
  fifo : fifo0.State
  buf0 : OutputBuffer (BitVec p.axiAddrWidth)
  /-- `{int_wlast_wire, int_wdata_wire}` -/
  buf1 : OutputBuffer (Bool × β)

structure Input (p : Params) (α : Type u) where
  minAddr : BitVec p.axiAddrWidth
  cfgData : BitVec p.addrWidth
  mAxiAwready : Bool
  mAxiWready : Bool
  sAxisTdata : α
  sAxisTvalid : Bool

variable {p : Params} {fifo0 : Fifo.{u, v, w} α β}

/-! ## Wires -/

section Wires

variable (s : State p fifo0) (i : Input p α)

def intValidWire : Bool :=
  decide (fifo0.rdDataCount s.fifo > 15) && !s.intWvalidReg

def intAwvalidWire : Bool := intValidWire s || s.intAwvalidReg

def intWvalidWire : Bool := intValidWire s || s.intWvalidReg

def intAwreadyWire : Bool := s.buf0.inReady i.mAxiAwready

def intWreadyWire : Bool := s.buf1.inReady i.mAxiWready

def intRdenWire : Bool := intWvalidWire s && intWreadyWire s i

/-- `&int_cntr_reg` -/
def intWlastWire : Bool := s.intCntrReg == BitVec.allOnes 4

/-- `min_addr + {int_addr_reg, 4'd0, {(ADDR_SIZE){1'b0}}}` -/
def buf0InData : BitVec p.axiAddrWidth :=
  i.minAddr + (s.intAddrReg ++ 0#4 ++ 0#p.addrSize).setWidth p.axiAddrWidth

def buf1InData : Bool × β := (intWlastWire s, fifo0.dout s.fifo)

def stsData : BitVec p.addrWidth := s.intAddrReg

def sAxisTready : Bool := !fifo0.full s.fifo

end Wires

/-! ## The clock edge -/

/-- The `always` block, the FIFO and the two buffers.  Of two assignments to a
register the later one counts. -/
def step (aresetn : Bool) (s : State p fifo0) (i : Input p α) :
    State p fifo0 where
  intAwvalidReg :=
    if !aresetn then false
    else if intAwvalidWire s && intAwreadyWire s i then false
    else if intValidWire s then true
    else s.intAwvalidReg
  intWvalidReg :=
    if !aresetn then false
    else if intWreadyWire s i && intWlastWire s then false
    else if intValidWire s then true
    else s.intWvalidReg
  intCntrReg :=
    if !aresetn then 0
    else if intRdenWire s i then s.intCntrReg + 1
    else s.intCntrReg
  intAddrReg :=
    if !aresetn then 0
    else if intAwvalidWire s && intAwreadyWire s i then
      if s.intAddrReg < i.cfgData then s.intAddrReg + 1 else 0
    else s.intAddrReg
  fifo := fifo0.step (!aresetn) s.fifo i.sAxisTvalid i.sAxisTdata
    (intRdenWire s i)
  buf0 := s.buf0.step aresetn (buf0InData s i) (intAwvalidWire s) i.mAxiAwready
  buf1 := s.buf1.step aresetn (buf1InData s) (intWvalidWire s) i.mAxiWready

/-- An edge out of reset. -/
def next (s : State p fifo0) (i : Input p α) : State p fifo0 := step true s i

/-- The registers after an edge in reset. -/
structure State.IsReset (s : State p fifo0) : Prop where
  intAwvalidReg : s.intAwvalidReg = false
  intWvalidReg : s.intWvalidReg = false
  intCntrReg : s.intCntrReg = 0
  intAddrReg : s.intAddrReg = 0
  buf0 : s.buf0.outValid = false
  buf1 : s.buf1.outValid = false

theorem isReset_step (s : State p fifo0) (i : Input p α) :
    (step false s i).IsReset :=
  ⟨rfl, rfl, rfl, rfl, rfl, rfl⟩

/-! ## Events of a cycle -/

section Events

variable (c : Cycle (State p fifo0) (Input p α))

/-- The pulse that starts a burst. -/
def started : Bool := intValidWire c.state

/-- The pulse comes while the address of the burst before it is pending. -/
def merged : Bool := intValidWire c.state && c.state.intAwvalidReg

/-- The address taken by `buf_0`. -/
def requested : List (BitVec p.axiAddrWidth) :=
  transfer (intAwvalidWire c.state) (intAwreadyWire c.state c.input)
    (buf0InData c.state c.input)

/-- The transfer on the AW channel. -/
def awSent : List (BitVec p.axiAddrWidth) :=
  transfer c.state.buf0.outValid c.input.mAxiAwready c.state.buf0.outData

/-- The beat taken by `buf_1`. -/
def beatTaken : List (Bool × β) :=
  transfer (intWvalidWire c.state) (intWreadyWire c.state c.input)
    (buf1InData c.state)

/-- The transfer on the W channel, `m_axi_wlast` first. -/
def wSent : List (Bool × β) :=
  transfer c.state.buf1.outValid c.input.mAxiWready c.state.buf1.outData

end Events

end RedPitayaNotes.AxisRamWriter
