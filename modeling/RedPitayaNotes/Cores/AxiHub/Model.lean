import Mathlib.Data.Nat.Log
import RedPitayaNotes.Modules.Buffers
import RedPitayaNotes.Support.Bits

/-!
# The axi_hub core

`cores/axi_hub.v` joins one AXI slave port to a configuration register, a
status register, six BRAM ports, six incoming and six outgoing streams.  The
wires below carry the names of the source; the six numbered port groups
`b00`..`b05`, `s00`..`s05` and `m00`..`m05` are the values of the index `j`, as
in the `int_*data_wire[j]` arrays they are assigned to.
-/

namespace RedPitayaNotes.AxiHub

open Clocked

/-- The parameters of the module. -/
structure Params where
  cfgDataWidth : ℕ := 1024
  stsDataWidth : ℕ := 1024

abbrev hubSize : ℕ := 6

namespace Params

variable (p : Params)

def cfgSize : ℕ := p.cfgDataWidth / 32

def cfgWidth : ℕ := if p.cfgSize > 1 then Nat.clog 2 p.cfgSize else 1

def stsSize : ℕ := p.stsDataWidth / 32

def stsWidth : ℕ := if p.stsSize > 1 then Nat.clog 2 p.stsSize else 1

end Params

/-! ## Words carried by the buffers -/

/-- `{s_axi_awid, s_axi_awaddr}` -/
structure AwWord where
  awid : BitVec 12
  awaddr : BitVec 32
deriving DecidableEq, Repr

/-- `{s_axi_wstrb, s_axi_wlast, s_axi_wdata}` -/
structure WWord where
  wstrb : BitVec 4
  wlast : Bool
  wdata : BitVec 32
deriving DecidableEq, Repr

/-- `{s_axi_arid, s_axi_arlen, s_axi_araddr}` -/
structure ArWord where
  arid : BitVec 12
  arlen : BitVec 4
  araddr : BitVec 32
deriving DecidableEq, Repr

/-- `{int_bsel_wire, s_axi_rid, s_axi_rlast, int_rdata_wire[1]}` -/
structure RWord where
  bsel : Fin hubSize → Bool
  rid : BitVec 12
  rlast : Bool
  rdata : BitVec 32

/-! ## Registers and ports -/

structure State (p : Params) where
  intAwcntrReg : BitVec 4
  intArcntrReg : BitVec 4
  cfgData : Fin p.cfgSize → BitVec 32
  buf0 : InoutBuffer AwWord
  buf1 : InoutBuffer WWord
  buf2 : OutputBuffer (BitVec 12)
  buf3 : InoutBuffer ArWord
  buf4 : OutputBuffer RWord
  mbuf : Fin hubSize → InoutBuffer (BitVec 32)

structure Input (p : Params) where
  sAxiAwid : BitVec 12
  sAxiAwaddr : BitVec 32
  sAxiAwvalid : Bool
  sAxiWstrb : BitVec 4
  sAxiWlast : Bool
  sAxiWdata : BitVec 32
  sAxiWvalid : Bool
  sAxiBready : Bool
  sAxiArid : BitVec 12
  sAxiArlen : BitVec 4
  sAxiAraddr : BitVec 32
  sAxiArvalid : Bool
  sAxiRready : Bool
  stsData : Fin p.stsSize → BitVec 32
  bramRdata : Fin hubSize → BitVec 32
  sAxisTdata : Fin hubSize → BitVec 32
  sAxisTvalid : Fin hubSize → Bool
  mAxisTready : Fin hubSize → Bool
  /-- What an array select with an index past the last element reads. -/
  outOfRange : BitVec 32

namespace Input

variable {p : Params} (i : Input p)

def aw : AwWord := ⟨i.sAxiAwid, i.sAxiAwaddr⟩

def w : WWord := ⟨i.sAxiWstrb, i.sAxiWlast, i.sAxiWdata⟩

def ar : ArWord := ⟨i.sAxiArid, i.sAxiArlen, i.sAxiAraddr⟩

/-- Nothing offered, nothing taken. -/
def idle : Input p where
  sAxiAwid := 0
  sAxiAwaddr := 0
  sAxiAwvalid := false
  sAxiWstrb := 0
  sAxiWlast := false
  sAxiWdata := 0
  sAxiWvalid := false
  sAxiBready := false
  sAxiArid := 0
  sAxiArlen := 0
  sAxiAraddr := 0
  sAxiArvalid := false
  sAxiRready := false
  stsData _ := 0
  bramRdata _ := 0
  sAxisTdata _ := 0
  sAxisTvalid _ := false
  mAxisTready _ := false
  outOfRange := 0

end Input

section Wires

variable {p : Params} (s : State p) (i : Input p)

/-! ## Handshakes and addresses -/

def intAwvalidWire : Bool := s.buf0.outValid

def intAwWire : AwWord := s.buf0.outData

def intWvalidWire : Bool := s.buf1.outValid

def intWWire : WWord := s.buf1.outData

def intWlastWire : Bool := (intWWire s).wlast

def intBreadyWire : Bool := s.buf2.inReady i.sAxiBready

def intArvalidWire : Bool := s.buf3.outValid

def intArWire : ArWord := s.buf3.outData

def intRreadyWire : Bool := s.buf4.inReady i.sAxiRready

def intAwreadyWire : Bool :=
  intBreadyWire s i && intWvalidWire s && intWlastWire s

def intWreadyWire : Bool := intBreadyWire s i && intAwvalidWire s

def intBvalidWire : Bool :=
  intAwvalidWire s && intWvalidWire s && intWlastWire s

def intRlastWire : Bool := s.intArcntrReg == (intArWire s).arlen

def intArreadyWire : Bool := intRreadyWire s i && intRlastWire s

def intRvalidWire : Bool := intArvalidWire s

def intWeWire : Bool :=
  intBreadyWire s i && intAwvalidWire s && intWvalidWire s

def intReWire : Bool := intRreadyWire s i && intArvalidWire s

/-- `addr[23:2]` -/
def wordAddr (addr : BitVec 32) : BitVec 22 := addr.extractLsb' 2 22

/-- `addr[27:24]` -/
def target (addr : BitVec 32) : ℕ := (addr.extractLsb' 24 4).toNat

def intWaddrWire : BitVec 22 :=
  wordAddr (intAwWire s).awaddr + s.intAwcntrReg.setWidth 22

def intRaddrWire : BitVec 22 :=
  wordAddr (intArWire s).araddr + s.intArcntrReg.setWidth 22

/-! ## SELECTS, MUXES and CFG_WORDS -/

def intWselWire (j : ℕ) : Bool :=
  intWeWire s i && target (intAwWire s).awaddr == j

def intRselWire (j : ℕ) : Bool :=
  intReWire s i && target (intArWire s).araddr == j

def intCfgMux (k : ℕ) : BitVec 32 :=
  if h : k < p.cfgSize then s.cfgData ⟨k, h⟩ else i.outOfRange

def intStsMux (k : ℕ) : BitVec 32 :=
  if h : k < p.stsSize then i.stsData ⟨k, h⟩ else i.outOfRange

/-- `int_rdata_mux[j]`; the array has `MUX_SIZE = HUB_SIZE + 2` elements. -/
def intRdataMux : ℕ → BitVec 32
  | 0 => intCfgMux s i ((intRaddrWire s).extractLsb' 0 p.cfgWidth).toNat
  | 1 => intStsMux i ((intRaddrWire s).extractLsb' 0 p.stsWidth).toNat
  | j + 2 =>
      if h : j < hubSize then
        if i.sAxisTvalid ⟨j, h⟩ then i.sAxisTdata ⟨j, h⟩ else 0
      else i.outOfRange

def intRdataWire0 : BitVec 32 :=
  intRdataMux s i (target (intArWire s).araddr)

/-- `int_rdata_wire[j+2]` -/
def intRdataWire (j : Fin hubSize) : BitVec 32 :=
  if s.buf4.outData.bsel j then i.bramRdata j else 0

def intCeWire (j : Fin p.cfgSize) : Bool :=
  intWselWire s i 0 &&
    ((intWaddrWire s).extractLsb' 0 p.cfgWidth).toNat == j.val

/-- The flip-flops `FDRE_inst` of configuration word `j`. -/
def cfgDataNext (j : Fin p.cfgSize) : BitVec 32 :=
  Bits.ofFn fun k : Fin 32 =>
    if intCeWire s i j && (intWWire s).wstrb.getLsbD (k / 8) then
      (intWWire s).wdata.getLsbD k
    else (s.cfgData j).getLsbD k

/-! ## Beat counters -/

/-- The combinational block assigns twice; the increment comes last. -/
def intAwcntrNext : BitVec 4 :=
  if !intWlastWire s && intWeWire s i then s.intAwcntrReg + 1
  else if intAwvalidWire s && intAwreadyWire s i then 0
  else s.intAwcntrReg

def intArcntrNext : BitVec 4 :=
  if !intRlastWire s && intReWire s i then s.intArcntrReg + 1
  else if intArvalidWire s && intArreadyWire s i then 0
  else s.intArcntrReg

/-! ## Ports -/

def sAxiAwready : Bool := s.buf0.inReady

def sAxiWready : Bool := s.buf1.inReady

def sAxiBid : BitVec 12 := s.buf2.outData

def sAxiBvalid : Bool := s.buf2.outValid

def sAxiArready : Bool := s.buf3.inReady

def sAxiRid : BitVec 12 := s.buf4.outData.rid

def sAxiRlast : Bool := s.buf4.outData.rlast

def sAxiRvalid : Bool := s.buf4.outValid

def sAxiRdata : BitVec 32 :=
  s.buf4.outData.rdata ||| intRdataWire s i 0 ||| intRdataWire s i 1 |||
    intRdataWire s i 2 ||| intRdataWire s i 3 ||| intRdataWire s i 4 |||
    intRdataWire s i 5

variable (j : Fin hubSize)

def bramEn : Bool := intRselWire s i (j + 2) || intWselWire s i (j + 2)

def bramWe : BitVec 4 :=
  if intWselWire s i (j + 2) then (intWWire s).wstrb else 0

def bramAddr : BitVec 22 :=
  if intWeWire s i then intWaddrWire s else intRaddrWire s

def bramWdata : BitVec 32 := (intWWire s).wdata

def sAxisTready : Bool := intRselWire s i (j + 2)

def mAxisTdata : BitVec 32 := (s.mbuf j).outData

def mAxisTvalid : Bool := (s.mbuf j).outValid

/-! ## Clock edge -/

/-- The word `buf_4` is offered. -/
def rIn : RWord where
  bsel j := intRselWire s i (j + 2) && !i.sAxisTvalid j
  rid := (intArWire s).arid
  rlast := intRlastWire s
  rdata := intRdataWire0 s i

def step (aresetn : Bool) : State p where
  intAwcntrReg := if !aresetn then 0 else intAwcntrNext s i
  intArcntrReg := if !aresetn then 0 else intArcntrNext s i
  cfgData j := if !aresetn then 0 else cfgDataNext s i j
  buf0 := s.buf0.step aresetn i.aw i.sAxiAwvalid (intAwreadyWire s i)
  buf1 := s.buf1.step aresetn i.w i.sAxiWvalid (intWreadyWire s i)
  buf2 := s.buf2.step aresetn (intAwWire s).awid (intBvalidWire s) i.sAxiBready
  buf3 := s.buf3.step aresetn i.ar i.sAxiArvalid (intArreadyWire s i)
  buf4 := s.buf4.step aresetn (rIn s i) (intRvalidWire s) i.sAxiRready
  mbuf j := (s.mbuf j).step aresetn (intWWire s).wdata
    (intWselWire s i (j + 2)) (i.mAxisTready j)

end Wires

/-- A cycle out of reset. -/
def next {p : Params} (s : State p) (i : Input p) : State p := step s i true

/-- The control state reset leaves; data registers are not reset. -/
structure State.IsReset {p : Params} (s : State p) : Prop where
  intAwcntrReg : s.intAwcntrReg = 0
  intArcntrReg : s.intArcntrReg = 0
  cfgData : ∀ j, s.cfgData j = 0
  buf0 : s.buf0.IsReset
  buf1 : s.buf1.IsReset
  buf2 : s.buf2.outValid = false
  buf3 : s.buf3.IsReset
  buf4 : s.buf4.outValid = false
  mbuf : ∀ j, (s.mbuf j).IsReset

/-- One cycle with `aresetn` low puts the core in the reset state. -/
theorem isReset_step {p : Params} (s : State p) (i : Input p) :
    (step s i false).IsReset where
  intAwcntrReg := rfl
  intArcntrReg := rfl
  cfgData _ := rfl
  buf0 := InoutBuffer.isReset_step _ _ _ _
  buf1 := InoutBuffer.isReset_step _ _ _ _
  buf2 := rfl
  buf3 := InoutBuffer.isReset_step _ _ _ _
  buf4 := rfl
  mbuf _ := InoutBuffer.isReset_step _ _ _ _

/-- The registers after reset, the data registers at zero. -/
def State.cleared (p : Params) : State p where
  intAwcntrReg := 0
  intArcntrReg := 0
  cfgData _ := 0
  buf0 := .cleared ⟨0, 0⟩
  buf1 := .cleared ⟨0, false, 0⟩
  buf2 := ⟨0, false⟩
  buf3 := .cleared ⟨0, 0, 0⟩
  buf4 := ⟨⟨fun _ => false, 0, false, 0⟩, false⟩
  mbuf _ := .cleared 0

theorem State.isReset_cleared (p : Params) : (State.cleared p).IsReset where
  intAwcntrReg := rfl
  intArcntrReg := rfl
  cfgData _ := rfl
  buf0 := InoutBuffer.isReset_cleared _
  buf1 := InoutBuffer.isReset_cleared _
  buf2 := rfl
  buf3 := InoutBuffer.isReset_cleared _
  buf4 := rfl
  mbuf _ := InoutBuffer.isReset_cleared _

end RedPitayaNotes.AxiHub
