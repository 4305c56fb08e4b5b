import RedPitayaNotes.Modules.Buffers
import RedPitayaNotes.Support.Dsp48

/-!
# The axis_iir_filter core

`cores/axis_iir_filter.v`: a product, two accumulating slices and a limiter.
Five buffers without data carry the valid bits beside the slices, whose clock
enables are the ready signals alone.  A word that is not valid goes through the
slices as well, and the feedback of the last two keeps what it does.
-/

namespace RedPitayaNotes.AxisIirFilter

open Clocked Elastic Dsp48

/-- The registers of `dsp_0`. -/
structure Dsp0 where
  a : BitVec 30
  b : BitVec 18
  m : BitVec 48
  p : BitVec 48

structure State where
  buffers0 : OutputBuffer Unit
  buffers1 : OutputBuffer Unit
  buffers2 : OutputBuffer Unit
  buffers3 : OutputBuffer Unit
  buffers4 : OutputBuffer Unit
  buf0 : InoutBuffer (BitVec 16)
  dsp0 : Dsp0
  dsp1 : BitVec 48
  dsp2 : BitVec 48

structure Input where
  cfgData : BitVec 80
  sAxisTdata : BitVec 16
  sAxisTvalid : Bool
  mAxisTready : Bool

/-- Port A of `dsp_0`. -/
def portA (sAxisTdata : BitVec 16) : BitVec 30 :=
  sAxisTdata.signExtend 21 ++ 0#9

/-- A field of `cfg_data` at port B, which is two bits wider. -/
def portB (cfgData : BitVec 80) (lo : ℕ) : BitVec 18 :=
  (cfgData.extractLsb' lo 16).setWidth 18

/-- What `dsp_1` and `dsp_2` load: `C` and the product of the upper bits of their
own sum. -/
def accumulate (b : BitVec 18) (p c : BitVec 48) : BitVec 48 :=
  c + mul (p.extractLsb' 16 30) b

/-- `int_data_wire`, of the sum of `dsp_2`. -/
def intDataWire (cfgData : BitVec 80) (p : BitVec 48) : BitVec 16 :=
  let low := cfgData.extractLsb' 48 16
  let high := cfgData.extractLsb' 64 16
  if (p.extractLsb' 25 23).slt (low.signExtend 23) then low
  else if (high.signExtend 23).slt (p.extractLsb' 25 23) then high
  else p.extractLsb' 25 16

section Wires

variable (s : State)

def intReadyWire5 : Bool := s.buf0.inReady

def intReadyWire4 : Bool := s.buffers4.inReady (intReadyWire5 s)

def intReadyWire3 : Bool := s.buffers3.inReady (intReadyWire4 s)

def intReadyWire2 : Bool := s.buffers2.inReady (intReadyWire3 s)

def intReadyWire1 : Bool := s.buffers1.inReady (intReadyWire2 s)

/-- `s_axis_tready` -/
def intReadyWire0 : Bool := s.buffers0.inReady (intReadyWire1 s)

end Wires

/-- The buffers and the slices; the slices have no reset. -/
def step (aresetn : Bool) (s : State) (i : Input) : State where
  buffers0 := s.buffers0.step aresetn () i.sAxisTvalid (intReadyWire1 s)
  buffers1 := s.buffers1.step aresetn () s.buffers0.outValid (intReadyWire2 s)
  buffers2 := s.buffers2.step aresetn () s.buffers1.outValid (intReadyWire3 s)
  buffers3 := s.buffers3.step aresetn () s.buffers2.outValid (intReadyWire4 s)
  buffers4 := s.buffers4.step aresetn () s.buffers3.outValid (intReadyWire5 s)
  buf0 := s.buf0.step aresetn (intDataWire i.cfgData s.dsp2)
    s.buffers4.outValid i.mAxisTready
  dsp0 := {
    a := if intReadyWire0 s then portA i.sAxisTdata else s.dsp0.a
    b := if intReadyWire0 s then portB i.cfgData 0 else s.dsp0.b
    m := if intReadyWire1 s then mul s.dsp0.a s.dsp0.b else s.dsp0.m
    p := if intReadyWire2 s then s.dsp0.m else s.dsp0.p }
  dsp1 :=
    if intReadyWire3 s then accumulate (portB i.cfgData 16) s.dsp1 s.dsp0.p
    else s.dsp1
  dsp2 :=
    if intReadyWire4 s then accumulate (portB i.cfgData 32) s.dsp2 s.dsp1
    else s.dsp2

/-- An edge out of reset. -/
def next (s : State) (i : Input) : State := step true s i

section Events

variable (c : Cycle State Input)

/-- The sample accepted on `s_axis`. -/
def accepted : List (BitVec 16) :=
  transfer c.input.sAxisTvalid (intReadyWire0 c.state) c.input.sAxisTdata

/-- The word transferred on `m_axis`. -/
def transferred : List (BitVec 16) :=
  transfer c.state.buf0.outValid c.input.mAxisTready c.state.buf0.outData

/-- A word that is not valid and goes through an accumulating slice leaves it as
it is. -/
structure Harmless : Prop where
  dsp1 : intReadyWire3 c.state = true → c.state.buffers2.outValid = false →
    accumulate (portB c.input.cfgData 16) c.state.dsp1 c.state.dsp0.p =
      c.state.dsp1
  dsp2 : intReadyWire4 c.state = true → c.state.buffers3.outValid = false →
    accumulate (portB c.input.cfgData 32) c.state.dsp2 c.state.dsp1 =
      c.state.dsp2

instance : Decidable (Harmless c) :=
  decidable_of_iff (_ ∧ _) ⟨fun h => ⟨h.1, h.2⟩, fun h => ⟨h.dsp1, h.dsp2⟩⟩

end Events

/-! ## The words in flight -/

section Todo

variable (cfg : BitVec 80) (s : State) (xs : List (BitVec 16))

/-- The words of the registers A and B when `xs` is still to come, and then those
of M and of the sums. -/
def todoA : List (BitVec 30 × BitVec 18) :=
  held s.buffers0.outValid (s.dsp0.a, s.dsp0.b) ++
    xs.map fun x => (portA x, portB cfg 0)

def todoM : List (BitVec 48) :=
  held s.buffers1.outValid s.dsp0.m ++
    (todoA cfg s xs).map fun ab => mul ab.1 ab.2

def todoP0 : List (BitVec 48) :=
  held s.buffers2.outValid s.dsp0.p ++ (todoM cfg s xs).map id

def todoP1 : List (BitVec 48) :=
  held s.buffers3.outValid s.dsp1 ++
    outputs (accumulate (portB cfg 16)) s.dsp1 (todoP0 cfg s xs)

def todoP2 : List (BitVec 48) :=
  held s.buffers4.outValid s.dsp2 ++
    outputs (accumulate (portB cfg 32)) s.dsp2 (todoP1 cfg s xs)

/-- The words still to be transferred on `m_axis`. -/
def todo : List (BitVec 16) :=
  s.buf0.contents ++ (todoP2 cfg s xs).map (intDataWire cfg)

end Todo

/-! ## One cycle of each stage -/

section Stages

variable {cfg : BitVec 80} {s : State} {i : Input} (xs : List (BitVec 16))

theorem todoA_next (hcfg : i.cfgData = cfg) :
    todoA cfg s (accepted ⟨s, i⟩ ++ xs) =
      transfer s.buffers0.outValid (intReadyWire1 s) (s.dsp0.a, s.dsp0.b) ++
        todoA cfg (next s i) xs := by
  have hpair : ((next s i).dsp0.a, (next s i).dsp0.b) =
      if intReadyWire0 s then (portA i.sAxisTdata, portB cfg 0)
      else (s.dsp0.a, s.dsp0.b) := by
    subst hcfg
    change (if intReadyWire0 s then _ else _, if intReadyWire0 s then _ else _) = _
    split <;> rfl
  have hstage : todoA cfg s (accepted ⟨s, i⟩ ++ xs) = _ :=
    held_map (fun x => (portA x, portB cfg 0))
      (show intReadyWire0 s = (!s.buffers0.outValid || intReadyWire1 s) from rfl)
      xs
  rw [← hpair] at hstage
  exact hstage

theorem todoM_next (hcfg : i.cfgData = cfg) :
    todoM cfg s (accepted ⟨s, i⟩ ++ xs) =
      transfer s.buffers1.outValid (intReadyWire2 s) s.dsp0.m ++
        todoM cfg (next s i) xs := by
  rw [todoM, todoA_next xs hcfg]
  exact held_map (fun ab : BitVec 30 × BitVec 18 => mul ab.1 ab.2)
    (show intReadyWire1 s = (!s.buffers1.outValid || intReadyWire2 s) from rfl) _

theorem todoP0_next (hcfg : i.cfgData = cfg) :
    todoP0 cfg s (accepted ⟨s, i⟩ ++ xs) =
      transfer s.buffers2.outValid (intReadyWire3 s) s.dsp0.p ++
        todoP0 cfg (next s i) xs := by
  rw [todoP0, todoM_next xs hcfg]
  exact held_map id
    (show intReadyWire2 s = (!s.buffers2.outValid || intReadyWire3 s) from rfl) _

theorem todoP1_next (hcfg : i.cfgData = cfg) (h : Harmless ⟨s, i⟩) :
    todoP1 cfg s (accepted ⟨s, i⟩ ++ xs) =
      transfer s.buffers3.outValid (intReadyWire4 s) s.dsp1 ++
        todoP1 cfg (next s i) xs := by
  subst hcfg
  rw [todoP1, todoP0_next xs rfl]
  exact held_outputs (accumulate (portB i.cfgData 16))
    (show intReadyWire3 s = (!s.buffers3.outValid || intReadyWire4 s) from rfl)
    (fun hready hvalid _ => congrArg (outputs _ · _) (h.dsp1 hready hvalid)) _

theorem todoP2_next (hcfg : i.cfgData = cfg) (h : Harmless ⟨s, i⟩) :
    todoP2 cfg s (accepted ⟨s, i⟩ ++ xs) =
      transfer s.buffers4.outValid (intReadyWire5 s) s.dsp2 ++
        todoP2 cfg (next s i) xs := by
  subst hcfg
  rw [todoP2, todoP1_next xs rfl h]
  exact held_outputs (accumulate (portB i.cfgData 32))
    (show intReadyWire4 s = (!s.buffers4.outValid || intReadyWire5 s) from rfl)
    (fun hready hvalid _ => congrArg (outputs _ · _) (h.dsp2 hready hvalid)) _

theorem todo_next (hcfg : i.cfgData = cfg) (h : Harmless ⟨s, i⟩) :
    todo cfg s (accepted ⟨s, i⟩ ++ xs) =
      transferred ⟨s, i⟩ ++ todo cfg (next s i) xs := by
  subst hcfg
  have hlossless : s.buf0.contents ++
      transfer s.buffers4.outValid (intReadyWire5 s)
        (intDataWire i.cfgData s.dsp2) =
      transferred ⟨s, i⟩ ++ (next s i).buf0.contents :=
    s.buf0.step_lossless _ _ _
  rw [todo, todoP2_next xs rfl h, List.map_append, map_transfer,
    ← List.append_assoc, hlossless, List.append_assoc]
  rfl

end Stages

/-- Without harm from words that are not valid, what is transferred is the
beginning of a list that only the accepted samples determine. -/
theorem transferred_of_accepted {cfg : BitVec 80} {s : State} {inputs : List Input}
    (hcfg : ∀ i ∈ inputs, i.cfgData = cfg)
    (hharmless : ∀ c ∈ trace next s inputs, Harmless c) :
    (trace next s inputs).flatMap transferred <+:
      todo cfg s ((trace next s inputs).flatMap accepted) := by
  have hok : ∀ c ∈ trace next s inputs, c.input.cfgData = cfg ∧ Harmless c :=
    fun c hc => ⟨forall_trace_input _ _ hcfg c hc, hharmless c hc⟩
  have hrun := run_emits_of _ (todo cfg) accepted transferred
    (fun s i h xs => todo_next xs h.1 h.2) inputs hok []
  rw [List.append_nil] at hrun
  exact ⟨_, hrun.symm⟩

/-- Two runs that accept the same samples with different gaps and stalls transfer
the same words, if the words that are not valid leave the accumulating slices as
they are. -/
theorem transferred_comparable {cfg : BitVec 80} {s : State}
    {inputs inputs' : List Input}
    (hcfg : ∀ i ∈ inputs, i.cfgData = cfg)
    (hcfg' : ∀ i ∈ inputs', i.cfgData = cfg)
    (hharmless : ∀ c ∈ trace next s inputs, Harmless c)
    (hharmless' : ∀ c ∈ trace next s inputs', Harmless c)
    (hsame : (trace next s inputs).flatMap accepted =
      (trace next s inputs').flatMap accepted) :
    (trace next s inputs).flatMap transferred <+:
        (trace next s inputs').flatMap transferred ∨
      (trace next s inputs').flatMap transferred <+:
        (trace next s inputs).flatMap transferred := by
  have hrun := transferred_of_accepted hcfg hharmless
  rw [hsame] at hrun
  exact List.prefix_or_prefix_of_prefix hrun (transferred_of_accepted hcfg' hharmless')

section Examples

/-- Feedback of one half in `dsp_1`, and no limits. -/
def halfFeedback : BitVec 80 := 0x7fff8000000080008000

/-- The state after configuration and reset. -/
def cleared : State :=
  ⟨⟨(), false⟩, ⟨(), false⟩, ⟨(), false⟩, ⟨(), false⟩, ⟨(), false⟩, .cleared 0,
    ⟨0, 0, 0, 0⟩, 0, 0⟩

def sample (x : BitVec 16) : Input := ⟨halfFeedback, x, true, true⟩

def gap : Input := ⟨halfFeedback, 0, false, true⟩

/-- Samples in a row, and the same ones after a gap and with a stall. -/
theorem transferred_comparable_stalled :
    let inputs := (List.range 9).map fun k => sample (BitVec.ofNat 16 (k * 99))
    let inputs' := List.replicate 2 gap ++
      inputs.mapIdx fun k i => { i with mAxisTready := decide (k ≠ 8) }
    (trace next cleared inputs).flatMap transferred <+:
        (trace next cleared inputs').flatMap transferred ∨
      (trace next cleared inputs').flatMap transferred <+:
        (trace next cleared inputs).flatMap transferred := by
  intro inputs inputs'
  have hcfg : ∀ i ∈ inputs, i.cfgData = halfFeedback := by decide +kernel
  have hcfg' : ∀ i ∈ inputs', i.cfgData = halfFeedback := by decide +kernel
  exact transferred_comparable hcfg hcfg' (by decide +kernel)
    (by decide +kernel) (by decide +kernel)

/-- A gap between two samples goes through `dsp_1` and halves what it has kept of
the first. -/
theorem not_transferred_comparable :
    ¬∀ (cfg : BitVec 80) (s : State) (inputs inputs' : List Input),
      (∀ i ∈ inputs ++ inputs', i.cfgData = cfg) →
      (trace next s inputs).flatMap accepted =
        (trace next s inputs').flatMap accepted →
      (trace next s inputs).flatMap transferred <+:
          (trace next s inputs').flatMap transferred ∨
        (trace next s inputs').flatMap transferred <+:
          (trace next s inputs).flatMap transferred := by
  intro h
  have hgap := h halfFeedback cleared
    ([sample 0x400, sample 0x400] ++ List.replicate 6 gap)
    ([sample 0x400, gap, sample 0x400] ++ List.replicate 6 gap)
    (by decide +kernel) (by decide +kernel)
  revert hgap
  decide +kernel

end Examples

end RedPitayaNotes.AxisIirFilter
