import Mathlib.Algebra.BigOperators.Group.List.Basic
import Mathlib.Data.BitVec
import RedPitayaNotes.Support.Blocks
import RedPitayaNotes.Support.Counters
import RedPitayaNotes.Support.Elastic

/-!
# The axis_accumulator and axis_decimator cores

`cores/axis_accumulator.v` sums blocks of `cfg_data + 1` samples and
`cores/axis_decimator.v` keeps the last sample of each.  Both are collectors:
the result of a block waits in a register whose valid flag is set by a new
result and cleared, with the later assignment, by the acceptance of the old one.
-/

namespace RedPitayaNotes

open Clocked Elastic Blocks Counters

/-! ## axis_accumulator -/

namespace AxisAccumulator

structure Params where
  sAxisTdataWidth : ℕ := 16
  mAxisTdataWidth : ℕ := 32
  cntrWidth : ℕ := 16
  axisTdataSigned : Bool := false
  continuous : Bool := false

structure State (p : Params) where
  intTdataReg : BitVec p.mAxisTdataWidth
  intAccuReg : BitVec p.mAxisTdataWidth
  intCntrReg : BitVec p.cntrWidth
  intTvalidReg : Bool
  intTreadyReg : Bool

structure Input (p : Params) where
  cfgData : BitVec p.cntrWidth
  sAxisTdata : BitVec p.sAxisTdataWidth
  sAxisTvalid : Bool
  mAxisTready : Bool

variable {p : Params}

/-- A sample as the adder extends it. -/
def extend (p : Params) (x : BitVec p.sAxisTdataWidth) :
    BitVec p.mAxisTdataWidth :=
  if p.axisTdataSigned then x.signExtend p.mAxisTdataWidth
  else x.setWidth p.mAxisTdataWidth

section Wires

variable (s : State p) (i : Input p)

def intCompWire : Bool := decide (s.intCntrReg < i.cfgData)

def intTvalidWire : Bool := s.intTreadyReg && i.sAxisTvalid

def sumAccuWire : BitVec p.mAxisTdataWidth :=
  s.intAccuReg + extend p i.sAxisTdata

end Wires

/-- The `always` blocks `CONTINUE` and `STOP`.  Of two assignments to a register
the later one counts. -/
def step (aresetn : Bool) (s : State p) (i : Input p) : State p where
  intTdataReg :=
    if !aresetn then 0
    else if intTvalidWire s i && !intCompWire s i then sumAccuWire s i
    else s.intTdataReg
  intTvalidReg :=
    if !aresetn then false
    else if i.mAxisTready && s.intTvalidReg then false
    else if intTvalidWire s i && !intCompWire s i then true
    else s.intTvalidReg
  intTreadyReg :=
    if !aresetn then false
    else if !p.continuous && (intTvalidWire s i && !intCompWire s i) then false
    else if !s.intTreadyReg && intCompWire s i then true
    else s.intTreadyReg
  intAccuReg :=
    if !aresetn then 0
    else if p.continuous && (intTvalidWire s i && !intCompWire s i) then 0
    else if intTvalidWire s i && intCompWire s i then sumAccuWire s i
    else s.intAccuReg
  intCntrReg :=
    if !aresetn then 0
    else if p.continuous && (intTvalidWire s i && !intCompWire s i) then 0
    else if intTvalidWire s i && intCompWire s i then s.intCntrReg + 1
    else s.intCntrReg

def next (s : State p) (i : Input p) : State p := step true s i

/-- The registers after an edge in reset. -/
def reset (p : Params) : State p := ⟨0, 0, 0, false, false⟩

theorem step_reset (s : State p) (i : Input p) : step false s i = reset p := rfl

/-- The samples accepted on `s_axis`. -/
def accepted (c : Cycle (State p) (Input p)) :
    List (BitVec p.sAxisTdataWidth) :=
  transfer c.input.sAxisTvalid c.state.intTreadyReg c.input.sAxisTdata

/-- The words transferred on `m_axis`. -/
def delivered (c : Cycle (State p) (Input p)) :
    List (BitVec p.mAxisTdataWidth) :=
  transfer c.state.intTvalidReg c.input.mAxisTready c.state.intTdataReg

/-- The word offered on `m_axis`. -/
def offered (s : State p) : List (BitVec p.mAxisTdataWidth) :=
  if s.intTvalidReg then [s.intTdataReg] else []

/-- The cycle ends a block. -/
def produces (c : Cycle (State p) (Input p)) : Bool :=
  intTvalidWire c.state c.input && !intCompWire c.state c.input

end AxisAccumulator

/-! ## axis_decimator -/

namespace AxisDecimator

structure Params where
  axisTdataWidth : ℕ := 32
  cntrWidth : ℕ := 32

structure State (p : Params) where
  intTdataReg : BitVec p.axisTdataWidth
  intCntrReg : BitVec p.cntrWidth
  intTvalidReg : Bool
  intTreadyReg : Bool

structure Input (p : Params) where
  cfgData : BitVec p.cntrWidth
  sAxisTdata : BitVec p.axisTdataWidth
  sAxisTvalid : Bool
  mAxisTready : Bool

variable {p : Params}

section Wires

variable (s : State p) (i : Input p)

def intCompWire : Bool := decide (s.intCntrReg < i.cfgData)

def intTvalidWire : Bool := s.intTreadyReg && i.sAxisTvalid

end Wires

def step (aresetn : Bool) (s : State p) (i : Input p) : State p where
  intTdataReg :=
    if !aresetn then 0
    else if intTvalidWire s i && !intCompWire s i then i.sAxisTdata
    else s.intTdataReg
  intTvalidReg :=
    if !aresetn then false
    else if i.mAxisTready && s.intTvalidReg then false
    else if intTvalidWire s i && !intCompWire s i then true
    else s.intTvalidReg
  intTreadyReg :=
    if !aresetn then false
    else if !s.intTreadyReg && intCompWire s i then true
    else s.intTreadyReg
  intCntrReg :=
    if !aresetn then 0
    else if intTvalidWire s i && !intCompWire s i then 0
    else if intTvalidWire s i && intCompWire s i then s.intCntrReg + 1
    else s.intCntrReg

def next (s : State p) (i : Input p) : State p := step true s i

/-- The registers after an edge in reset. -/
def reset (p : Params) : State p := ⟨0, 0, false, false⟩

theorem step_reset (s : State p) (i : Input p) : step false s i = reset p := rfl

/-- The samples accepted on `s_axis`. -/
def accepted (c : Cycle (State p) (Input p)) :
    List (BitVec p.axisTdataWidth) :=
  transfer c.input.sAxisTvalid c.state.intTreadyReg c.input.sAxisTdata

/-- The words transferred on `m_axis`. -/
def delivered (c : Cycle (State p) (Input p)) :
    List (BitVec p.axisTdataWidth) :=
  transfer c.state.intTvalidReg c.input.mAxisTready c.state.intTdataReg

/-- The word offered on `m_axis`. -/
def offered (s : State p) : List (BitVec p.axisTdataWidth) :=
  if s.intTvalidReg then [s.intTdataReg] else []

/-- The cycle ends a block. -/
def produces (c : Cycle (State p) (Input p)) : Bool :=
  intTvalidWire c.state c.input && !intCompWire c.state c.input

end AxisDecimator

/-! ## Both cores are collectors -/

namespace AxisAccumulator

variable {p : Params}

/-- Blocks of `n + 1` samples are summed. -/
def rule (p : Params) (n : ℕ) :
    Rule (BitVec p.sAxisTdataWidth) (BitVec p.mAxisTdataWidth)
      (BitVec p.mAxisTdataWidth) where
  last := n
  init := 0
  add sum x := sum + extend p x
  result sum x := sum + extend p x

def view (s : State p) :
    Collector (BitVec p.mAxisTdataWidth) (BitVec p.mAxisTdataWidth) where
  cntr := s.intCntrReg.toNat
  acc := s.intAccuReg
  out := if s.intTvalidReg then some s.intTdataReg else none

def event (c : Cycle (State p) (Input p)) :
    Option (BitVec p.sAxisTdataWidth) × Bool :=
  (if intTvalidWire c.state c.input then some c.input.sAxisTdata else none,
    c.input.mAxisTready)

theorem view_next (hp : p.continuous = true) {cfg : BitVec p.cntrWidth}
    (s : State p) (i : Input p) (hi : i.cfgData = cfg) :
    view (next s i) = (rule p cfg.toNat).next (view s) (event ⟨s, i⟩) := by
  subst hi
  refine Eq.trans ?_ (Rule.next_flags (rule p i.cfgData.toNat) (intTvalidWire s i)
    s.intTvalidReg i.mAxisTready).symm
  have hcomp : intCompWire s i =
      decide (s.intCntrReg.toNat < i.cfgData.toNat) := rfl
  cases hsample : intTvalidWire s i with
  | false => simp [view, next, step, hsample]
  | true =>
      by_cases hlt : s.intCntrReg.toNat < i.cfgData.toNat
      · simp [view, next, step, rule, sumAccuWire, hsample, hcomp, hlt,
          succ_mod_of_lt hlt]
      · simp [view, next, step, rule, sumAccuWire, hp, hsample, hcomp, hlt]

theorem sampled_event (c : Cycle (State p) (Input p)) :
    Rule.sampled ⟨view c.state, event c⟩ = accepted c :=
  Rule.sampled_flags _ _ _

theorem delivered_event (c : Cycle (State p) (Input p)) :
    Rule.delivered ⟨view c.state, event c⟩ = delivered c :=
  Rule.delivered_flags _ _

theorem collides_event {cfg : BitVec p.cntrWidth}
    (c : Cycle (State p) (Input p)) (hc : c.input.cfgData = cfg) :
    (rule p cfg.toNat).collides ⟨view c.state, event c⟩ =
      (produces c && c.state.intTvalidReg) := by
  subst hc
  exact Rule.collides_flags _ _ _ _

/-- The words delivered so far and the one offered are the sums of the blocks
of accepted samples. -/
def Exact (cfg : BitVec p.cntrWidth) (inputs : List (Input p)) : Prop :=
  (trace next (reset p) inputs).flatMap delivered ++
      offered (run next (reset p) inputs) =
    (blocks (cfg.toNat + 1)
      ((trace next (reset p) inputs).flatMap accepted)).map
        fun block => (block.map (extend p)).sum

/-- Each result is accepted no later than the cycle in which the next one is
produced. -/
def InTime (inputs : List (Input p)) : Prop :=
  ∀ c ∈ trace next (reset p) inputs, produces c = true →
    c.state.intTvalidReg = true → c.input.mAxisTready = true

/-- No result is produced in the cycle in which the one before it is
accepted. -/
def Apart (inputs : List (Input p)) : Prop :=
  ∀ c ∈ trace next (reset p) inputs, produces c = true →
    ¬(c.state.intTvalidReg = true ∧ c.input.mAxisTready = true)

instance (cfg : BitVec p.cntrWidth) (inputs : List (Input p)) :
    Decidable (Exact cfg inputs) :=
  inferInstanceAs (Decidable (_ = _))

instance (inputs : List (Input p)) : Decidable (InTime inputs) :=
  inferInstanceAs (Decidable (∀ c ∈ trace next (reset p) inputs, _))

theorem value_eq (n : ℕ) {block : List (BitVec p.sAxisTdataWidth)}
    (h : block ≠ []) :
    (rule p n).value block = [(block.map (extend p)).sum] := by
  induction block using List.reverseRecOn with
  | nil => exact absurd rfl h
  | append_singleton ys x =>
      have hfold : ys.foldl (rule p n).add (rule p n).init =
          (ys.map (extend p)).sum := by
        rw [List.sum_eq_foldl, List.foldl_map]
        rfl
      rw [Rule.value_snoc, hfold, List.map_append, List.sum_append,
        List.map_singleton, List.sum_singleton]
      rfl

theorem exact_iff (hp : p.continuous = true) {cfg : BitVec p.cntrWidth}
    {inputs : List (Input p)} (hports : ∀ i ∈ inputs, i.cfgData = cfg)
    (htime : InTime inputs) : Exact cfg inputs ↔ Apart inputs := by
  have hiff := (rule p cfg.toNat).delivered_iff_of_view (s := reset p)
    view event _ (view_next hp) rfl hports
  have hcfg := forall_trace_input next (reset p) hports
  have hoffered : (view (run next (reset p) inputs)).out.toList =
      offered (run next (reset p) inputs) := by
    unfold view offered
    dsimp only
    split <;> rfl
  simp only [sampled_event, delivered_event, hoffered] at hiff
  have hvalues : ∀ xs : List (BitVec p.sAxisTdataWidth),
      (blocks ((rule p cfg.toNat).last + 1) xs).flatMap
          (rule p cfg.toNat).value =
        (blocks (cfg.toNat + 1) xs).map
          fun block => (block.map (extend p)).sum := by
    intro xs
    rw [List.map_eq_flatMap]
    apply List.flatMap_congr
    intro block hblock
    apply value_eq
    exact List.ne_nil_of_length_eq_add_one (length_of_mem_blocks hblock)
  rw [hvalues] at hiff
  exact hiff.trans (apart_iff (fun c hc => collides_event c (hcfg c hc)) htime)

end AxisAccumulator

namespace AxisDecimator

variable {p : Params}

/-- The last of `n + 1` samples is kept. -/
def rule (p : Params) (n : ℕ) :
    Rule (BitVec p.axisTdataWidth) Unit (BitVec p.axisTdataWidth) where
  last := n
  init := ()
  add _ _ := ()
  result _ x := x

def view (s : State p) : Collector Unit (BitVec p.axisTdataWidth) where
  cntr := s.intCntrReg.toNat
  acc := ()
  out := if s.intTvalidReg then some s.intTdataReg else none

def event (c : Cycle (State p) (Input p)) :
    Option (BitVec p.axisTdataWidth) × Bool :=
  (if intTvalidWire c.state c.input then some c.input.sAxisTdata else none,
    c.input.mAxisTready)

theorem view_next {cfg : BitVec p.cntrWidth} (s : State p) (i : Input p)
    (hi : i.cfgData = cfg) :
    view (next s i) = (rule p cfg.toNat).next (view s) (event ⟨s, i⟩) := by
  subst hi
  refine Eq.trans ?_ (Rule.next_flags (rule p i.cfgData.toNat) (intTvalidWire s i)
    s.intTvalidReg i.mAxisTready).symm
  have hcomp : intCompWire s i =
      decide (s.intCntrReg.toNat < i.cfgData.toNat) := rfl
  cases hsample : intTvalidWire s i with
  | false => simp [view, next, step, hsample]
  | true =>
      by_cases hlt : s.intCntrReg.toNat < i.cfgData.toNat
      · simp [view, next, step, rule, hsample, hcomp, hlt, succ_mod_of_lt hlt]
      · simp [view, next, step, rule, hsample, hcomp, hlt]

theorem sampled_event (c : Cycle (State p) (Input p)) :
    Rule.sampled ⟨view c.state, event c⟩ = accepted c :=
  Rule.sampled_flags _ _ _

theorem delivered_event (c : Cycle (State p) (Input p)) :
    Rule.delivered ⟨view c.state, event c⟩ = delivered c :=
  Rule.delivered_flags _ _

theorem collides_event {cfg : BitVec p.cntrWidth}
    (c : Cycle (State p) (Input p)) (hc : c.input.cfgData = cfg) :
    (rule p cfg.toNat).collides ⟨view c.state, event c⟩ =
      (produces c && c.state.intTvalidReg) := by
  subst hc
  exact Rule.collides_flags _ _ _ _

/-- The words delivered so far and the one offered are the last samples of the
blocks of accepted samples. -/
def Exact (cfg : BitVec p.cntrWidth) (inputs : List (Input p)) : Prop :=
  (trace next (reset p) inputs).flatMap delivered ++
      offered (run next (reset p) inputs) =
    (blocks (cfg.toNat + 1)
      ((trace next (reset p) inputs).flatMap accepted)).filterMap List.getLast?

/-- Each result is accepted no later than the cycle in which the next one is
produced. -/
def InTime (inputs : List (Input p)) : Prop :=
  ∀ c ∈ trace next (reset p) inputs, produces c = true →
    c.state.intTvalidReg = true → c.input.mAxisTready = true

/-- No result is produced in the cycle in which the one before it is
accepted. -/
def Apart (inputs : List (Input p)) : Prop :=
  ∀ c ∈ trace next (reset p) inputs, produces c = true →
    ¬(c.state.intTvalidReg = true ∧ c.input.mAxisTready = true)

instance (cfg : BitVec p.cntrWidth) (inputs : List (Input p)) :
    Decidable (Exact cfg inputs) :=
  inferInstanceAs (Decidable (_ = _))

instance (inputs : List (Input p)) : Decidable (InTime inputs) :=
  inferInstanceAs (Decidable (∀ c ∈ trace next (reset p) inputs, _))

theorem value_eq (n : ℕ) (block : List (BitVec p.axisTdataWidth)) :
    (rule p n).value block = block.getLast?.toList := by
  unfold Rule.value
  cases block.getLast? <;> rfl

theorem exact_iff {cfg : BitVec p.cntrWidth} {inputs : List (Input p)}
    (hports : ∀ i ∈ inputs, i.cfgData = cfg) (htime : InTime inputs) :
    Exact cfg inputs ↔ Apart inputs := by
  have hiff := (rule p cfg.toNat).delivered_iff_of_view (s := reset p)
    view event _ view_next rfl hports
  have hcfg := forall_trace_input next (reset p) hports
  have hoffered : (view (run next (reset p) inputs)).out.toList =
      offered (run next (reset p) inputs) := by
    unfold view offered
    dsimp only
    split <;> rfl
  have hvalue : (rule p cfg.toNat).value = fun block => block.getLast?.toList :=
    funext (value_eq _)
  simp only [sampled_event, delivered_event, hoffered, hvalue] at hiff
  rw [← List.filterMap_eq_flatMap_toList] at hiff
  exact hiff.trans (apart_iff (fun c hc => collides_event c (hcfg c hc)) htime)

end AxisDecimator

/-! ## Both cores -/

/-- With a consumer that takes each result in time, the cores deliver the
results of all blocks exactly if no result is produced in the very cycle in
which the one before it is accepted. -/
theorem blockOutputs_exact_iff {pa : AxisAccumulator.Params}
    (hcontinuous : pa.continuous = true) {cfgA : BitVec pa.cntrWidth}
    {inputsA : List (AxisAccumulator.Input pa)}
    (hportsA : ∀ i ∈ inputsA, i.cfgData = cfgA)
    (htimeA : AxisAccumulator.InTime inputsA)
    {pd : AxisDecimator.Params} {cfgD : BitVec pd.cntrWidth}
    {inputsD : List (AxisDecimator.Input pd)}
    (hportsD : ∀ i ∈ inputsD, i.cfgData = cfgD)
    (htimeD : AxisDecimator.InTime inputsD) :
    (AxisAccumulator.Exact cfgA inputsA ↔ AxisAccumulator.Apart inputsA) ∧
      (AxisDecimator.Exact cfgD inputsD ↔ AxisDecimator.Apart inputsD) :=
  ⟨AxisAccumulator.exact_iff hcontinuous hportsA htimeA,
    AxisDecimator.exact_iff hportsD htimeD⟩

/-- Blocks of two signed bytes. -/
def sumOfTwo : AxisAccumulator.Params := ⟨8, 16, 8, true, true⟩

/-- A sample in every cycle, and a consumer that is ready in those of
`ready`. -/
def accumulatorInputs (ready : List Bool) :
    List (AxisAccumulator.Input sumOfTwo) :=
  ready.map fun r => ⟨1, 0xff, true, r⟩

def decimatorInputs (ready : List Bool) :
    List (AxisDecimator.Input ⟨8, 8⟩) :=
  ready.map fun r => ⟨1, 7, true, r⟩

theorem blockOutputs_exact_iff_ready :
    (AxisAccumulator.Exact 1 (accumulatorInputs (List.replicate 8 true)) ↔
        AxisAccumulator.Apart (accumulatorInputs (List.replicate 8 true))) ∧
      (AxisDecimator.Exact 1 (decimatorInputs (List.replicate 8 true)) ↔
        AxisDecimator.Apart (decimatorInputs (List.replicate 8 true))) :=
  blockOutputs_exact_iff rfl (by decide) (by decide) (by decide) (by decide)

/-- The consumer takes each result two cycles after it was produced, as the next
one is produced. -/
theorem not_blockOutputs_exact_late :
    let ready := [false, false, false, false, true, false]
    (AxisAccumulator.InTime (accumulatorInputs ready) ∧
        ¬AxisAccumulator.Exact 1 (accumulatorInputs ready)) ∧
      (AxisDecimator.InTime (decimatorInputs ready) ∧
        ¬AxisDecimator.Exact 1 (decimatorInputs ready)) := by
  decide

end RedPitayaNotes
