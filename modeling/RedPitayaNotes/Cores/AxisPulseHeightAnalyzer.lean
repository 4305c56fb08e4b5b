import RedPitayaNotes.Support.Clocked
import RedPitayaNotes.Support.Elastic

/-!
# The axis_pulse_height_analyzer core

`cores/axis_pulse_height_analyzer.v` looks for a minimum and the maximum after it
and reports their difference if it is between `min_data` and `max_data`.  Whether
the signal rises is decided between samples two apart; the height is that of the
sample between them, and it is computed modulo a power of two.
-/

namespace RedPitayaNotes.AxisPulseHeightAnalyzer

open Clocked Elastic

structure Params where
  axisTdataWidth : ℕ := 16
  axisTdataSigned : Bool := false
  cntrWidth : ℕ := 16

/-- `int_data_reg[0]` and `int_data_reg[1]` are the first two registers. -/
structure State (p : Params) where
  intDataReg0 : BitVec p.axisTdataWidth
  intDataReg1 : BitVec p.axisTdataWidth
  intTdataReg : BitVec p.axisTdataWidth
  intMinReg : BitVec p.axisTdataWidth
  intCntrReg : BitVec p.cntrWidth
  intEnblReg : Bool
  intRisingReg : Bool
  intTvalidReg : Bool

structure Input (p : Params) where
  cfgData : BitVec p.cntrWidth
  minData : BitVec p.axisTdataWidth
  maxData : BitVec p.axisTdataWidth
  sAxisTdata : BitVec p.axisTdataWidth
  sAxisTvalid : Bool
  mAxisTready : Bool

variable {p : Params}

/-- The comparison of the blocks `SIGNED` and `UNSIGNED`. -/
def less (p : Params) (x y : BitVec p.axisTdataWidth) : Bool :=
  if p.axisTdataSigned then x.slt y else x.ult y

section Wires

variable (s : State p) (i : Input p)

def intDelayWire : Bool := decide (s.intCntrReg < i.cfgData)

def intRisingWire : Bool := less p s.intDataReg1 i.sAxisTdata

def intTdataWire : BitVec p.axisTdataWidth := s.intDataReg0 - s.intMinReg

def intMincutWire : Bool := less p i.minData (intTdataWire s)

def intMaxcutWire : Bool := less p (intTdataWire s) i.maxData

/-- The condition under the comment `minimum after delay`. -/
def minimumAfterDelay : Bool :=
  i.sAxisTvalid && !intDelayWire s i && !s.intRisingReg && intRisingWire s i

/-- The condition under the comment `maximum after minimum`. -/
def maximumAfterMinimum : Bool :=
  i.sAxisTvalid && s.intEnblReg && s.intRisingReg && !intRisingWire s i &&
    intMincutWire s i

end Wires

/-- Of two assignments to a register the later one counts. -/
def step (aresetn : Bool) (s : State p) (i : Input p) : State p where
  intDataReg0 :=
    if !aresetn then 0 else if i.sAxisTvalid then i.sAxisTdata else s.intDataReg0
  intDataReg1 :=
    if !aresetn then 0 else if i.sAxisTvalid then s.intDataReg0 else s.intDataReg1
  intTdataReg :=
    if !aresetn then 0
    else if maximumAfterMinimum s i then intTdataWire s
    else s.intTdataReg
  intMinReg :=
    if !aresetn then 0
    else if minimumAfterDelay s i then s.intDataReg1
    else s.intMinReg
  intCntrReg :=
    if !aresetn then 0
    else if maximumAfterMinimum s i then 0
    else if i.sAxisTvalid && intDelayWire s i then s.intCntrReg + 1
    else s.intCntrReg
  intEnblReg :=
    if !aresetn then false
    else if maximumAfterMinimum s i then false
    else if minimumAfterDelay s i then true
    else s.intEnblReg
  intRisingReg :=
    if !aresetn then false
    else if i.sAxisTvalid then intRisingWire s i
    else s.intRisingReg
  intTvalidReg :=
    if !aresetn then false
    else if i.mAxisTready && s.intTvalidReg then false
    else if maximumAfterMinimum s i then intMaxcutWire s i
    else s.intTvalidReg

def next (s : State p) (i : Input p) : State p := step true s i

/-- The registers after an edge in reset. -/
def reset (p : Params) : State p := ⟨0, 0, 0, 0, 0, false, false, false⟩

theorem step_reset (s : State p) (i : Input p) : step false s i = reset p := rfl

/-- The samples accepted on `s_axis`, which is always ready. -/
def accepted (c : Cycle (State p) (Input p)) : List (BitVec p.axisTdataWidth) :=
  transfer c.input.sAxisTvalid true c.input.sAxisTdata

/-- A value becomes valid on `m_axis`: the word offered after the edge was not
offered before it. -/
def appears (c : Cycle (State p) (Input p)) : Bool :=
  (next c.state c.input).intTvalidReg &&
    (!c.state.intTvalidReg || maximumAfterMinimum c.state c.input)

/-! ## Samples, maxima and minima -/

/-- The integer that a sample stands for. -/
def value (p : Params) (x : BitVec p.axisTdataWidth) : ℤ :=
  if p.axisTdataSigned then x.toInt else x.toNat

section History

variable (past : List (Cycle (State p) (Input p)))

/-- The samples, newest first. -/
def samples : List (BitVec p.axisTdataWidth) := (past.flatMap accepted).reverse

/-- The sample at the maximum, when the one that follows it arrives. -/
def maximum : BitVec p.axisTdataWidth := (samples past).getD 0 0

/-- The sample at the last minimum detected. -/
def minimum : BitVec p.axisTdataWidth :=
  (samples (untilLast (fun c => minimumAfterDelay c.state c.input) past)).getD 1 0

end History

/-- Every value reported is the exact height of its pulse, and between the
cuts. -/
def TrueHeights (minData maxData : BitVec p.axisTdataWidth) (inputs : List (Input p)) :
    Prop :=
  ∀ past c rest, trace next (reset p) inputs = past ++ c :: rest →
    appears c = true →
      let height := value p (next c.state c.input).intTdataReg
      height = value p (maximum past) - value p (minimum past) ∧
        value p minData < height ∧ height < value p maxData

/-- At the maximum the signal is above the minimum recorded before it. -/
def MinimumBelow (inputs : List (Input p)) : Prop :=
  ∀ past c rest, trace next (reset p) inputs = past ++ c :: rest →
    appears c = true → value p (minimum past) < value p (maximum past)

/-! ## Comparisons and differences -/

section Values

theorem less_iff (x y : BitVec p.axisTdataWidth) :
    less p x y = true ↔ value p x < value p y := by
  unfold less value
  cases p.axisTdataSigned with
  | false =>
      rw [if_neg Bool.false_ne_true, if_neg Bool.false_ne_true,
        if_neg Bool.false_ne_true, BitVec.ult, decide_eq_true_eq]
      omega
  | true =>
      rw [if_pos rfl, if_pos rfl, if_pos rfl, BitVec.slt, decide_eq_true_eq]

/-- The difference wraps once or not at all. -/
theorem toNat_sub_eq {w : ℕ} (x m : BitVec w) :
    (x - m).toNat =
      if m.toNat ≤ x.toNat then x.toNat - m.toNat
      else x.toNat + 2 ^ w - m.toNat := by
  have hm := m.isLt
  split
  next h => exact BitVec.toNat_sub_of_le h
  next h =>
      rw [BitVec.toNat_sub, Nat.mod_eq_of_lt (by omega)]
      omega

/-- A difference that is positive is exact if it should be positive. -/
theorem value_sub_iff {x m : BitVec p.axisTdataWidth} (h : 0 < value p (x - m)) :
    value p (x - m) = value p x - value p m ↔ value p m < value p x := by
  have hx := x.isLt
  have hm := m.isLt
  have hsub := toNat_sub_eq x m
  unfold value at h ⊢
  cases hsigned : p.axisTdataSigned with
  | false =>
      simp only [hsigned, Bool.false_eq_true, if_false] at h ⊢
      split at hsub <;> omega
  | true =>
      simp only [hsigned, if_true, BitVec.toInt_eq_toNat_cond] at h ⊢
      split at hsub <;> split_ifs at h ⊢ <;> omega

end Values

/-! ## The registers -/

/-- What the registers hold of the samples so far. -/
structure Recorded (past : List (Cycle (State p) (Input p))) (s : State p) : Prop where
  data0 : s.intDataReg0 = (samples past).getD 0 0
  data1 : s.intDataReg1 = (samples past).getD 1 0
  min : s.intMinReg = minimum past

theorem samples_snoc (past : List (Cycle (State p) (Input p)))
    (c : Cycle (State p) (Input p)) :
    samples (past ++ [c]) =
      if c.input.sAxisTvalid then c.input.sAxisTdata :: samples past
      else samples past := by
  rw [samples, List.flatMap_append, List.flatMap_singleton, List.reverse_append]
  unfold accepted
  cases c.input.sAxisTvalid <;> rfl

theorem recorded_run (inputs : List (Input p)) :
    Recorded (trace next (reset p) inputs) (run next (reset p) inputs) := by
  refine trace_induction Recorded ⟨rfl, rfl, rfl⟩ ?_ inputs
  intro past s i h
  refine ⟨?_, ?_, ?_⟩
  · change (if i.sAxisTvalid then i.sAxisTdata else s.intDataReg0) = _
    rw [samples_snoc, h.data0]
    dsimp only
    split <;> rfl
  · change (if i.sAxisTvalid then s.intDataReg0 else s.intDataReg1) = _
    rw [samples_snoc, h.data0, h.data1]
    dsimp only
    split <;> rfl
  · change (if minimumAfterDelay s i then s.intDataReg1 else s.intMinReg) = _
    rw [minimum, untilLast_snoc, h.data1, h.min]
    dsimp only
    split <;> rfl

/-- A value appears with a maximum whose height passes both cuts. -/
theorem appears_eq (s : State p) (i : Input p) :
    appears ⟨s, i⟩ =
      (maximumAfterMinimum s i && intMaxcutWire s i &&
        !(i.mAxisTready && s.intTvalidReg)) := by
  unfold appears next step
  dsimp only
  cases s.intTvalidReg <;> cases maximumAfterMinimum s i <;>
    cases intMaxcutWire s i <;> cases i.mAxisTready <;> rfl

section Heights

variable {minData maxData : BitVec p.axisTdataWidth} {s : State p} {i : Input p}

/-- The value that appears is the difference of the registers, and it passes
both cuts. -/
theorem appears_spec (h : appears ⟨s, i⟩ = true) (hmin : i.minData = minData)
    (hmax : i.maxData = maxData) :
    (next s i).intTdataReg = s.intDataReg0 - s.intMinReg ∧
      value p minData < value p (s.intDataReg0 - s.intMinReg) ∧
        value p (s.intDataReg0 - s.intMinReg) < value p maxData := by
  subst hmin hmax
  rw [appears_eq, Bool.and_eq_true, Bool.and_eq_true] at h
  obtain ⟨⟨hpeak, hmaxcut⟩, -⟩ := h
  have hmincut : intMincutWire s i = true := by
    rw [maximumAfterMinimum, Bool.and_eq_true] at hpeak
    exact hpeak.2
  refine ⟨if_pos hpeak, ?_, ?_⟩
  · exact (less_iff _ _).mp hmincut
  · exact (less_iff _ _).mp hmaxcut

variable {inputs : List (Input p)}

/-- The heights reported are true exactly if the recorded minimum is below the
sample at the maximum each time. -/
theorem trueHeights_iff (hzero : 0 ≤ value p minData)
    (hports : ∀ i ∈ inputs, i.minData = minData ∧ i.maxData = maxData) :
    TrueHeights minData maxData inputs ↔ MinimumBelow inputs := by
  unfold TrueHeights MinimumBelow
  refine forall_congr' fun past => forall_congr' fun c => forall_congr' fun rest =>
    forall_congr' fun hsplit => forall_congr' fun happears => ?_
  obtain ⟨before, after, hinputs, rfl, hstate⟩ := exists_before hsplit
  have hports' : c.input.minData = minData ∧ c.input.maxData = maxData := by
    apply hports
    rw [hinputs]
    exact List.mem_append_right _ List.mem_cons_self
  obtain ⟨hdata, hmincut, hmaxcut⟩ := appears_spec happears hports'.1 hports'.2
  have hrecorded := recorded_run before
  rw [← hstate] at hrecorded
  rw [maximum, ← hrecorded.data0, ← hrecorded.min]
  dsimp only
  rw [hdata]
  have hiff := value_sub_iff (Int.lt_of_le_of_lt hzero hmincut)
  exact ⟨fun h => hiff.mp h.1, fun h => ⟨hiff.mpr h, hmincut, hmaxcut⟩⟩

end Heights

/-- Unsigned samples, with every height below 255 reported. -/
def unsignedSamples (xs : List (BitVec 8)) : List (Input ⟨8, false, 4⟩) :=
  xs.map fun x => ⟨0, 10, 255, x, true, true⟩

/-- The pulse of height 100. -/
theorem trueHeights_first :
    TrueHeights (p := ⟨8, false, 4⟩) 10 255 (unsignedSamples [100, 100, 0]) :=
  (trueHeights_iff (by decide) (by decide)).mpr (forall_split_iff.mpr (by decide))

/-- The minimum recorded is 100, the sample at the maximum is 1, and their
difference wraps to 157. -/
theorem not_trueHeights_sixth :
    ¬∀ (p : Params) (minData maxData : BitVec p.axisTdataWidth)
      (inputs : List (Input p)), 0 ≤ value p minData →
      value p minData < value p maxData →
      (∀ i ∈ inputs, i.minData = minData ∧ i.maxData = maxData) →
      TrueHeights minData maxData inputs := by
  intro h
  have htrue := h ⟨8, false, 4⟩ 10 255 (unsignedSamples [100, 100, 0, 101, 1, 50])
    (by decide) (by decide) (by decide)
  have hlast := forall_split_iff.mp htrue 5 (by decide)
  revert hlast
  decide

end RedPitayaNotes.AxisPulseHeightAnalyzer
