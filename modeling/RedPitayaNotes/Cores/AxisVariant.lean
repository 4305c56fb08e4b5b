import RedPitayaNotes.Support.Clocked
import RedPitayaNotes.Support.Elastic

/-!
# The axis_variable and axis_variant cores

`cores/axis_variable.v` turns a configuration word into a stream that carries a
word whenever the configuration has changed.  `cores/axis_variant.v` does so for
two words of which a flag selects one.  The two differ in what they make of a
change that comes together with the handshake of the change before it.
-/

namespace RedPitayaNotes.AxisVariable

open Clocked Elastic

/-- The registers of either core. -/
structure State (w : ℕ) where
  intTdataReg : BitVec w
  intTvalidReg : Bool

structure Input (w : ℕ) where
  cfgData : BitVec w
  mAxisTready : Bool

variable {w : ℕ}

/-- The registers after an edge in reset. -/
def reset : State w := ⟨0, false⟩

/-- The `always` block at a clock edge. -/
def step (aresetn : Bool) (s : State w) (i : Input w) : State w :=
  if !aresetn then reset
  else
    { intTdataReg := i.cfgData
      intTvalidReg :=
        s.intTdataReg != i.cfgData || (s.intTvalidReg && !i.mAxisTready) }

/-- An edge out of reset. -/
def next (s : State w) (i : Input w) : State w := step true s i

/-- The word transferred in the cycle. -/
def transferred (c : Cycle (State w) (Input w)) : List (BitVec w) :=
  transfer c.state.intTvalidReg c.input.mAxisTready c.state.intTdataReg

/-- The word of the last transfer, 0 if there was none. -/
def lastWord (words : List (BitVec w)) : BitVec w := words.getLast?.getD 0

@[simp] theorem lastWord_concat (words : List (BitVec w)) (word : BitVec w) :
    lastWord (words ++ [word]) = word := by
  simp [lastWord]

/-- When nothing is offered, the word of the core has been transferred. -/
def Delivered (words : List (BitVec w)) (s : State w) : Prop :=
  s.intTvalidReg = false → s.intTdataReg = lastWord words

/-- A core that is left without an offer only by a transfer, and then with the
word transferred, or by nothing changing at all, keeps `Delivered`. -/
theorem delivered_step {words : List (BitVec w)} {s s' : State w} {ready : Bool}
    (h : Delivered words s) (hdata : s'.intTvalidReg = false →
      s'.intTdataReg = s.intTdataReg)
    (hvalid : s'.intTvalidReg = false → s.intTvalidReg = true → ready = true) :
    Delivered (words ++ transfer s.intTvalidReg ready s.intTdataReg) s' := by
  intro hlow
  rw [hdata hlow]
  cases hv : s.intTvalidReg with
  | false => simpa using h hv
  | true =>
      rw [hvalid hlow hv]
      simp

/-- After an edge without an offer the word has not changed, and an offer before
it has been taken. -/
theorem of_not_valid_next {s : State w} {i : Input w}
    (h : (next s i).intTvalidReg = false) :
    i.cfgData = s.intTdataReg ∧
      (s.intTvalidReg = true → i.mAxisTready = true) := by
  have hboth : s.intTdataReg = i.cfgData ∧
      (s.intTvalidReg = true → i.mAxisTready = true) := by
    simpa [next, step] using h
  exact ⟨hboth.1.symm, hboth.2⟩

/-- `axis_variable` never leaves a change undelivered. -/
theorem delivered_run (inputs : List (Input w)) :
    Delivered ((trace next reset inputs).flatMap transferred)
      (run next reset inputs) := by
  apply trace_induction (fun past s => Delivered (past.flatMap transferred) s)
  · exact fun _ => rfl
  · intro past s i h
    rw [List.flatMap_append, List.flatMap_singleton]
    exact delivered_step h (fun hlow => (of_not_valid_next hlow).1)
      (fun hlow => (of_not_valid_next hlow).2)

end RedPitayaNotes.AxisVariable

namespace RedPitayaNotes.AxisVariant

open Clocked Elastic
open AxisVariable (State reset lastWord Delivered delivered_step)

structure Input (w : ℕ) where
  cfgFlag : Bool
  cfgData0 : BitVec w
  cfgData1 : BitVec w
  mAxisTready : Bool

variable {w : ℕ}

/-- `int_tdata_wire` -/
def intTdataWire (i : Input w) : BitVec w :=
  if i.cfgFlag then i.cfgData1 else i.cfgData0

/-- Of two assignments the later one counts. -/
def intTvalidNext (s : State w) (i : Input w) : Bool :=
  if i.mAxisTready && s.intTvalidReg then false
  else if s.intTdataReg != intTdataWire i then true
  else s.intTvalidReg

/-- The clocked `always` block. -/
def step (aresetn : Bool) (s : State w) (i : Input w) : State w :=
  if !aresetn then reset
  else
    { intTdataReg := intTdataWire i
      intTvalidReg := intTvalidNext s i }

/-- An edge out of reset. -/
def next (s : State w) (i : Input w) : State w := step true s i

/-- The word transferred in the cycle. -/
def transferred (c : Cycle (State w) (Input w)) : List (BitVec w) :=
  transfer c.state.intTvalidReg c.input.mAxisTready c.state.intTdataReg

/-- What an `axis_variable` with the selected word sees. -/
def selected (i : Input w) : AxisVariable.Input w :=
  ⟨intTdataWire i, i.mAxisTready⟩

/-- A change comes in the cycle of a transfer. -/
def Coincides (c : Cycle (State w) (Input w)) : Prop :=
  c.state.intTvalidReg = true ∧ c.input.mAxisTready = true ∧
    c.state.intTdataReg ≠ intTdataWire c.input

theorem next_eq_iff (s : State w) (i : Input w) :
    next s i = AxisVariable.next s (selected i) ↔ ¬ Coincides ⟨s, i⟩ := by
  obtain ⟨data, valid⟩ := s
  by_cases hdata : data = intTdataWire i <;> cases valid <;>
    cases hready : i.mAxisTready <;>
    simp [next, step, intTvalidNext, AxisVariable.next, AxisVariable.step,
      selected, Coincides, hdata, hready]

theorem delivered_next {words : List (BitVec w)} {s : State w} {i : Input w}
    (h : Delivered words s) (hok : ¬ Coincides ⟨s, i⟩) :
    Delivered (words ++ transferred ⟨s, i⟩) (next s i) := by
  rw [(next_eq_iff s i).mpr hok]
  exact delivered_step h (fun hlow => (AxisVariable.of_not_valid_next hlow).1)
    (fun hlow => (AxisVariable.of_not_valid_next hlow).2)

/-- The two cores show the same outputs, and neither leaves a change
undelivered. -/
structure Agree (inputs : List (Input w)) : Prop where
  outputs : run next reset inputs =
    run AxisVariable.next reset (inputs.map selected)
  variantDelivers : Delivered ((trace next reset inputs).flatMap transferred)
    (run next reset inputs)
  variableDelivers : Delivered
    ((trace AxisVariable.next reset (inputs.map selected)).flatMap
      AxisVariable.transferred)
    (run AxisVariable.next reset (inputs.map selected))

def seen (c : Cycle (State w) (Input w)) : AxisVariable.Input w :=
  selected c.input

theorem map_seen_trace (inputs : List (Input w)) :
    (trace next reset inputs).map seen = inputs.map selected := by
  conv_rhs => rw [← map_input_trace next reset inputs, List.map_map]
  rfl

/-- `Agree`, in terms of the cycles of `axis_variant`; the rest holds anyhow. -/
def AgreesSoFar (past : List (Cycle (State w) (Input w))) (s : State w) :
    Prop :=
  s = run AxisVariable.next reset (past.map seen) ∧
    Delivered (past.flatMap transferred) s

theorem agree_iff_agreesSoFar (inputs : List (Input w)) :
    Agree inputs ↔
      AgreesSoFar (trace next reset inputs) (run next reset inputs) := by
  rw [AgreesSoFar, map_seen_trace]
  constructor
  · rintro ⟨houtputs, hvariant, -⟩
    exact ⟨houtputs, hvariant⟩
  · rintro ⟨houtputs, hvariant⟩
    exact ⟨houtputs, hvariant, AxisVariable.delivered_run _⟩

theorem agreesSoFar_step {past : List (Cycle (State w) (Input w))}
    {s : State w} {i : Input w} (h : AgreesSoFar past s) :
    AgreesSoFar (past ++ [⟨s, i⟩]) (next s i) ↔ ¬ Coincides ⟨s, i⟩ := by
  obtain ⟨hrun, hdelivered⟩ := h
  have hnext : run AxisVariable.next reset
        (List.map seen (past ++ [⟨s, i⟩])) =
      AxisVariable.next s (selected i) := by
    rw [List.map_append, run_append, ← hrun]
    rfl
  rw [AgreesSoFar, hnext, next_eq_iff, List.flatMap_append,
    List.flatMap_singleton]
  exact ⟨fun h => h.1, fun h => ⟨h, delivered_next hdelivered h⟩⟩

/-- The cores agree at every cycle after reset exactly if no change comes in the
cycle of a transfer. -/
theorem agree_iff (inputs : List (Input w)) :
    (∀ before, before <+: inputs → Agree before) ↔
      ∀ c ∈ trace next reset inputs, ¬ Coincides c := by
  simp only [agree_iff_agreesSoFar]
  exact forall_before_iff AgreesSoFar (fun c => ¬ Coincides c)
    ⟨rfl, fun _ => rfl⟩ (fun _ _ _ => agreesSoFar_step) inputs

/-- A change that nobody takes, and a second one as the first is taken. -/
def lateChange : List (Input 32) :=
  [⟨false, 1, 0, false⟩, ⟨true, 1, 2, true⟩]

/-- The second change is lost: the word stays 2 with nothing offered, and the
word transferred last is 1. -/
theorem not_agree_lateChange :
    ¬ Agree lateChange ∧
      (run next reset lateChange).intTvalidReg = false ∧
      (run AxisVariable.next reset (lateChange.map selected)).intTvalidReg =
        true ∧
      (trace next reset lateChange).flatMap transferred = [1] ∧
      (run next reset lateChange).intTdataReg = 2 := by
  refine ⟨fun h => ?_, by decide, by decide, by decide, by decide⟩
  have hvalid := congrArg State.intTvalidReg h.outputs
  revert hvalid
  decide

end RedPitayaNotes.AxisVariant
