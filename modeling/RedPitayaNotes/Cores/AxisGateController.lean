import RedPitayaNotes.Support.Clocked
import RedPitayaNotes.Support.Counters
import RedPitayaNotes.Support.Elastic

/-!
# The axis_gate_controller core

`cores/axis_gate_controller.v` plays commands: a phase, a level and a gate for a
number of cycles.  The first cycle of a command comes from the bus, the others
from a register, and a counter says which of the two it is.
-/

namespace RedPitayaNotes.AxisGateController

open Clocked Elastic

structure State where
  intCntrReg : BitVec 64
  intDataReg : BitVec 49
  intPoffReg : BitVec 32
  intLevelReg : BitVec 16
  intDoutReg : Bool
deriving DecidableEq

structure Input where
  sAxisTdata : BitVec 128
  sAxisTvalid : Bool
deriving DecidableEq

/-- `s_axis_tdata[63:0]` -/
def Input.count (i : Input) : BitVec 64 := i.sAxisTdata.extractLsb' 0 64

/-- `s_axis_tdata[112:64]` -/
def Input.data (i : Input) : BitVec 49 := i.sAxisTdata.extractLsb' 64 49

section Wires

variable (s : State) (i : Input)

def intEnblWire : Bool := s.intCntrReg != 0

def intDataWire : BitVec 49 := if intEnblWire s then s.intDataReg else i.data

def sAxisTready (aresetn : Bool) : Bool := !intEnblWire s && aresetn

end Wires

/-- The `always` block at a clock edge. -/
def step (aresetn : Bool) (s : State) (i : Input) : State where
  intCntrReg :=
    if !aresetn then 0
    else if intEnblWire s then s.intCntrReg - 1
    else if i.sAxisTvalid then i.count
    else s.intCntrReg
  intDataReg :=
    if !aresetn then 0
    else if !intEnblWire s && i.sAxisTvalid then i.data
    else s.intDataReg
  intPoffReg :=
    if !aresetn then 0 else (intDataWire s i).extractLsb' 0 32
  intLevelReg :=
    if !aresetn then 0 else (intDataWire s i).extractLsb' 32 16
  intDoutReg :=
    if !aresetn then false
    else (intDataWire s i).getLsbD 48 && (intEnblWire s || i.sAxisTvalid)

/-- An edge out of reset. -/
def next (s : State) (i : Input) : State := step true s i

def IsReset (s : State) : Prop := s = ⟨0, 0, 0, 0, false⟩

theorem isReset_step (s : State) (i : Input) : IsReset (step false s i) := rfl

/-- The three outputs. -/
structure Output where
  poff : BitVec 32
  level : BitVec 16
  dout : Bool
deriving DecidableEq

def output (s : State) : Output := ⟨s.intPoffReg, s.intLevelReg, s.intDoutReg⟩

/-! ## The timeline -/

structure Command where
  count : BitVec 64
  poff : BitVec 32
  level : BitVec 16
  dout : Bool
deriving DecidableEq

def Input.command (i : Input) : Command where
  count := i.count
  poff := i.data.extractLsb' 0 32
  level := i.data.extractLsb' 32 16
  dout := i.data.getLsbD 48

def Command.output (c : Command) : Output := ⟨c.poff, c.level, c.dout⟩

/-- A stretch of the outputs. -/
inductive Piece where
  | segment (c : Command)
  | idle (poff : BitVec 32) (level : BitVec 16)
deriving DecidableEq

namespace Piece

/-- A segment lasts one cycle longer than its count says, an idle piece one
cycle. -/
def outputs : Piece → List Output
  | segment c => List.replicate (c.count.toNat + 1) c.output
  | idle poff level => [⟨poff, level, false⟩]

def command : Piece → Option Command
  | segment c => some c
  | idle _ _ => none

end Piece

/-- A cycle in which the core is ready, with or without a command. -/
def ready (c : Cycle State Input) : Bool := sAxisTready c.state true

def accepted (c : Cycle State Input) : List Command :=
  transfer c.input.sAxisTvalid (ready c) c.input.command

/-- The piece that begins after a cycle. -/
def piece (c : Cycle State Input) : Piece :=
  if c.input.sAxisTvalid then .segment c.input.command
  else .idle c.input.command.poff c.input.command.level

/-- The outputs after the edge of a cycle. -/
def driven (c : Cycle State Input) : Output := output (next c.state c.input)

/-- The outputs of the stored command. -/
def stored (s : State) : Output where
  poff := s.intDataReg.extractLsb' 0 32
  level := s.intDataReg.extractLsb' 32 16
  dout := s.intDataReg.getLsbD 48

/-- The outputs to come of a command that has begun. -/
def rest (s : State) : List Output :=
  List.replicate s.intCntrReg.toNat (stored s)

variable {s : State} {i : Input}

theorem intEnblWire_eq_true_iff : intEnblWire s = true ↔ s.intCntrReg ≠ 0 := by
  rw [intEnblWire, bne_iff_ne]

theorem ready_eq_true_iff {c : Cycle State Input} :
    ready c = true ↔ c.state.intCntrReg = 0 := by
  rw [ready, sAxisTready, Bool.and_true, Bool.not_eq_true', intEnblWire,
    bne_eq_false_iff_eq]

/-! ## One edge -/

/-- While the counter runs the outputs are those of the stored command. -/
theorem next_busy (h : s.intCntrReg ≠ 0) (i : Input) :
    output (next s i) = stored s ∧ stored (next s i) = stored s ∧
      (next s i).intCntrReg.toNat + 1 = s.intCntrReg.toNat := by
  have henbl := intEnblWire_eq_true_iff.mpr h
  refine ⟨?_, ?_, ?_⟩
  · simp [output, next, step, intDataWire, henbl, stored]
  · simp [next, step, henbl, stored]
  · have hcntr : (next s i).intCntrReg = s.intCntrReg - 1 := by
      simp [next, step, henbl]
    rw [hcntr]
    exact Counters.toNat_sub_one_add_one h

/-- A command is driven from the bus and stored for the cycles that follow. -/
theorem next_accepts (h : s.intCntrReg = 0) (hvalid : i.sAxisTvalid = true) :
    output (next s i) = i.command.output ∧
      stored (next s i) = i.command.output ∧
      (next s i).intCntrReg = i.command.count := by
  have henbl : intEnblWire s = false := by rw [intEnblWire, h]; rfl
  refine ⟨?_, ?_, ?_⟩
  · simp [output, next, step, intDataWire, henbl, hvalid, Input.command,
      Command.output]
  · simp [next, step, henbl, hvalid, stored, Input.command, Command.output]
  · simp [next, step, henbl, hvalid, Input.command]

theorem next_idle (h : s.intCntrReg = 0) (hvalid : i.sAxisTvalid = false) :
    output (next s i) = ⟨i.command.poff, i.command.level, false⟩ ∧
      (next s i).intCntrReg = 0 := by
  have henbl : intEnblWire s = false := by rw [intEnblWire, h]; rfl
  refine ⟨?_, ?_⟩
  · simp [output, next, step, intDataWire, henbl, hvalid, Input.command]
  · simp [next, step, henbl, hvalid, h]

/-- Every edge drives the next output of what has begun. -/
theorem rest_step (s : State) (i : Input) :
    rest s ++ (if ready ⟨s, i⟩ then (piece ⟨s, i⟩).outputs else []) =
      [driven ⟨s, i⟩] ++ rest (next s i) := by
  by_cases hbusy : s.intCntrReg = 0
  · rw [if_pos (ready_eq_true_iff.mpr hbusy), rest, hbusy]
    cases hvalid : i.sAxisTvalid with
    | true =>
        obtain ⟨hout, hstored, hcntr⟩ := next_accepts hbusy hvalid
        rw [piece, if_pos hvalid, Piece.outputs, driven, hout, rest, hstored,
          hcntr, List.replicate_succ]
        rfl
    | false =>
        obtain ⟨hout, hcntr⟩ := next_idle hbusy hvalid
        rw [piece, if_neg (by simp [hvalid]), Piece.outputs, driven, hout, rest,
          hcntr]
        rfl
  · obtain ⟨hout, hstored, hcntr⟩ := next_busy hbusy i
    have hready : ¬ready ⟨s, i⟩ = true := by rwa [ready_eq_true_iff]
    rw [if_neg hready, List.append_nil, rest, ← hcntr, List.replicate_succ,
      driven, hout, rest, hstored]
    rfl

/-! ## Runs -/

/-- A command that has begun is played to its end, whatever the bus does. -/
theorem run_busy {m : ℕ} {inputs : List Input} (hm : inputs.length = m)
    (h : s.intCntrReg.toNat = m) :
    (trace next s inputs).map driven = List.replicate m (stored s) ∧
      (∀ c ∈ trace next s inputs, ready c = false) ∧
      (run next s inputs).intCntrReg = 0 := by
  induction m generalizing s inputs with
  | zero =>
      obtain rfl := List.eq_nil_of_length_eq_zero hm
      exact ⟨rfl, by simp, BitVec.eq_of_toNat_eq h⟩
  | succ m ih =>
      obtain ⟨i, inputs, rfl⟩ := List.exists_cons_of_length_eq_add_one hm
      have hbusy : s.intCntrReg ≠ 0 := by
        intro hzero
        rw [hzero] at h
        exact absurd h (by simp)
      obtain ⟨hout, hstored, hcntr⟩ := next_busy hbusy i
      have hrest : inputs.length = m := by simpa using hm
      have hleft : (next s i).intCntrReg.toNat = m := by omega
      obtain ⟨houts, hready, hend⟩ := ih hrest hleft
      refine ⟨?_, ?_, hend⟩
      · rw [trace_cons, List.map_cons, houts, hstored, driven, hout,
          List.replicate_succ]
      · rw [trace_cons, List.forall_mem_cons]
        refine ⟨?_, hready⟩
        rw [Bool.eq_false_iff, Ne, ready_eq_true_iff]
        exact hbusy

/-- A command is played from the cycle of its acceptance on. -/
theorem run_segment {inputs : List Input} (h : s.intCntrReg = 0)
    (hvalid : i.sAxisTvalid = true) (hlen : inputs.length = i.count.toNat) :
    (trace next s (i :: inputs)).map driven =
        List.replicate (i.count.toNat + 1) i.command.output ∧
      (∀ c ∈ trace next (next s i) inputs, ready c = false) ∧
      (run next s (i :: inputs)).intCntrReg = 0 := by
  obtain ⟨hout, hstored, hcntr⟩ := next_accepts h hvalid
  obtain ⟨houts, hready, hend⟩ := run_busy (s := next s i) hlen
    (congrArg BitVec.toNat hcntr)
  refine ⟨?_, hready, hend⟩
  rw [trace_cons, List.map_cons, houts, hstored, driven, hout,
    List.replicate_succ]

/-- The pieces of a run, one for each cycle in which the core is ready. -/
def pieces (cycles : List (Cycle State Input)) : List Piece :=
  (cycles.filter ready).map piece

theorem flatMap_outputs_pieces (cycles : List (Cycle State Input)) :
    (pieces cycles).flatMap Piece.outputs =
      cycles.flatMap fun c => if ready c then (piece c).outputs else [] := by
  induction cycles with
  | nil => rfl
  | cons c cycles ih =>
      rw [List.flatMap_cons, ← ih, pieces, pieces]
      cases hready : ready c with
      | true => simp [hready]
      | false => simp [hready]

theorem filterMap_command_pieces (cycles : List (Cycle State Input)) :
    (pieces cycles).filterMap Piece.command = cycles.flatMap accepted := by
  induction cycles with
  | nil => rfl
  | cons c cycles ih =>
      rw [List.flatMap_cons, ← ih, pieces, pieces, accepted]
      cases hready : ready c <;> cases hvalid : c.input.sAxisTvalid <;>
        simp [hready, hvalid, piece, Piece.command, List.filterMap_cons,
          -List.filterMap_map]

/-- The outputs after reset are the segments of the accepted commands in their
order and idle cycles between them, each segment as long as its count says.  A
command that is valid when the one before it ends follows it at once. -/
theorem outputs_timeline (h : IsReset s) (inputs : List Input) :
    (output s).dout = false ∧
      (trace next s inputs).map driven ++ rest (run next s inputs) =
        (pieces (trace next s inputs)).flatMap Piece.outputs ∧
      (pieces (trace next s inputs)).filterMap Piece.command =
        (trace next s inputs).flatMap accepted ∧
      ∀ (i j : Input) (between : List Input),
        ready ⟨run next s inputs, i⟩ = true → i.sAxisTvalid = true →
        between.length = i.count.toNat →
        (trace next (run next s inputs) (i :: between)).map driven =
            List.replicate (i.count.toNat + 1) i.command.output ∧
          (∀ c ∈ trace next (next (run next s inputs) i) between,
            ready c = false) ∧
          ready ⟨run next s (inputs ++ i :: between), j⟩ = true ∧
          (j.sAxisTvalid = true →
            driven ⟨run next s (inputs ++ i :: between), j⟩ =
              j.command.output) := by
  have hempty : rest s = [] := by
    rw [h]
    rfl
  refine ⟨?_, ?_, filterMap_command_pieces _, ?_⟩
  · rw [h]
    rfl
  · have hrun := run_conserves rest
      (fun c => if ready c then (piece c).outputs else [])
      (fun c => [driven c]) rest_step hempty inputs
    rw [flatMap_outputs_pieces, hrun, List.map_eq_flatMap]
  · intro i j between hready hvalid hlen
    obtain ⟨houts, hbusy, hend⟩ :=
      run_segment (ready_eq_true_iff.mp hready) hvalid hlen
    rw [← run_append] at hend
    refine ⟨houts, hbusy, ready_eq_true_iff.mpr hend, ?_⟩
    intro hj
    exact (next_accepts hend hj).1

/-- Three commands back to back, of one, two and three cycles, and an idle cycle.
The third one is on offer while the second one lasts. -/
theorem outputs_timeline_adjacent :
    let first : Input := ⟨0x1000200000003#128 <<< 64, true⟩
    let second : Input := ⟨0x1000500000006#128 <<< 64 ||| 1, true⟩
    let third : Input := ⟨0x1000900000008#128 <<< 64 ||| 2, true⟩
    let inputs := [first, second, third, third, ⟨0, false⟩, ⟨0, false⟩, ⟨0, false⟩]
    let s : State := ⟨0, 0, 0, 0, false⟩
    (trace next s inputs).map driven ++ rest (run next s inputs) =
        (pieces (trace next s inputs)).flatMap Piece.outputs ∧
      (trace next s inputs).map driven =
        [⟨3, 2, true⟩, ⟨6, 5, true⟩, ⟨6, 5, true⟩, ⟨8, 9, true⟩, ⟨8, 9, true⟩,
          ⟨8, 9, true⟩, ⟨0, 0, false⟩] :=
  ⟨(outputs_timeline rfl _).2.1, by decide⟩

end RedPitayaNotes.AxisGateController
