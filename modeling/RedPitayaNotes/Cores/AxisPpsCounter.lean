import RedPitayaNotes.Support.Clocked
import RedPitayaNotes.Support.Counters
import RedPitayaNotes.Support.Occurrences

/-!
# The axis_pps_counter core and measure-corr

`cores/axis_pps_counter.v` counts the cycles between two pulses and emits the
count at the second one.  The count leaves out the cycle of a pulse, and
`projects/common_tools/app/measure-corr.c`, which adds the counts up, adds one
for each.
-/

namespace RedPitayaNotes.AxisPpsCounter

open Clocked Counters Occurrences

/-- The upper bits of a word are zeros. -/
structure Params where
  axisTdataWidth : ℕ := 32
  cntrWidth : ℕ := 32
  cntr_le : cntrWidth ≤ axisTdataWidth

structure State (p : Params) where
  intCntrReg : BitVec p.cntrWidth
  intEnblReg : Bool
  intDataReg : BitVec 2

variable {p : Params}

section Wires

variable (s : State p)

/-- `int_data_reg[1] & ~int_data_reg[0]` -/
def intEdgeWire : Bool := s.intDataReg.getLsbD 1 && !s.intDataReg.getLsbD 0

def mAxisTdata : BitVec p.axisTdataWidth :=
  s.intCntrReg.setWidth p.axisTdataWidth

def mAxisTvalid : Bool := s.intEnblReg && intEdgeWire s

end Wires

/-- The registers after an edge in reset. -/
def reset : State p := ⟨0, false, 0⟩

/-- The `always` block at a clock edge.  `intPpsWire` is the input as it leaves
the synchroniser. -/
def step (aresetn : Bool) (s : State p) (intPpsWire : Bool) : State p :=
  if !aresetn then reset
  else
    { intCntrReg := if intEdgeWire s then 0 else s.intCntrReg + 1
      intEnblReg := if intEdgeWire s then true else s.intEnblReg
      intDataReg :=
        s.intDataReg.extractLsb' 0 1 ++ BitVec.ofBool (!intPpsWire) }

/-- An edge out of reset. -/
def next (s : State p) (intPpsWire : Bool) : State p := step true s intPpsWire

/-! ## What the core emits -/

def isEdge (c : Cycle (State p) Bool) : Bool := intEdgeWire c.state

def emits (c : Cycle (State p) Bool) : Bool := mAxisTvalid c.state

/-- The words emitted, oldest first. -/
def words (cycles : List (Cycle (State p) Bool)) :
    List (BitVec p.axisTdataWidth) :=
  (cycles.filter emits).map fun c => mAxisTdata c.state

theorem words_snoc (past : List (Cycle (State p) Bool))
    (c : Cycle (State p) Bool) :
    words (past ++ [c]) =
      words past ++ if emits c then [mAxisTdata c.state] else [] := by
  rw [words, List.filter_append, List.map_append]
  cases hc : emits c <;> simp [words, hc]

/-- After the cycles `past`: a word for every gap between two edges so far, the
count since the last edge, and a flag that there was one. -/
structure Measured (past : List (Cycle (State p) Bool)) (s : State p) :
    Prop where
  emitted : times emits past = (times isEdge past).tail
  values : (words past).map BitVec.toNat =
    (gaps (times isEdge past)).map fun gap => (gap - 1) % 2 ^ p.cntrWidth
  enbl : s.intEnblReg = !(times isEdge past).isEmpty
  cntr : ∀ t ∈ (times isEdge past).getLast?,
    s.intCntrReg.toNat = (past.length - t - 1) % 2 ^ p.cntrWidth

theorem measured_reset : Measured (p := p) [] reset := by
  refine ⟨rfl, rfl, rfl, ?_⟩
  simp

/-- A cycle that is not an edge only counts. -/
theorem measured_of_not_edge {past : List (Cycle (State p) Bool)} {s : State p}
    {i : Bool} (h : Measured past s) (hedge : intEdgeWire s = false) :
    Measured (past ++ [⟨s, i⟩]) (next s i) := by
  have htimes : times isEdge (past ++ [⟨s, i⟩]) = times isEdge past := by
    rw [times_snoc]
    simp [isEdge, hedge]
  have hemits : emits ⟨s, i⟩ = false := by simp [emits, mAxisTvalid, hedge]
  constructor
  · rw [htimes, times_snoc, hemits, ← h.emitted]
    simp
  · rw [htimes, words_snoc, hemits, ← h.values]
    simp
  · rw [htimes, ← h.enbl]
    simp [next, step, hedge]
  · intro t ht
    rw [htimes] at ht
    have hlt := lt_length_of_mem_times (List.mem_of_getLast? ht)
    have hcntr : (next s i).intCntrReg = s.intCntrReg + 1 := by
      simp [next, step, hedge]
    rw [hcntr, toNat_add_one, h.cntr t ht, Nat.mod_add_mod, List.length_append,
      List.length_singleton]
    congr 1
    omega

theorem toNat_mAxisTdata (s : State p) :
    (mAxisTdata s).toNat = s.intCntrReg.toNat :=
  BitVec.toNat_setWidth_of_le p.cntr_le

/-- An edge emits the count, unless it is the first, and starts over. -/
theorem measured_of_edge {past : List (Cycle (State p) Bool)} {s : State p}
    {i : Bool} (h : Measured past s) (hedge : intEdgeWire s = true) :
    Measured (past ++ [⟨s, i⟩]) (next s i) := by
  have htimes : times isEdge (past ++ [⟨s, i⟩]) =
      times isEdge past ++ [past.length] := by
    rw [times_snoc]
    simp [isEdge, hedge]
  have hemits : emits ⟨s, i⟩ = !(times isEdge past).isEmpty := by
    simp [emits, mAxisTvalid, hedge, h.enbl]
  have hcntr : ∀ t ∈ (times isEdge (past ++ [⟨s, i⟩])).getLast?,
      (next s i).intCntrReg.toNat =
        (List.length (past ++ [⟨s, i⟩]) - t - 1) % 2 ^ p.cntrWidth := by
    intro t ht
    obtain rfl : past.length = t := by simpa [htimes] using ht
    simp [next, step, hedge]
  have henbl : (next s i).intEnblReg =
      !(times isEdge (past ++ [⟨s, i⟩])).isEmpty := by
    simp [htimes, next, step, hedge]
  rcases List.eq_nil_or_concat' (times isEdge past) with hnil | ⟨init, t, hts⟩
  · rw [hnil] at hemits htimes
    have hno : times emits past = [] := by rw [h.emitted, hnil, List.tail_nil]
    have hnone : words past = [] := by
      have hvalues := h.values
      rw [hnil] at hvalues
      exact List.map_eq_nil_iff.mp hvalues
    refine ⟨?_, ?_, henbl, hcntr⟩
    · rw [times_snoc, hemits, htimes, hno]
      rfl
    · rw [words_snoc, hemits, htimes, hnone]
      rfl
  · rw [hts] at hemits htimes
    have hcount := h.cntr t (by simp [hts])
    have hvalues := h.values
    have hemitted := h.emitted
    rw [hts] at hvalues hemitted
    have hvalid : emits ⟨s, i⟩ = true := by
      rw [hemits]
      cases init <;> rfl
    refine ⟨?_, ?_, henbl, hcntr⟩
    · rw [times_snoc, hvalid, htimes, hemitted, if_pos rfl]
      exact (List.tail_append_of_ne_nil (by simp)).symm
    · rw [words_snoc, hvalid, htimes, gaps_concat_concat, List.map_append,
        List.map_append, hvalues, if_pos rfl, List.map_singleton,
        List.map_singleton, toNat_mAxisTdata, hcount]

theorem measured_run (inputs : List Bool) :
    Measured (trace next (reset : State p) inputs)
      (run next (reset : State p) inputs) := by
  apply trace_induction Measured measured_reset
  intro past s i h
  cases hedge : intEdgeWire s with
  | false => exact measured_of_not_edge h hedge
  | true => exact measured_of_edge h hedge

/-! ## Edges of the input -/

theorem getLsbD_intDataReg_next (s : State p) (intPpsWire : Bool) :
    (next s intPpsWire).intDataReg.getLsbD 0 = !intPpsWire ∧
      (next s intPpsWire).intDataReg.getLsbD 1 = s.intDataReg.getLsbD 0 := by
  have hnext : (next s intPpsWire).intDataReg =
      s.intDataReg.extractLsb' 0 1 ++ BitVec.ofBool (!intPpsWire) := rfl
  rw [hnext, BitVec.getLsbD_append, BitVec.getLsbD_append]
  simp

/-- The data register holds the last two values of the input, inverted. -/
theorem intEdgeWire_run (s : State p) (inputs : List Bool) (a b : Bool) :
    intEdgeWire (run next s (inputs ++ [a, b])) = (!a && b) := by
  obtain ⟨hlast, -⟩ := getLsbD_intDataReg_next (run next s inputs) a
  obtain ⟨hnew, hold⟩ :=
    getLsbD_intDataReg_next (next (run next s inputs) a) b
  rw [run_append, run_cons, run_cons, run_nil, intEdgeWire, hnew, hold, hlast,
    Bool.not_not]

/-- The cycles in which `int_edge_wire` is high. -/
def edgeTimes (p : Params) (inputs : List Bool) : List ℕ :=
  times isEdge (trace next (reset : State p) inputs)

/-- An edge is seen two cycles after a low input that a high one follows. -/
theorem mem_edgeTimes {inputs : List Bool} {n : ℕ} (hn : n < inputs.length) :
    n ∈ edgeTimes p inputs ↔
      ∃ m, n = m + 2 ∧ inputs[m]? = some false ∧ inputs[m + 1]? = some true := by
  have hcycle := getElem?_trace next (reset : State p) inputs n
  rw [List.getElem?_eq_getElem hn, Option.map_some] at hcycle
  have hedge : n ∈ edgeTimes p inputs ↔
      intEdgeWire (run next (reset : State p) (inputs.take n)) = true := by
    simp [edgeTimes, mem_times, hcycle, isEdge]
  rw [hedge]
  match n with
  | 0 => simp [reset, intEdgeWire]
  | 1 =>
      -- the register still holds a bit that reset has cleared
      have hone : inputs.take 1 = [inputs[0]] := by
        rw [List.take_add_one, List.take_zero, List.getElem?_eq_getElem]
        rfl
      have hbit := (getLsbD_intDataReg_next (reset : State p) inputs[0]).2
      rw [hone, run_cons, run_nil, intEdgeWire, hbit]
      simp [reset]
  | m + 2 =>
      have htwo : inputs.take (m + 2) =
          inputs.take m ++ [inputs[m], inputs[m + 1]] := by
        rw [List.take_add_one, List.take_add_one, List.getElem?_eq_getElem,
          List.getElem?_eq_getElem, List.append_assoc]
        rfl
      have hfirst : inputs[m]? = some inputs[m] := List.getElem?_eq_getElem _
      have hsecond : inputs[m + 1]? = some inputs[m + 1] :=
        List.getElem?_eq_getElem _
      rw [htwo, intEdgeWire_run]
      constructor
      · intro h
        refine ⟨m, rfl, ?_⟩
        simpa [hfirst, hsecond] using h
      · rintro ⟨k, hk, hlow, hhigh⟩
        obtain rfl : m = k := by omega
        rw [hfirst] at hlow
        rw [hsecond] at hhigh
        rw [Option.some.inj hlow, Option.some.inj hhigh]
        rfl

/-! ## The correction of measure-corr -/

/-- The loop of `main`: `buffer += *fifo + 1`, `time` times. -/
def accumulate (time : ℕ) (fifo : List (BitVec 32)) : BitVec 32 :=
  (fifo.take time).foldl (fun buffer word => buffer + (word + 1)) 0

theorem toNat_foldl_add_one (words : List (BitVec 32)) (buffer : BitVec 32) :
    (words.foldl (fun buffer word => buffer + (word + 1)) buffer).toNat =
      (buffer.toNat + (words.map fun word => word.toNat + 1).sum) % 2 ^ 32 := by
  induction words generalizing buffer with
  | nil => exact (Nat.mod_eq_of_lt buffer.isLt).symm
  | cons word words ih =>
      rw [List.foldl_cons, ih, BitVec.toNat_add, toNat_add_one, Nat.add_mod_mod,
        Nat.mod_add_mod, List.map_cons, List.sum_cons, Nat.add_assoc]

theorem toNat_accumulate (time : ℕ) (fifo : List (BitVec 32)) :
    (accumulate time fifo).toNat =
      ((fifo.map fun word => word.toNat + 1).take time).sum % 2 ^ 32 := by
  rw [accumulate, toNat_foldl_add_one, ← List.map_take]
  simp

/-- What the program reads of the words, through a 32-bit window. -/
def fifoOf (inputs : List Bool) : List (BitVec 32) :=
  (words (trace next (reset : State p) inputs)).map (BitVec.setWidth 32)

section Exact

variable {inputs : List Bool}

theorem words_eq_gaps (hwidth : p.cntrWidth = 32)
    (hgaps : ∀ gap ∈ gaps (edgeTimes p inputs), gap < 2 ^ 32) :
    (words (trace next (reset : State p) inputs)).map
        (fun word => word.toNat + 1) =
      gaps (edgeTimes p inputs) := by
  have hpos := pos_of_mem_gaps
    (isChain_times isEdge (trace next (reset : State p) inputs))
  have hsucc := congrArg (List.map (· + 1)) (measured_run (p := p) inputs).values
  rw [List.map_map, List.map_map, hwidth] at hsucc
  refine hsucc.trans ((List.map_congr_left ?_).trans (List.map_id _))
  intro gap hgap
  change (gap - 1) % 2 ^ 32 + 1 = gap
  have hlt := hgaps gap hgap
  have hgap := hpos gap hgap
  omega

/-- The program sees the words as they are. -/
theorem fifoOf_eq_gaps (hwidth : p.cntrWidth = 32)
    (hgaps : ∀ gap ∈ gaps (edgeTimes p inputs), gap < 2 ^ 32) :
    (fifoOf (p := p) inputs).map (fun word => word.toNat + 1) =
      gaps (edgeTimes p inputs) := by
  have hwords := words_eq_gaps hwidth hgaps
  rw [fifoOf, List.map_map, ← hwords]
  apply List.map_congr_left
  intro word hword
  have hlt : word.toNat + 1 < 2 ^ 32 := by
    apply hgaps
    rw [← hwords]
    exact List.mem_map_of_mem hword
  change (word.setWidth 32).toNat + 1 = word.toNat + 1
  rw [BitVec.toNat_setWidth, Nat.mod_eq_of_lt (Nat.lt_of_succ_lt hlt)]

theorem accumulate_eq (hwidth : p.cntrWidth = 32)
    (hgaps : ∀ gap ∈ gaps (edgeTimes p inputs), gap < 2 ^ 32) {n t₀ tₙ : ℕ}
    (hfirst : (edgeTimes p inputs)[0]? = some t₀)
    (hlast : (edgeTimes p inputs)[n]? = some tₙ) (hlt : tₙ - t₀ < 2 ^ 32) :
    (accumulate n (fifoOf (p := p) inputs)).toNat = tₙ - t₀ := by
  have hsum := sum_take_gaps (isChain_times isEdge _) hfirst hlast
  change t₀ + ((gaps (edgeTimes p inputs)).take n).sum = tₙ at hsum
  rw [toNat_accumulate, fifoOf_eq_gaps hwidth hgaps, ← hsum,
    Nat.add_sub_cancel_left]
  apply Nat.mod_eq_of_lt
  omega

end Exact

/-- One word for each edge from the second on; a word and one are the cycles
between two edges; and what `measure-corr` adds up are the cycles between the
first edge and the last one it has read of. -/
theorem intervals_exact (hwidth : p.cntrWidth = 32) (inputs : List Bool)
    (hgaps : ∀ gap ∈ gaps (edgeTimes p inputs), gap < 2 ^ 32) :
    times emits (trace next (reset : State p) inputs) =
        (edgeTimes p inputs).tail ∧
      (words (trace next (reset : State p) inputs)).map
          (fun word => word.toNat + 1) =
        gaps (edgeTimes p inputs) ∧
      ∀ n t₀ tₙ, (edgeTimes p inputs)[0]? = some t₀ →
        (edgeTimes p inputs)[n]? = some tₙ → tₙ - t₀ < 2 ^ 32 →
        (accumulate n (fifoOf (p := p) inputs)).toNat = tₙ - t₀ :=
  ⟨(measured_run inputs).emitted, words_eq_gaps hwidth hgaps,
    fun _ _ _ => accumulate_eq hwidth hgaps⟩

def defaults : Params where
  cntr_le := Nat.le_refl 32

/-- Two short pulses, the second after a glitch. -/
def twoPulses : List Bool :=
  [false, true, false, true, true, false, false, true, true, true]

theorem intervals_exact_twoPulses :
    edgeTimes defaults twoPulses = [2, 4, 8] ∧
      (accumulate 2 (fifoOf (p := defaults) twoPulses)).toNat = 6 :=
  ⟨by decide, (intervals_exact rfl twoPulses (by decide)).2.2 2 2 8
    (by decide) (by decide) (by decide)⟩

end RedPitayaNotes.AxisPpsCounter
