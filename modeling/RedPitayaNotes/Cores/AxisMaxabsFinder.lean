import RedPitayaNotes.Support.Blocks
import RedPitayaNotes.Support.Counters

/-!
# The axis_maxabs_finder core

`cores/axis_maxabs_finder.v` reports the largest magnitude of each block of
`cfg_data + 1` samples.  It is a collector like `axis_accumulator`, but the
sample that closes a block is counted and not compared.
-/

namespace RedPitayaNotes.AxisMaxabsFinder

open Clocked Elastic Blocks Counters

structure Params where
  axisTdataWidth : ℕ := 16
  cntrWidth : ℕ := 32

structure State (p : Params) where
  intMaxReg : BitVec p.axisTdataWidth
  intTdataReg : BitVec p.axisTdataWidth
  intCntrReg : BitVec p.cntrWidth
  intTvalidReg : Bool

structure Input (p : Params) where
  cfgData : BitVec p.cntrWidth
  sAxisTdata : BitVec p.axisTdataWidth
  sAxisTvalid : Bool
  mAxisTready : Bool

/-- `int_abs_wire` -/
def intAbsWire {w : ℕ} (sAxisTdata : BitVec w) : BitVec w :=
  if sAxisTdata.msb then ~~~sAxisTdata else sAxisTdata

def larger {w : ℕ} (intMaxReg sAxisTdata : BitVec w) : BitVec w :=
  if intAbsWire sAxisTdata > intMaxReg then intAbsWire sAxisTdata else intMaxReg

variable {p : Params}

def intCompWire (s : State p) (i : Input p) : Bool :=
  decide (s.intCntrReg < i.cfgData)

/-- Of two assignments to a register the later one counts. -/
def step (aresetn : Bool) (s : State p) (i : Input p) : State p where
  intMaxReg :=
    if !aresetn then 0
    else if i.sAxisTvalid && !intCompWire s i then 0
    else if i.sAxisTvalid && intCompWire s i then larger s.intMaxReg i.sAxisTdata
    else s.intMaxReg
  intTdataReg :=
    if !aresetn then 0
    else if i.sAxisTvalid && !intCompWire s i then s.intMaxReg
    else s.intTdataReg
  intCntrReg :=
    if !aresetn then 0
    else if i.sAxisTvalid && !intCompWire s i then 0
    else if i.sAxisTvalid && intCompWire s i then s.intCntrReg + 1
    else s.intCntrReg
  intTvalidReg :=
    if !aresetn then false
    else if i.mAxisTready && s.intTvalidReg then false
    else if i.sAxisTvalid && !intCompWire s i then true
    else s.intTvalidReg

def next (s : State p) (i : Input p) : State p := step true s i

/-- The registers after an edge in reset. -/
def reset (p : Params) : State p := ⟨0, 0, 0, false⟩

theorem step_reset (s : State p) (i : Input p) : step false s i = reset p := rfl

/-- The samples accepted on `s_axis`, which is always ready. -/
def accepted (c : Cycle (State p) (Input p)) : List (BitVec p.axisTdataWidth) :=
  transfer c.input.sAxisTvalid true c.input.sAxisTdata

/-- The words transferred on `m_axis`. -/
def delivered (c : Cycle (State p) (Input p)) :
    List (BitVec p.axisTdataWidth) :=
  transfer c.state.intTvalidReg c.input.mAxisTready c.state.intTdataReg

/-- The word offered on `m_axis`. -/
def offered (s : State p) : List (BitVec p.axisTdataWidth) :=
  if s.intTvalidReg then [s.intTdataReg] else []

/-! ## Magnitudes -/

/-- `x` for non-negative `x` and `-x - 1` for negative `x`. -/
def magnitude {w : ℕ} (x : BitVec w) : ℤ :=
  if 0 ≤ x.toInt then x.toInt else -x.toInt - 1

/-- The largest magnitude of some samples, or 0. -/
def peak {w : ℕ} (xs : List (BitVec w)) : ℤ :=
  xs.foldl (fun m x => max m (magnitude x)) 0

theorem toNat_intAbsWire {w : ℕ} (x : BitVec w) :
    ((intAbsWire x).toNat : ℤ) = magnitude x := by
  have hlt := x.isLt
  have hcast : ((2 ^ w : ℕ) : ℤ) = (2 : ℤ) ^ w := Int.natCast_pow 2 w
  unfold intAbsWire magnitude
  rw [BitVec.toInt_eq_msb_cond]
  cases x.msb with
  | false =>
      rw [if_neg Bool.false_ne_true, if_neg Bool.false_ne_true,
        if_pos (Int.natCast_nonneg _)]
  | true =>
      rw [if_pos rfl, if_pos rfl, if_neg (by omega), BitVec.toNat_not]
      omega

theorem toNat_larger {w : ℕ} (m x : BitVec w) :
    ((larger m x).toNat : ℤ) = max (m.toNat : ℤ) (magnitude x) := by
  rw [← toNat_intAbsWire, larger]
  split
  next hgt =>
      have hlt : m.toNat < (intAbsWire x).toNat := hgt
      exact (Int.max_eq_right (Int.ofNat_le.mpr (Nat.le_of_lt hlt))).symm
  next hle =>
      have hle' : ¬m.toNat < (intAbsWire x).toNat := hle
      exact (Int.max_eq_left (Int.ofNat_le.mpr (Nat.not_lt.mp hle'))).symm

theorem peak_snoc {w : ℕ} (xs : List (BitVec w)) (x : BitVec w) :
    peak (xs ++ [x]) = max (peak xs) (magnitude x) :=
  List.foldl_concat _ _ _ _

/-- The comparator holds the peak of the samples it has seen. -/
theorem toNat_foldl_larger {w : ℕ} (xs : List (BitVec w)) :
    ((xs.foldl larger 0).toNat : ℤ) = peak xs := by
  induction xs using List.reverseRecOn with
  | nil => rfl
  | append_singleton xs x ih =>
      rw [List.foldl_concat, toNat_larger, ih, peak_snoc]

/-! ## Blocks -/

def rule (p : Params) (n : ℕ) :
    Rule (BitVec p.axisTdataWidth) (BitVec p.axisTdataWidth)
      (BitVec p.axisTdataWidth) where
  last := n
  init := 0
  add := larger
  result m _ := m

def view (s : State p) :
    Collector (BitVec p.axisTdataWidth) (BitVec p.axisTdataWidth) where
  cntr := s.intCntrReg.toNat
  acc := s.intMaxReg
  out := if s.intTvalidReg then some s.intTdataReg else none

def event (c : Cycle (State p) (Input p)) :
    Option (BitVec p.axisTdataWidth) × Bool :=
  (if c.input.sAxisTvalid then some c.input.sAxisTdata else none,
    c.input.mAxisTready)

theorem view_next {cfg : BitVec p.cntrWidth} (s : State p) (i : Input p)
    (hi : i.cfgData = cfg) :
    view (next s i) = (rule p cfg.toNat).next (view s) (event ⟨s, i⟩) := by
  subst hi
  refine Eq.trans ?_ (Rule.next_flags (rule p i.cfgData.toNat) i.sAxisTvalid
    s.intTvalidReg i.mAxisTready).symm
  have hcomp : intCompWire s i =
      decide (s.intCntrReg.toNat < i.cfgData.toNat) := rfl
  cases hsample : i.sAxisTvalid with
  | false => simp [view, next, step, hsample]
  | true =>
      by_cases hlt : s.intCntrReg.toNat < i.cfgData.toNat
      · simp [view, next, step, rule, hsample, hcomp, hlt, succ_mod_of_lt hlt]
      · simp [view, next, step, rule, hsample, hcomp, hlt]

theorem sampled_event (c : Cycle (State p) (Input p)) :
    Rule.sampled ⟨view c.state, event c⟩ = accepted c :=
  Rule.sampled_flags true _ _

theorem delivered_event (c : Cycle (State p) (Input p)) :
    Rule.delivered ⟨view c.state, event c⟩ = delivered c :=
  Rule.delivered_flags _ _

theorem collides_event {cfg : BitVec p.cntrWidth}
    (c : Cycle (State p) (Input p)) (hc : c.input.cfgData = cfg) :
    (rule p cfg.toNat).collides ⟨view c.state, event c⟩ =
      ((c.input.sAxisTvalid && !intCompWire c.state c.input) &&
        c.state.intTvalidReg) := by
  subst hc
  exact Rule.collides_flags _ _ _ _

/-- With a consumer that is always ready, a word is offered only in the cycle
after the sample that closed its block. -/
theorem cntr_of_tvalid (s : State p) {i : Input p} (hready : i.mAxisTready = true)
    (hvalid : (next s i).intTvalidReg = true) : (next s i).intCntrReg = 0 := by
  change (if i.mAxisTready && s.intTvalidReg then false
    else if i.sAxisTvalid && !intCompWire s i then true
    else s.intTvalidReg) = true at hvalid
  change (if i.sAxisTvalid && !intCompWire s i then 0
    else if i.sAxisTvalid && intCompWire s i then s.intCntrReg + 1
    else s.intCntrReg) = 0
  rw [hready, Bool.true_and] at hvalid
  split at hvalid
  next => cases hvalid
  next hempty =>
    split at hvalid
    next hlast => rw [if_pos hlast]
    next => exact absurd hvalid hempty

section Runs

variable {cfg : BitVec p.cntrWidth} {inputs : List (Input p)}

/-- The words reported are the peaks of all samples of their blocks. -/
def Covers (cfg : BitVec p.cntrWidth) (inputs : List (Input p)) : Prop :=
  ((trace next (reset p) inputs).flatMap delivered ++
      offered (run next (reset p) inputs)).map (fun x => (x.toNat : ℤ)) =
    (blocks (cfg.toNat + 1)
      ((trace next (reset p) inputs).flatMap accepted)).map peak

/-- The peak of a block is not on its last sample alone. -/
def PeakBeforeLast (block : List (BitVec p.axisTdataWidth)) : Prop :=
  ∀ x ∈ block.getLast?, magnitude x ≤ peak block.dropLast

instance (cfg : BitVec p.cntrWidth) (inputs : List (Input p)) :
    Decidable (Covers cfg inputs) :=
  inferInstanceAs (Decidable (_ = _))

instance (block : List (BitVec p.axisTdataWidth)) :
    Decidable (PeakBeforeLast block) :=
  inferInstanceAs (Decidable (∀ x ∈ block.getLast?, _))

/-- What the rule makes of the blocks. -/
theorem rule_values (n : ℕ) (xs : List (BitVec p.axisTdataWidth)) :
    (blocks ((rule p n).last + 1) xs).flatMap (rule p n).value =
      (blocks (n + 1) xs).map fun block => block.dropLast.foldl larger 0 := by
  rw [List.map_eq_flatMap]
  apply List.flatMap_congr
  intro block hblock
  obtain ⟨ys, y, rfl⟩ := (List.eq_nil_or_concat' block).resolve_left
    (List.ne_nil_of_length_eq_add_one (length_of_mem_blocks hblock))
  rw [Rule.value_snoc, List.dropLast_concat]
  rfl

/-- A block has only begun while the result of the one before it is offered. -/
theorem cntr_of_mem (hports : ∀ i ∈ inputs, i.mAxisTready = true)
    {c : Cycle (State p) (Input p)} (hc : c ∈ trace next (reset p) inputs)
    (hvalid : c.state.intTvalidReg = true) : c.state.intCntrReg = 0 := by
  obtain ⟨before, after, hinputs, hstate⟩ := exists_before_of_mem hc
  have hbefore : ∀ c ∈ trace next (reset p) before, c.input.mAxisTready = true := by
    refine forall_trace_input next (reset p) fun i hi => hports i ?_
    rw [hinputs]
    exact List.mem_append_left _ hi
  have hrun := run_invariant_of (fun s : State p => s.intTvalidReg = true → s.intCntrReg = 0)
    (fun c => c.input.mAxisTready = true) (fun s i _ hready => cntr_of_tvalid s hready)
    (fun h => Bool.noConfusion h) before hbefore
  rw [hstate] at hvalid ⊢
  exact hrun hvalid

/-- No result is lost. -/
theorem reported_eq (hcfg : 1 ≤ cfg.toNat)
    (hports : ∀ i ∈ inputs, i.cfgData = cfg ∧ i.mAxisTready = true) :
    (trace next (reset p) inputs).flatMap delivered ++
        offered (run next (reset p) inputs) =
      (blocks (cfg.toNat + 1)
        ((trace next (reset p) inputs).flatMap accepted)).map
          fun block => block.dropLast.foldl larger 0 := by
  have hiff := (rule p cfg.toNat).delivered_iff_of_view (s := reset p)
    view event _ view_next rfl fun i hi => (hports i hi).1
  have hoffered : (view (run next (reset p) inputs)).out.toList =
      offered (run next (reset p) inputs) := by
    unfold view offered
    dsimp only
    split <;> rfl
  simp only [sampled_event, delivered_event, hoffered] at hiff
  rw [rule_values] at hiff
  refine hiff.mpr fun c hc => ?_
  have hport : c.input.cfgData = cfg :=
    forall_trace_input next (reset p) (fun i hi => (hports i hi).1) c hc
  rw [collides_event c hport]
  cases hvalid : c.state.intTvalidReg with
  | false => exact Bool.and_false _
  | true =>
      have hcntr := cntr_of_mem (fun i hi => (hports i hi).2) hc hvalid
      have hcomp : intCompWire c.state c.input = true := by
        rw [intCompWire, hcntr, hport]
        exact decide_eq_true hcfg
      rw [hcomp, Bool.not_true, Bool.and_false, Bool.false_and]

theorem peak_dropLast_iff {block : List (BitVec p.axisTdataWidth)}
    (h : block ≠ []) :
    peak block.dropLast = peak block ↔ PeakBeforeLast block := by
  induction block using List.reverseRecOn with
  | nil => exact absurd rfl h
  | append_singleton xs x =>
      have hlast : PeakBeforeLast (xs ++ [x]) ↔ magnitude x ≤ peak xs := by
        simp [PeakBeforeLast]
      rw [hlast, List.dropLast_concat, peak_snoc]
      constructor
      · intro heq
        rw [heq]
        exact Int.le_max_right _ _
      · exact fun hle => (Int.max_eq_left hle).symm

/-- The reports cover every sample exactly if no block has its peak on its last
sample alone. -/
theorem covers_iff (hcfg : 1 ≤ cfg.toNat)
    (hports : ∀ i ∈ inputs, i.cfgData = cfg ∧ i.mAxisTready = true) :
    Covers cfg inputs ↔
      ∀ block ∈ blocks (cfg.toNat + 1)
        ((trace next (reset p) inputs).flatMap accepted),
          PeakBeforeLast block := by
  rw [Covers, reported_eq hcfg hports, List.map_map, List.map_inj_left]
  refine forall₂_congr fun block hblock => ?_
  change ((block.dropLast.foldl larger 0).toNat : ℤ) = _ ↔ _
  rw [toNat_foldl_larger]
  exact peak_dropLast_iff
    (List.ne_nil_of_length_eq_add_one (length_of_mem_blocks hblock))

end Runs

def twoSamples : Params := ⟨8, 2⟩

/-- Two samples a block; the samples are `xs`, without gaps. -/
def samples (xs : List (BitVec 8)) : List (Input twoSamples) :=
  xs.map fun x => ⟨1, x, true, true⟩

/-- The peak, that of -100, is on the first sample. -/
theorem covers_first : Covers 1 (samples [156, 3]) :=
  (covers_iff (by decide) (by decide)).mpr (by decide)

/-- A peak on the closing sample is not reported. -/
theorem not_covers_last :
    ¬∀ (p : Params) (cfg : BitVec p.cntrWidth) (inputs : List (Input p)),
      1 ≤ cfg.toNat →
      (∀ i ∈ inputs, i.cfgData = cfg ∧ i.mAxisTready = true) →
      Covers cfg inputs := by
  intro h
  have hcovers := h twoSamples 1 (samples [3, 100]) (by decide) (by decide)
  revert hcovers
  decide

end RedPitayaNotes.AxisMaxabsFinder
