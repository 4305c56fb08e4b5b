import Mathlib.Algebra.BigOperators.Group.List.Basic
import Mathlib.Tactic.IntervalCases
import RedPitayaNotes.Support.Bits
import RedPitayaNotes.Support.Clocked
import RedPitayaNotes.Support.Counters

/-!
# The axis_pdm core

`cores/axis_pdm.v` turns samples into a pulse density: it adds them up in offset
binary and gives the carry out.  A counter sets the pace at which samples are
taken.
-/

namespace RedPitayaNotes.AxisPdm

open Clocked Counters Bits

/-- The slice of a sample below its sign is not empty. -/
structure Params where
  axisTdataWidth : ℕ := 16
  cntrWidth : ℕ := 8
  axisTdata_gt : 1 < axisTdataWidth

/-- The registers that change when a sample is accepted. -/
structure Regs (p : Params) where
  intDataReg : BitVec p.axisTdataWidth
  intAccReg : BitVec (p.axisTdataWidth + 1)

structure State (p : Params) extends Regs p where
  intCntrReg : BitVec p.cntrWidth
  intTreadyReg : Bool

structure Input (p : Params) where
  cfgData : BitVec p.cntrWidth
  sAxisTdata : BitVec p.axisTdataWidth
  sAxisTvalid : Bool

variable {p : Params}

/-! ## The registers -/

/-- `{~s_axis_tdata[AXIS_TDATA_WIDTH-1], s_axis_tdata[AXIS_TDATA_WIDTH-2:0]}` -/
def intDataNext (sAxisTdata : BitVec p.axisTdataWidth) :
    BitVec p.axisTdataWidth :=
  (BitVec.ofBool (!sAxisTdata.getLsbD (p.axisTdataWidth - 1)) ++
    sAxisTdata.extractLsb' 0 (p.axisTdataWidth - 1)).cast
      (Nat.add_sub_cancel' (Nat.le_of_lt p.axisTdata_gt))

namespace Regs

/-- The body of `if(int_tready_reg & s_axis_tvalid)`.  The sum is as wide as the
register it goes to. -/
def sample (r : Regs p) (sAxisTdata : BitVec p.axisTdataWidth) : Regs p where
  intDataReg := intDataNext sAxisTdata
  intAccReg :=
    (r.intAccReg.extractLsb' 0 p.axisTdataWidth).setWidth _ +
      r.intDataReg.setWidth _

/-- `int_acc_reg[AXIS_TDATA_WIDTH]` -/
def dout (r : Regs p) : Bool := r.intAccReg.getLsbD p.axisTdataWidth

/-- The registers after an edge in reset. -/
def reset : Regs p := ⟨0, 0⟩

end Regs

section Wires

variable (s : State p) (i : Input p)

def sAxisTready : Bool := s.intTreadyReg

def intCntrNext : BitVec p.cntrWidth :=
  if s.intCntrReg < i.cfgData then s.intCntrReg + 1 else 0

/-- Of two assignments the later one counts. -/
def intTreadyNext : Bool :=
  if s.intTreadyReg then false
  else if s.intCntrReg < i.cfgData then s.intTreadyReg
  else true

def accepted (c : Cycle (State p) (Input p)) : Bool :=
  sAxisTready c.state && c.input.sAxisTvalid

end Wires

def reset : State p := ⟨Regs.reset, 0, false⟩

/-- The `always` blocks at a clock edge. -/
def step (aresetn : Bool) (s : State p) (i : Input p) : State p :=
  if !aresetn then reset
  else
    { toRegs :=
        if accepted ⟨s, i⟩ then s.sample i.sAxisTdata else s.toRegs
      intCntrReg := intCntrNext s i
      intTreadyReg := intTreadyNext s i }

/-- An edge out of reset. -/
def next (s : State p) (i : Input p) : State p := step true s i

/-! ## Samples in offset binary -/

/-- The value of a sample, counted from the least one. -/
def offsetBinary (x : BitVec p.axisTdataWidth) : ℕ :=
  (x.toInt + 2 ^ (p.axisTdataWidth - 1)).toNat

theorem toNat_intDataNext (x : BitVec p.axisTdataWidth) :
    (intDataNext x).toNat = offsetBinary x := by
  have hgt := p.axisTdata_gt
  have hhalf : 2 ^ p.axisTdataWidth = 2 * 2 ^ (p.axisTdataWidth - 1) := by
    rw [← Nat.pow_succ']
    congr 1
    omega
  have hlt := x.isLt
  have hbits : (intDataNext x).toNat =
      (!x.msb).toNat * 2 ^ (p.axisTdataWidth - 1) +
        x.toNat % 2 ^ (p.axisTdataWidth - 1) := by
    rw [intDataNext, BitVec.toNat_cast, toNat_append_eq_add,
      BitVec.msb_eq_getLsbD_last, BitVec.extractLsb'_toNat, Nat.shiftRight_zero,
      BitVec.toNat_ofBool]
  have hoffset : offsetBinary x =
      (x.toInt + ((2 ^ (p.axisTdataWidth - 1) : ℕ) : ℤ)).toNat := by
    rw [offsetBinary, Nat.cast_pow, Nat.cast_ofNat]
  rw [hbits, hoffset, BitVec.toInt_eq_msb_cond, BitVec.msb_eq_decide, hhalf]
  rw [hhalf] at hlt
  generalize 2 ^ (p.axisTdataWidth - 1) = half at hlt ⊢
  by_cases hneg : half ≤ x.toNat
  · have hrest : x.toNat % half = x.toNat - half := by
      rw [Nat.mod_eq_sub_mod hneg, Nat.mod_eq_of_lt (by omega)]
    rw [decide_eq_true hneg, hrest, if_pos rfl, Bool.not_true, Bool.toNat_false]
    omega
  · rw [decide_eq_false hneg, Nat.mod_eq_of_lt (by omega), if_neg (by decide),
      Bool.not_false, Bool.toNat_true]
    omega

/-! ## Carries -/

namespace Regs

theorem toNat_intAccReg_sample (r : Regs p) (x : BitVec p.axisTdataWidth) :
    (r.sample x).intAccReg.toNat =
      r.intAccReg.toNat % 2 ^ p.axisTdataWidth + r.intDataReg.toNat := by
  have hlow := Nat.mod_lt r.intAccReg.toNat (Nat.two_pow_pos p.axisTdataWidth)
  have hdata := r.intDataReg.isLt
  have hpow : 2 ^ (p.axisTdataWidth + 1) = 2 ^ p.axisTdataWidth * 2 :=
    pow_succ 2 p.axisTdataWidth
  simp only [sample, BitVec.toNat_add, BitVec.toNat_setWidth,
    BitVec.extractLsb'_toNat, Nat.shiftRight_zero, hpow]
  generalize r.intAccReg.toNat % 2 ^ p.axisTdataWidth = low at hlow ⊢
  rw [Nat.mod_eq_of_lt (show low < _ by omega),
    Nat.mod_eq_of_lt (show r.intDataReg.toNat < _ by omega),
    Nat.mod_eq_of_lt (by omega)]

/-- The top bit of the accumulator is the carry. -/
theorem toNat_dout (r : Regs p) :
    r.dout.toNat = r.intAccReg.toNat / 2 ^ p.axisTdataWidth := by
  have hlt := r.intAccReg.isLt
  rw [Nat.pow_succ] at hlt
  have hquot : r.intAccReg.toNat / 2 ^ p.axisTdataWidth < 2 :=
    Nat.div_lt_of_lt_mul hlt
  rw [dout, BitVec.getLsbD, Nat.testBit_eq_decide_div_mod_eq,
    Nat.mod_eq_of_lt hquot]
  generalize r.intAccReg.toNat / 2 ^ p.axisTdataWidth = q at hquot
  interval_cases q <;> rfl

/-- The update of the cycle leaves `dout` high. -/
def pulse (c : Cycle (Regs p) (BitVec p.axisTdataWidth)) : Bool :=
  (c.state.sample c.input).dout

/-- One update: what the accumulator held and was given is what it holds and
has carried out. -/
theorem carry_sample (r : Regs p) (x : BitVec p.axisTdataWidth) :
    r.intAccReg.toNat % 2 ^ p.axisTdataWidth + r.intDataReg.toNat =
      2 ^ p.axisTdataWidth * (r.sample x).dout.toNat +
        (r.sample x).intAccReg.toNat % 2 ^ p.axisTdataWidth := by
  rw [toNat_dout, ← toNat_intAccReg_sample r x, Nat.div_add_mod]

/-- After any number of updates the carries and the accumulator are the sum of
the samples before the last, which is still in the data register. -/
theorem carries_run (xs : List (BitVec p.axisTdataWidth)) :
    2 ^ p.axisTdataWidth * (trace sample reset xs).countP pulse +
          (run sample reset xs).intAccReg.toNat % 2 ^ p.axisTdataWidth =
        (xs.dropLast.map offsetBinary).sum ∧
      (xs.dropLast.map offsetBinary).sum +
          (run sample reset xs).intDataReg.toNat =
        (xs.map offsetBinary).sum := by
  induction xs using List.reverseRecOn with
  | nil => simp [reset]
  | append_singleton xs x ih =>
      obtain ⟨hcarries, hdata⟩ := ih
      have hstep := carry_sample (run sample reset xs) x
      rw [trace_append, run_append, trace_cons, trace_nil, run_cons, run_nil,
        countP_snoc, List.dropLast_concat, Nat.mul_add]
      constructor
      · change _ + 2 ^ p.axisTdataWidth *
          ((run sample reset xs).sample x).dout.toNat + _ = _
        omega
      · change _ + (intDataNext x).toNat = _
        rw [toNat_intDataNext, List.map_append, List.sum_append]
        simp

theorem countP_pulse (xs : List (BitVec p.axisTdataWidth)) :
    (trace sample reset xs).countP pulse =
      (xs.dropLast.map offsetBinary).sum / 2 ^ p.axisTdataWidth := by
  obtain ⟨hcarries, -⟩ := carries_run xs
  rw [← hcarries, Nat.mul_add_div (Nat.two_pow_pos _),
    Nat.div_eq_of_lt (Nat.mod_lt _ (Nat.two_pow_pos _)), Nat.add_zero]

end Regs

/-! ## The core -/

/-- The cycles in which a sample is accepted. -/
def updates (inputs : List (Input p)) : List (Cycle (State p) (Input p)) :=
  (trace next reset inputs).filter accepted

def sampleOf (c : Cycle (State p) (Input p)) : BitVec p.axisTdataWidth :=
  c.input.sAxisTdata

/-- `dout` after the edge of the cycle. -/
def doutAfter (c : Cycle (State p) (Input p)) : Bool :=
  (next c.state c.input).dout

theorem toRegs_next_of_accepted {s : State p} {i : Input p}
    (h : accepted ⟨s, i⟩ = true) : (next s i).toRegs = s.sample i.sAxisTdata :=
  if_pos h

theorem toRegs_next_of_not_accepted {s : State p} {i : Input p}
    (h : accepted ⟨s, i⟩ = false) : (next s i).toRegs = s.toRegs :=
  if_neg (Bool.not_eq_true _ ▸ h)

/-- The registers see the accepted samples and nothing else. -/
theorem map_updates (inputs : List (Input p)) :
    (updates inputs).map (Clocked.Cycle.map State.toRegs Input.sAxisTdata) =
      trace Regs.sample Regs.reset ((updates inputs).map sampleOf) :=
  trace_accepted State.toRegs Input.sAxisTdata accepted
    (fun _ _ => toRegs_next_of_not_accepted)
    (fun _ _ => toRegs_next_of_accepted) reset inputs

theorem countP_doutAfter (inputs : List (Input p)) (n : ℕ) :
    ((updates inputs).take n).countP doutAfter =
      (trace Regs.sample Regs.reset
        (((updates inputs).map sampleOf).take n)).countP Regs.pulse := by
  rw [← take_trace, ← map_updates, ← List.map_take, List.countP_map]
  apply List.countP_congr
  intro c hc
  have haccepted : accepted c = true :=
    (List.mem_filter.mp (List.mem_of_mem_take hc)).2
  have hdout : doutAfter c = (c.state.sample c.input.sAxisTdata).dout :=
    congrArg Regs.dout (toRegs_next_of_accepted haccepted)
  rw [hdout]
  rfl

/-- A bound on the cycles until the core is ready, while `cfg_data` is at most
`c`. -/
def due (c : ℕ) (s : State p) : ℕ :=
  if s.intTreadyReg then 0 else c - s.intCntrReg.toNat + 1

theorem due_le (c : ℕ) (s : State p) : due c s ≤ c + 1 := by
  unfold due
  split <;> omega

theorem due_next {c : ℕ} {s : State p} {i : Input p} (hcfg : i.cfgData.toNat ≤ c)
    (hbusy : s.intTreadyReg = false) : due c (next s i) < due c s := by
  have hcntr : (next s i).intCntrReg = intCntrNext s i := rfl
  have htready : (next s i).intTreadyReg = intTreadyNext s i := rfl
  rw [due, due, htready, hcntr, intTreadyNext, intCntrNext, hbusy,
    if_neg Bool.false_ne_true, if_neg Bool.false_ne_true]
  split
  next hlt =>
      have hlt' := BitVec.lt_def.mp hlt
      rw [toNat_add_one_of_lt hlt', if_neg Bool.false_ne_true]
      omega
  next => exact Nat.succ_pos _

/-- A sample that stays on offer is accepted when the core gets ready. -/
theorem accepted_of_due {c : ℕ} {s : State p} {later : List (Input p)}
    (hoffered : ∀ i ∈ later, i.cfgData.toNat ≤ c ∧ i.sAxisTvalid = true)
    (hdue : due c s < later.length) :
    0 < ((trace next s later).filter accepted).length := by
  induction later generalizing s with
  | nil => cases hdue
  | cons i later ih =>
      rw [List.forall_mem_cons] at hoffered
      obtain ⟨⟨hcfg, hvalid⟩, hrest⟩ := hoffered
      rw [trace_cons]
      cases hready : s.intTreadyReg with
      | true =>
          have haccepted : accepted ⟨s, i⟩ = true := by
            rw [accepted, sAxisTready, hready, hvalid]
            rfl
          rw [List.filter_cons_of_pos haccepted]
          exact Nat.succ_pos _
      | false =>
          have hless := due_next hcfg hready
          rw [List.length_cons] at hdue
          have htail := ih hrest (s := next s i) (by omega)
          rw [List.filter_cons]
          split
          · exact Nat.succ_pos _
          · exact htail

theorem length_updates_lt (inputs : List (Input p)) {c : ℕ}
    {later : List (Input p)}
    (hoffered : ∀ i ∈ later, i.cfgData.toNat ≤ c ∧ i.sAxisTvalid = true)
    (hlength : c + 2 ≤ later.length) :
    (updates inputs).length < (updates (inputs ++ later)).length := by
  have hdue := due_le c (run next reset inputs)
  have hmore := accepted_of_due hoffered
    (show due c (run next reset inputs) < later.length by omega)
  rw [updates, updates, trace_append, List.filter_append, List.length_append]
  omega

/-- The sum of the samples before the last of the first `n`. -/
def total (inputs : List (Input p)) (n : ℕ) : ℕ :=
  ((((updates inputs).map sampleOf).take n).dropLast.map offsetBinary).sum

/-- Of the first `n` updates as many leave `dout` high as the samples before the
last of them fill words, and what is left over is less than a word.  There is an
update in any `c + 2` cycles in which samples are on offer and `cfg_data` is at
most `c`. -/
theorem density_exact (inputs : List (Input p)) (n : ℕ) :
    ((updates inputs).take n).countP doutAfter =
        total inputs n / 2 ^ p.axisTdataWidth ∧
      2 ^ p.axisTdataWidth * ((updates inputs).take n).countP doutAfter ≤
        total inputs n ∧
      total inputs n < 2 ^ p.axisTdataWidth *
        (((updates inputs).take n).countP doutAfter + 1) ∧
      ∀ (c : ℕ) (later : List (Input p)),
        (∀ i ∈ later, i.cfgData.toNat ≤ c ∧ i.sAxisTvalid = true) →
          c + 2 ≤ later.length →
            (updates inputs).length < (updates (inputs ++ later)).length := by
  have hcount : ((updates inputs).take n).countP doutAfter =
      total inputs n / 2 ^ p.axisTdataWidth := by
    rw [countP_doutAfter, Regs.countP_pulse, total]
  rw [hcount]
  exact ⟨rfl, Nat.mul_div_le _ _, Nat.lt_mul_div_succ _ (Nat.two_pow_pos _),
    fun _ _ => length_updates_lt inputs⟩

theorem nibble_gt : 1 < 4 := by decide

/-- Samples of four bits, `12` in offset binary, with a gap now and then and a
pace that changes. -/
def threeQuarters : List (Input ⟨4, 2, nibble_gt⟩) :=
  (List.range 24).map fun k => ⟨if k < 8 then 1 else 2, 4, decide (k % 7 ≠ 6)⟩

/-- Seven samples are accepted, and four of the updates leave `dout` high. -/
theorem density_exact_threeQuarters :
    (updates threeQuarters).length = 7 ∧
      ((updates threeQuarters).take 7).countP doutAfter = 4 ∧
      (updates threeQuarters).map doutAfter =
        [false, false, true, true, true, false, true] :=
  ⟨by decide, (density_exact threeQuarters 7).1.trans (by decide), by decide⟩

end RedPitayaNotes.AxisPdm
