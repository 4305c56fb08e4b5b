import RedPitayaNotes.Support.Bits
import RedPitayaNotes.Support.Clocked
import RedPitayaNotes.Support.Counters

/-!
# The axis_oscilloscope core

`cores/axis_oscilloscope.v` passes samples on while it runs.  One counter counts
the samples before the trigger and, loaded again when the trigger is taken, the
samples after it.  The load is chosen so that every run is as long as any other
up to a multiple of 64 samples.
-/

namespace RedPitayaNotes.AxisOscilloscope

open Clocked Counters

structure Params where
  axisTdataWidth : ℕ := 32
  cntrWidth : ℕ := 12

structure State (p : Params) where
  intAddrReg : BitVec p.cntrWidth
  intCntrReg : BitVec p.cntrWidth
  intRunReg : Bool
  intPreReg : Bool
  intTrgReg : Bool
  intTotReg : Bool

structure Input (p : Params) where
  runFlag : Bool
  trgFlag : Bool
  preData : BitVec p.cntrWidth
  totData : BitVec p.cntrWidth
  sAxisTdata : BitVec p.axisTdataWidth
  sAxisTvalid : Bool

variable {p : Params}

/-- The trigger is taken with the sample: `~int_tot_reg & int_trg_reg`. -/
def takes (s : State p) (i : Input p) : Bool :=
  s.intRunReg && i.sAxisTvalid && (!s.intTotReg && s.intTrgReg)

/-- The last sample: `int_tot_reg & (int_cntr_reg == tot_data)`. -/
def ends (s : State p) (i : Input p) : Bool :=
  s.intRunReg && i.sAxisTvalid && (s.intTotReg && s.intCntrReg == i.totData)

def starts (s : State p) (i : Input p) : Bool := !s.intRunReg && i.runFlag

/-- Of two assignments to a register the later one counts. -/
def step (aresetn : Bool) (s : State p) (i : Input p) : State p where
  intAddrReg :=
    if !aresetn then 0
    else if starts s i then 0
    else if takes s i then s.intCntrReg
    else s.intAddrReg
  intCntrReg :=
    if !aresetn then 0
    else if starts s i then 0
    else if takes s i then
      i.preData + (s.intCntrReg.extractLsb' 0 6).setWidth p.cntrWidth
    else if s.intRunReg && i.sAxisTvalid then s.intCntrReg + 1
    else s.intCntrReg
  intRunReg :=
    if !aresetn then false
    else if starts s i then true
    else if ends s i then false
    else s.intRunReg
  intPreReg :=
    if !aresetn then false
    else if starts s i then false
    else if s.intRunReg && i.sAxisTvalid && s.intCntrReg == i.preData then true
    else s.intPreReg
  intTrgReg :=
    if !aresetn then false
    else if starts s i then false
    else if s.intRunReg && (s.intPreReg && i.trgFlag) then true
    else s.intTrgReg
  intTotReg :=
    if !aresetn then false
    else if starts s i then false
    else if takes s i then true
    else s.intTotReg

def next (s : State p) (i : Input p) : State p := step true s i

/-- The registers after an edge in reset. -/
def reset (p : Params) : State p := ⟨0, 0, false, false, false, false⟩

theorem step_reset (s : State p) (i : Input p) : step false s i = reset p := rfl

/-- `{int_addr_reg, int_run_reg}` -/
def stsData (s : State p) : BitVec (p.cntrWidth + 1) :=
  s.intAddrReg ++ BitVec.ofBool s.intRunReg

/-- A sample goes out on `m_axis`. -/
def mAxisTvalid (c : Cycle (State p) (Input p)) : Bool :=
  c.state.intRunReg && c.input.sAxisTvalid

/-- A sample comes in. -/
def valid (c : Cycle (State p) (Input p)) : Bool := c.input.sAxisTvalid

/-! ## Before the trigger -/

/-- The ports that do not change. -/
structure Ports (pre tot : ℕ) (i : Input p) : Prop where
  pre : i.preData.toNat = pre
  tot : i.totData.toNat = tot

/-- A run of which `n` samples have gone out, before the trigger is taken. -/
structure Before (pre n : ℕ) (s : State p) : Prop where
  running : s.intRunReg = true
  untaken : s.intTotReg = false
  cntr : s.intCntrReg.toNat = n % 2 ^ p.cntrWidth
  filled : s.intPreReg = decide (pre < n)
  seen : s.intTrgReg = true → pre < n

section Cycles

variable {pre tot n : ℕ} {s : State p} {i : Input p}

theorem before_start (pre : ℕ) (h : starts s i = true) : Before pre 0 (next s i) := by
  refine ⟨if_pos h, if_pos h, ?_, ?_, ?_⟩
  · change (if starts s i then (0 : BitVec p.cntrWidth) else _).toNat = _
    rw [if_pos h, Nat.zero_mod]
    exact BitVec.toNat_zero
  · change (if starts s i then false else _) = _
    rw [if_pos h]
    rfl
  · intro htrg
    change (if starts s i then false else _) = true at htrg
    rw [if_pos h] at htrg
    cases htrg

theorem Before.starts_eq (h : Before pre n s) (i : Input p) : starts s i = false := by
  rw [starts, h.running]
  rfl

/-- The buffer is filled when the counter has passed `pre_data`. -/
theorem Before.filled_next (h : Before pre n s) (hports : Ports pre tot i) :
    (AxisOscilloscope.next s i).intPreReg = decide (pre < n + i.sAxisTvalid.toNat) := by
  have hlt := i.preData.isLt
  rw [hports.pre] at hlt
  have hpre : (s.intCntrReg == i.preData) = decide (n % 2 ^ p.cntrWidth = pre) := by
    rw [Bool.eq_iff_iff, beq_iff_eq, decide_eq_true_eq, ← BitVec.toNat_inj, h.cntr,
      hports.pre]
  change (if starts s i then false
    else if s.intRunReg && i.sAxisTvalid && s.intCntrReg == i.preData then true
    else s.intPreReg) = _
  rw [h.starts_eq, if_neg Bool.false_ne_true, h.running, Bool.true_and, hpre, h.filled]
  cases i.sAxisTvalid with
  | false => rfl
  | true =>
      rw [Bool.true_and, Bool.toNat_true]
      by_cases hn : n % 2 ^ p.cntrWidth = pre
      · have hle := Nat.mod_le n (2 ^ p.cntrWidth)
        rw [decide_eq_true hn, if_pos rfl, eq_comm, decide_eq_true_eq]
        omega
      · have hne : n ≠ pre := by
          rintro rfl
          exact hn (Nat.mod_eq_of_lt hlt)
        rw [decide_eq_false hn, if_neg Bool.false_ne_true, decide_eq_decide]
        omega

/-- The trigger flag is taken note of only when the buffer is filled. -/
theorem Before.seen_next (h : Before pre n s) (i : Input p)
    (htrg : (AxisOscilloscope.next s i).intTrgReg = true) : pre < n := by
  change (if starts s i then false
    else if s.intRunReg && (s.intPreReg && i.trgFlag) then true
    else s.intTrgReg) = true at htrg
  rw [h.starts_eq, if_neg Bool.false_ne_true, h.running, Bool.true_and] at htrg
  split at htrg
  next hflag =>
      rw [Bool.and_eq_true, h.filled, decide_eq_true_eq] at hflag
      exact hflag.1
  next => exact h.seen htrg

theorem Before.next (h : Before pre n s) (hports : Ports pre tot i)
    (htakes : takes s i = false) :
    Before pre (n + i.sAxisTvalid.toNat) (AxisOscilloscope.next s i) := by
  have hstarts := h.starts_eq i
  have hends : ends s i = false := by
    rw [ends, h.untaken, Bool.false_and, Bool.and_false]
  refine ⟨?_, ?_, ?_, h.filled_next hports,
    fun htrg => Nat.lt_add_right _ (h.seen_next i htrg)⟩
  · simp [AxisOscilloscope.next, step, hstarts, hends, h.running]
  · simp [AxisOscilloscope.next, step, hstarts, htakes, h.untaken]
  · cases hvalid : i.sAxisTvalid with
    | false => simp [AxisOscilloscope.next, step, hstarts, htakes, hvalid, h.cntr]
    | true =>
        have hcntr : (AxisOscilloscope.next s i).intCntrReg = s.intCntrReg + 1 := by
          simp [AxisOscilloscope.next, step, hstarts, htakes, hvalid, h.running]
        rw [hcntr, toNat_add_one, h.cntr, Nat.mod_add_mod, Bool.toNat_true]

end Cycles

/-! ## After the trigger -/

/-- The samples that go out after the one with the trigger, which is sample
`c`. -/
def postSamples (pre tot c : ℕ) : ℕ := tot - pre - c % 64 + 1

/-- A run with the trigger on sample `c`, when `n` samples have come in since
then. -/
structure After (pre tot c n : ℕ) (s : State p) : Prop where
  taken : s.intTotReg = true
  addr : s.intAddrReg.toNat = c % 2 ^ p.cntrWidth
  running : s.intRunReg = decide (n < postSamples pre tot c)
  cntr : n < postSamples pre tot c → s.intCntrReg.toNat = pre + c % 64 + n

section Cycles

variable {pre tot c n : ℕ} {s : State p} {i : Input p}

/-- The counter goes on from the low bits of the position. -/
theorem toNat_reload (hwidth : 6 ≤ p.cntrWidth) (hports : Ports pre tot i)
    (hpost : pre + 63 ≤ tot) (hcntr : s.intCntrReg.toNat = c % 2 ^ p.cntrWidth) :
    (i.preData + (s.intCntrReg.extractLsb' 0 6).setWidth p.cntrWidth).toNat =
      pre + c % 64 := by
  have hdvd : 64 ∣ 2 ^ p.cntrWidth := Nat.pow_dvd_pow 2 hwidth
  have htot := i.totData.isLt
  rw [hports.tot] at htot
  have hlow : c % 64 < 64 := Nat.mod_lt c (by decide)
  rw [BitVec.toNat_add, BitVec.toNat_setWidth, BitVec.extractLsb'_toNat,
    Nat.shiftRight_zero, hcntr, Nat.mod_mod_of_dvd c hdvd, Nat.add_mod_mod, hports.pre,
    Nat.mod_eq_of_lt (by omega)]

theorem Before.next_of_takes (h : Before pre c s) (hwidth : 6 ≤ p.cntrWidth)
    (hports : Ports pre tot i) (hpost : pre + 63 ≤ tot) (htakes : takes s i = true) :
    After pre tot c 0 (AxisOscilloscope.next s i) := by
  have hstarts : starts s i = false := by rw [starts, h.running]; rfl
  have hends : ends s i = false := by
    rw [ends, h.untaken, Bool.false_and, Bool.and_false]
  have hroom : 0 < postSamples pre tot c := Nat.succ_pos _
  refine ⟨?_, ?_, ?_, fun _ => ?_⟩
  · simp [AxisOscilloscope.next, step, hstarts, htakes]
  · simp [AxisOscilloscope.next, step, hstarts, htakes, h.cntr]
  · simp [AxisOscilloscope.next, step, hstarts, hends, h.running, hroom]
  · have hcntr : (AxisOscilloscope.next s i).intCntrReg =
        i.preData + (s.intCntrReg.extractLsb' 0 6).setWidth p.cntrWidth := by
      simp [AxisOscilloscope.next, step, hstarts, htakes]
    rw [hcntr, toNat_reload hwidth hports hpost h.cntr, Nat.add_zero]

theorem After.next (h : After pre tot c n s) (hports : Ports pre tot i)
    (hpost : pre + 63 ≤ tot) (hstarts : starts s i = false) :
    After pre tot c (n + i.sAxisTvalid.toNat) (AxisOscilloscope.next s i) := by
  have htakes : takes s i = false := by
    rw [takes, h.taken, Bool.not_true, Bool.false_and, Bool.and_false]
  have hlow : c % 64 < 64 := Nat.mod_lt c (by decide)
  refine ⟨?_, ?_, ?_, ?_⟩
  · simp [AxisOscilloscope.next, step, hstarts, htakes, h.taken]
  · simp [AxisOscilloscope.next, step, hstarts, htakes, h.addr]
  · change (if starts s i then true else if ends s i then false else s.intRunReg) = _
    rw [hstarts, if_neg Bool.false_ne_true, ends, h.taken, h.running, Bool.true_and]
    cases i.sAxisTvalid with
    | false => simp
    | true =>
        by_cases hn : n < postSamples pre tot c
        · have hlast : (s.intCntrReg == i.totData) =
              decide (n + 1 = postSamples pre tot c) := by
            rw [Bool.eq_iff_iff, beq_iff_eq, decide_eq_true_eq, ← BitVec.toNat_inj,
              h.cntr hn, hports.tot, postSamples]
            omega
          rw [hlast, decide_eq_true hn, Bool.toNat_true]
          by_cases hend : n + 1 = postSamples pre tot c
          · simp [hend]
          · have hmore : n + 1 < postSamples pre tot c := by omega
            simp [hend, hmore]
        · have hdone : ¬n + 1 < postSamples pre tot c := by omega
          rw [decide_eq_false hn, Bool.toNat_true, decide_eq_false hdone]
          rfl
  · intro hn
    have hn' : n < postSamples pre tot c := Nat.lt_of_le_of_lt (Nat.le_add_right _ _) hn
    have hrun : s.intRunReg = true := by
      rw [h.running]
      exact decide_eq_true hn'
    cases hvalid : i.sAxisTvalid with
    | false => simp [AxisOscilloscope.next, step, hstarts, htakes, hvalid, h.cntr hn']
    | true =>
        have hcntr : (AxisOscilloscope.next s i).intCntrReg = s.intCntrReg + 1 := by
          simp [AxisOscilloscope.next, step, hstarts, htakes, hvalid, hrun]
        have htot := i.totData.isLt
        rw [hports.tot] at htot
        rw [hvalid, Bool.toNat_true, postSamples] at hn
        rw [hcntr, toNat_add_one, h.cntr hn', Bool.toNat_true, Nat.mod_eq_of_lt (by omega)]
        rfl

end Cycles

/-! ## Runs -/

section Runs

variable {pre tot c n : ℕ} {s : State p} {inputs : List (Input p)}

/-- The samples of a run, one cycle at the front. -/
theorem countP_trace_cons (f : Cycle (State p) (Input p) → Bool) (s : State p)
    (i : Input p) (inputs : List (Input p)) :
    (trace next s (i :: inputs)).countP f =
      (f ⟨s, i⟩).toNat + (trace next (next s i) inputs).countP f := by
  rw [trace_cons, List.countP_cons, Nat.add_comm]
  cases f ⟨s, i⟩ <;> rfl

theorem run_before (h : Before pre n s) (hports : ∀ i ∈ inputs, Ports pre tot i)
    (htakes : ∀ c ∈ trace next s inputs, takes c.state c.input = false) :
    Before pre (n + (trace next s inputs).countP mAxisTvalid) (run next s inputs) := by
  induction inputs generalizing n s with
  | nil => exact h
  | cons i inputs ih =>
      rw [List.forall_mem_cons] at hports
      rw [trace_cons, List.forall_mem_cons] at htakes
      have hrun := ih (h.next hports.1 htakes.1) hports.2 htakes.2
      have hout : mAxisTvalid ⟨s, i⟩ = i.sAxisTvalid := by
        rw [mAxisTvalid, h.running, Bool.true_and]
      rw [countP_trace_cons, hout, ← Nat.add_assoc]
      exact hrun

/-- A trigger flag came in a cycle before which more than `pre` samples had gone
out. -/
def Flagged (pre : ℕ) (before : List (Cycle (State p) (Input p))) : Prop :=
  ∃ early c late, before = early ++ c :: late ∧
    pre < early.countP mAxisTvalid ∧ c.input.trgFlag = true

theorem flagged_snoc {before : List (Cycle (State p) (Input p))}
    {c : Cycle (State p) (Input p)} :
    Flagged pre (before ++ [c]) ↔
      Flagged pre before ∨
        (pre < before.countP mAxisTvalid ∧ c.input.trgFlag = true) := by
  constructor
  · rintro ⟨early, d, late, hsplit, hfilled, hflag⟩
    rcases List.eq_nil_or_concat late with rfl | ⟨late, e, rfl⟩
    · obtain ⟨rfl, hc⟩ := List.append_inj' hsplit rfl
      obtain rfl := List.singleton_inj.mp hc
      exact Or.inr ⟨hfilled, hflag⟩
    · have hsplit' : before ++ [c] = (early ++ d :: late) ++ [e] := by
        rw [hsplit, List.append_assoc, List.cons_append, List.concat_eq_append]
      exact Or.inl ⟨early, d, late, (List.append_inj' hsplit' rfl).1, hfilled, hflag⟩
  · rintro (⟨early, d, late, rfl, hfilled, hflag⟩ | ⟨hfilled, hflag⟩)
    · exact ⟨early, d, late ++ [c], by rw [List.append_assoc]; rfl, hfilled, hflag⟩
    · exact ⟨before, c, [], rfl, hfilled, hflag⟩

theorem trg_next (h : Before pre n s) (i : Input p) :
    (next s i).intTrgReg = true ↔
      s.intTrgReg = true ∨ (pre < n ∧ i.trgFlag = true) := by
  change (if starts s i then false
    else if s.intRunReg && (s.intPreReg && i.trgFlag) then true
    else s.intTrgReg) = true ↔ _
  rw [h.starts_eq, if_neg Bool.false_ne_true, h.running, Bool.true_and, h.filled]
  cases i.trgFlag <;> cases s.intTrgReg <;> simp

/-- The trigger register tells whether there was such a flag. -/
theorem trg_run (h : Before pre 0 s) (hports : ∀ i ∈ inputs, Ports pre tot i)
    (htakes : ∀ c ∈ trace next s inputs, takes c.state c.input = false) :
    (run next s inputs).intTrgReg = true ↔ Flagged pre (trace next s inputs) := by
  induction inputs using List.reverseRecOn with
  | nil =>
      constructor
      · intro htrg
        exact absurd (h.seen htrg) (Nat.not_lt_zero pre)
      · rintro ⟨early, c, late, hsplit, -⟩
        exact absurd hsplit (by simp)
  | append_singleton inputs i ih =>
      rw [List.forall_mem_append] at hports
      rw [trace_append, List.forall_mem_append] at htakes
      have hbefore := run_before h hports.1 htakes.1
      rw [Nat.zero_add] at hbefore
      rw [trace_append, trace_cons, trace_nil, flagged_snoc, run_append, run_cons,
        run_nil, trg_next hbefore, ih hports.1 htakes.1]

theorem run_after (h : After pre tot c n s) (hpost : pre + 63 ≤ tot)
    (hports : ∀ i ∈ inputs, Ports pre tot i)
    (hstarts : ∀ c ∈ trace next s inputs, starts c.state c.input = false) :
    After pre tot c (n + (trace next s inputs).countP valid) (run next s inputs) ∧
      min n (postSamples pre tot c) + (trace next s inputs).countP mAxisTvalid =
        min (n + (trace next s inputs).countP valid) (postSamples pre tot c) := by
  induction inputs generalizing n s with
  | nil => exact ⟨h, rfl⟩
  | cons i inputs ih =>
      rw [List.forall_mem_cons] at hports
      rw [trace_cons, List.forall_mem_cons] at hstarts
      obtain ⟨hrun, hcount⟩ := ih (h.next hports.1 hpost hstarts.1) hports.2 hstarts.2
      rw [countP_trace_cons, countP_trace_cons, ← Nat.add_assoc, ← Nat.add_assoc]
      refine ⟨hrun, ?_⟩
      -- a sample goes out while there is room
      have hout : min n (postSamples pre tot c) + (mAxisTvalid ⟨s, i⟩).toNat =
          min (n + i.sAxisTvalid.toNat) (postSamples pre tot c) := by
        rw [mAxisTvalid, h.running]
        cases i.sAxisTvalid with
        | false => rw [Bool.and_false]; rfl
        | true =>
            rw [Bool.and_true, Bool.toNat_true]
            by_cases hn : n < postSamples pre tot c
            · rw [decide_eq_true hn, Bool.toNat_true]
              omega
            · rw [decide_eq_false hn, Bool.toNat_false]
              omega
      rw [hout]
      exact hcount

end Runs

/-- What a run emits when the trigger is taken on sample `c`: `emitted` is the
number of samples that have gone out since then, and `offered` that of the
samples that have come in. -/
structure Captured (pre tot c offered emitted : ℕ) (s : State p) : Prop where
  before : pre + 1 ≤ c
  after : emitted = min offered (tot - pre - c % 64 + 1)
  stopped : s.intRunReg = false ↔ emitted = tot - pre - c % 64 + 1
  total : s.intRunReg = false → (c + 1 + emitted) % 64 = (tot - pre + 2) % 64
  address : (stsData s).toNat / 2 = c % 2 ^ p.cntrWidth

theorem captured_of_after {pre tot c offered emitted : ℕ} {s : State p}
    (h : After pre tot c offered s) (hpost : pre + 63 ≤ tot) (hc : pre < c)
    (hemitted : emitted = min offered (postSamples pre tot c)) :
    Captured pre tot c offered emitted s := by
  have hstopped : s.intRunReg = false ↔ emitted = postSamples pre tot c := by
    rw [h.running, decide_eq_false_iff_not, hemitted]
    omega
  refine ⟨hc, hemitted, hstopped, fun hrun => ?_, ?_⟩
  · rw [hstopped.mp hrun, postSamples]
    omega
  · rw [stsData, Bits.toNat_append_eq_add, h.addr]
    have hbit := (BitVec.ofBool s.intRunReg).isLt
    omega

/-- Once a run has started, the trigger is taken with the first sample after a
flag that comes when the buffer is filled, and never without such a flag. -/
theorem takes_iff_flagged {pre tot : ℕ} {inputs : List (Input p)}
    (hports : ∀ i ∈ inputs, Ports pre tot i)
    {past before after : List (Cycle (State p) (Input p))}
    {start c : Cycle (State p) (Input p)}
    (hsplit : trace next (reset p) inputs = past ++ start :: (before ++ c :: after))
    (hstart : starts start.state start.input = true)
    (hbefore : ∀ d ∈ before, takes d.state d.input = false) :
    takes c.state c.input = true ↔ valid c = true ∧ Flagged pre before := by
  obtain ⟨early, later, rfl, -, -, hlater, -⟩ := exists_split hsplit
  obtain ⟨xs, ys, rfl, rfl, hstate, rfl, -⟩ := exists_split hlater.symm
  have hxs : ∀ i ∈ xs, Ports pre tot i := fun i hi => hports i
    (List.mem_append_right _ (List.mem_cons_of_mem _ (List.mem_append_left _ hi)))
  have hfirst := run_before (before_start pre hstart) hxs hbefore
  have htrg := trg_run (before_start pre hstart) hxs hbefore
  rw [← hstate] at hfirst htrg
  rw [← htrg, takes, hfirst.running, hfirst.untaken, valid]
  cases c.input.sAxisTvalid <;> simp

/-- Any run of the core up to its trigger, and what follows up to the next
start. -/
theorem captured {pre tot : ℕ} (hwidth : 6 ≤ p.cntrWidth) (hpost : pre + 63 ≤ tot)
    {inputs : List (Input p)} (hports : ∀ i ∈ inputs, Ports pre tot i)
    {past before after : List (Cycle (State p) (Input p))}
    {start take : Cycle (State p) (Input p)}
    (hsplit : trace next (reset p) inputs = past ++ start :: (before ++ take :: after))
    (hstart : starts start.state start.input = true)
    (hbefore : ∀ c ∈ before, takes c.state c.input = false)
    (htake : takes take.state take.input = true)
    (hafter : ∀ c ∈ after, starts c.state c.input = false) :
    Captured pre tot (before.countP mAxisTvalid) (after.countP valid)
        (after.countP mAxisTvalid) (run next (reset p) inputs) ∧
      Flagged pre before := by
  refine ⟨?_, ((takes_iff_flagged hports hsplit hstart hbefore).mp htake).2⟩
  obtain ⟨early, later, rfl, -, -, hlater, hrun⟩ := exists_split hsplit
  obtain ⟨xs, ys, rfl, rfl, hstate, rfl, hrun'⟩ := exists_split hlater.symm
  have hports' : ∀ i ∈ start.input :: (xs ++ take.input :: ys), Ports pre tot i :=
    fun i hi => hports i (List.mem_append_right _ hi)
  rw [List.forall_mem_cons, List.forall_mem_append, List.forall_mem_cons] at hports'
  obtain ⟨-, hxs, htake', hys⟩ := hports'
  have hfirst := run_before (before_start pre hstart) hxs hbefore
  rw [Nat.zero_add, ← hstate] at hfirst
  have hseen : pre < (trace next (next start.state start.input) xs).countP mAxisTvalid := by
    apply hfirst.seen
    rw [takes, Bool.and_eq_true, Bool.and_eq_true, Bool.and_eq_true] at htake
    exact htake.2.2
  obtain ⟨hlast, hcount⟩ := run_after
    (hfirst.next_of_takes hwidth htake' hpost htake) hpost hys hafter
  rw [Nat.zero_min, Nat.zero_add, Nat.zero_add] at hcount
  rw [Nat.zero_add] at hlast
  rw [hrun, hrun']
  exact captured_of_after hlast hpost hseen hcount

/-- The start, a sample, the trigger, its sample, and more samples than the run
has room for. -/
def shortRun : List (Input ⟨8, 6⟩) :=
  [⟨true, false, 0, 63, 0, false⟩, ⟨false, false, 0, 63, 1, true⟩,
    ⟨false, true, 0, 63, 0, false⟩, ⟨false, false, 0, 63, 2, true⟩] ++
  List.replicate 65 ⟨false, false, 0, 63, 3, true⟩

/-- The trigger is taken on sample 1, and 63 samples go out after it. -/
theorem captured_shortRun :
    Captured 0 63 1 65 63 (run next (reset ⟨8, 6⟩) shortRun) ∧
      (run next (reset ⟨8, 6⟩) shortRun).intRunReg = false := by
  have hports : ∀ i ∈ shortRun, Ports 0 63 i := by
    intro i hi
    have hdata : i.preData.toNat = 0 ∧ i.totData.toNat = 63 := by
      revert i
      decide
    exact ⟨hdata.1, hdata.2⟩
  have hsplit : trace next (reset ⟨8, 6⟩) shortRun =
      [] ++ _ :: ((trace next (run next (reset ⟨8, 6⟩) (shortRun.take 1))
        (shortRun.extract 1 3)) ++ _ :: _) := rfl
  have hcaptured := (captured (by decide) (by decide) hports hsplit (by decide)
    (by decide) (by decide) (by decide +kernel)).1
  exact ⟨hcaptured, hcaptured.stopped.mpr rfl⟩

end RedPitayaNotes.AxisOscilloscope
