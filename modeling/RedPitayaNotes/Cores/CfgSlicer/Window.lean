import RedPitayaNotes.Cores.CfgSlicer

/-!
# The window statistics of cfg_slicer

Once a second `cores/cfg_slicer.v` clears its peak of the samples and its flag of
an overflow.  The cycle that clears them is the first one of the next window:
no report of the window before it could include it.
-/

namespace RedPitayaNotes.CfgSlicer

open Clocked

/-- The default width of the samples. -/
abbrev params16 (numChans firOutWidth : ℕ) : Params :=
  ⟨16, numChans, firOutWidth⟩

variable {n f : ℕ}

/-- `status[31:0]` -/
def statusWord (s : State (params16 n f)) (rdcnt : BitVec 16) : BitVec 32 :=
  s.maxsamp.extractLsb' 1 15 ++ BitVec.ofBool s.adcOvflLatch ++ rdcnt

/-- What the reports are built from, as power-up leaves it. -/
structure State.IsStarted (s : State (params16 n f)) : Prop where
  shiftcntr : s.shiftcntr = 0
  adcOvflLatch : s.adcOvflLatch = false
  maxsamp : s.maxsamp = 0

/-- The cycle clears the statistics. -/
def clears (c : Cycle (State (params16 n f)) (Input (params16 n f))) : Bool :=
  decide (c.state.shiftcntr > oneSec)

/-- `min(|x|, 32767)` -/
def magnitude (x : BitVec 16) : ℕ := min x.toInt.natAbs 32767

/-- The largest magnitude of the samples in some cycles. -/
def peak (cycles : List (Cycle (State (params16 n f)) (Input (params16 n f)))) :
    ℕ :=
  (cycles.map fun c => magnitude c.state.samp).foldl max 0

def overflowed
    (cycles : List (Cycle (State (params16 n f)) (Input (params16 n f)))) :
    Bool :=
  cycles.any fun c => c.input.adcOvfl

/-- The report in a state is that of the cycles of its window. -/
def Faithful (past : List (Cycle (State (params16 n f)) (Input (params16 n f))))
    (s : State (params16 n f)) : Prop :=
  ∀ rdcnt,
    (statusWord s rdcnt).extractLsb' 17 15 =
        (BitVec.ofNat 16 (peak (sinceLast clears past))).extractLsb' 1 15 ∧
      (statusWord s rdcnt).getLsbD 16 = overflowed (sinceLast clears past)

/-- The cycle is not one whose sample or overflow the report misses. -/
def Counted (c : Cycle (State (params16 n f)) (Input (params16 n f))) : Prop :=
  if clears c then c.input.adcOvfl = false ∧ magnitude c.state.samp ≤ 1
  else c.state.samp = BitVec.intMin 16 → 32766 ≤ c.state.maxsamp.toInt

/-! ## The peak -/

theorem magnitude_le (x : BitVec 16) : magnitude x ≤ 32767 :=
  min_le_right _ _

theorem peak_snoc
    (cycles : List (Cycle (State (params16 n f)) (Input (params16 n f))))
    (c : Cycle (State (params16 n f)) (Input (params16 n f))) :
    peak (cycles ++ [c]) = max (peak cycles) (magnitude c.state.samp) := by
  rw [peak, List.map_append, List.foldl_append]
  rfl

theorem peak_le
    (cycles : List (Cycle (State (params16 n f)) (Input (params16 n f)))) :
    peak cycles ≤ 32767 := by
  induction cycles using List.reverseRecOn with
  | nil => exact Nat.zero_le _
  | append_singleton cycles c ih =>
      rw [peak_snoc]
      exact max_le ih (magnitude_le _)

theorem overflowed_snoc
    (cycles : List (Cycle (State (params16 n f)) (Input (params16 n f))))
    (c : Cycle (State (params16 n f)) (Input (params16 n f))) :
    overflowed (cycles ++ [c]) = (overflowed cycles || c.input.adcOvfl) := by
  rw [overflowed, List.any_append]
  simp [overflowed]

/-- The comparisons of `maxsamp` with a sample and with its negation. -/
def raised (m x : BitVec 16) : BitVec 16 :=
  if m.slt x then x else if m.slt (-x) then -x else m

/-- The lowest sample is its own negation and never raises the peak. -/
theorem raised_intMin (m : BitVec 16) : raised m (BitVec.intMin 16) = m := by
  have hlow := m.le_toInt
  have hnot : m.slt (BitVec.intMin 16) = false := by
    rw [BitVec.slt_eq_decide, decide_eq_false_iff_not,
      BitVec.toInt_intMin_of_pos (by decide)]
    omega
  rw [raised, BitVec.neg_intMin, hnot]
  rfl

theorem toInt_raised {m x : BitVec 16} (hm : 0 ≤ m.toInt)
    (hx : x ≠ BitVec.intMin 16) :
    (raised m x).toInt = max m.toInt (magnitude x) := by
  have hneg := BitVec.toInt_neg_of_ne_intMin hx
  have hlt := x.toInt_lt
  have hmin : (BitVec.intMin 16).toInt = -2 ^ 15 :=
    BitVec.toInt_intMin_of_pos (by decide)
  have hlow := x.le_toInt
  have hne : x.toInt ≠ -2 ^ 15 := by
    intro h
    exact hx (BitVec.toInt_inj.mp (h.trans hmin.symm))
  have hmag : magnitude x = x.toInt.natAbs := Nat.min_eq_left (by omega)
  rw [raised, hmag, BitVec.slt_eq_decide, BitVec.slt_eq_decide, hneg]
  simp only [decide_eq_true_eq]
  split_ifs <;> omega

/-! ## One cycle -/

section Step

variable (s : State (params16 n f)) (i : Input (params16 n f))

theorem next_of_clears (h : clears ⟨s, i⟩ = true) :
    (next s i).maxsamp = 0 ∧ (next s i).adcOvflLatch = false := by
  have hcntr : s.shiftcntr > oneSec := of_decide_eq_true h
  exact ⟨if_pos hcntr, if_pos hcntr⟩

theorem next_of_not_clears (h : clears ⟨s, i⟩ = false) :
    (next s i).maxsamp = raised s.maxsamp s.samp ∧
      (next s i).adcOvflLatch = (s.adcOvflLatch || i.adcOvfl) := by
  have hcntr : ¬s.shiftcntr > oneSec := of_decide_eq_false h
  refine ⟨if_neg hcntr, (if_neg hcntr).trans ?_⟩
  cases i.adcOvfl <;> cases s.adcOvflLatch <;> rfl

variable {s i}

theorem maxsamp_nonneg (h : 0 ≤ s.maxsamp.toInt) :
    0 ≤ (next s i).maxsamp.toInt := by
  cases hclears : clears ⟨s, i⟩ with
  | true =>
      rw [(next_of_clears s i hclears).1]
      rfl
  | false =>
      rw [(next_of_not_clears s i hclears).1]
      by_cases hx : s.samp = BitVec.intMin 16
      · rw [hx, raised_intMin]
        exact h
      · rw [toInt_raised h hx]
        exact le_max_of_le_left h

theorem statusWord_bits (rdcnt : BitVec 16) :
    (statusWord s rdcnt).extractLsb' 17 15 = s.maxsamp.extractLsb' 1 15 ∧
      (statusWord s rdcnt).getLsbD 16 = s.adcOvflLatch := by
  constructor
  · rw [statusWord, BitVec.extractLsb'_append_eq_of_le (by decide),
      BitVec.extractLsb'_append_eq_left]
  · rw [statusWord, BitVec.getLsbD_append, BitVec.getLsbD_append,
      if_neg (by decide), if_pos (by decide)]
    exact BitVec.getLsbD_ofBool ..

/-- Bits 15 to 1 of two numbers that fit tell their halves apart. -/
theorem extractLsb'_eq_iff {m : BitVec 16} {k : ℕ} (hm : 0 ≤ m.toInt)
    (hk : k ≤ 32767) :
    m.extractLsb' 1 15 = (BitVec.ofNat 16 k).extractLsb' 1 15 ↔
      m.toInt / 2 = k / 2 := by
  have hnat : m.toInt = m.toNat := by
    apply BitVec.toInt_eq_toNat_of_msb
    rwa [BitVec.msb_eq_toInt, decide_eq_false_iff_not, not_lt]
  have hlt := m.toInt_lt
  rw [← BitVec.toNat_inj, BitVec.extractLsb'_toNat, BitVec.extractLsb'_toNat,
    BitVec.toNat_ofNat, Nat.shiftRight_eq_div_pow, Nat.shiftRight_eq_div_pow,
    hnat]
  omega

theorem faithful_iff
    {past : List (Cycle (State (params16 n f)) (Input (params16 n f)))}
    (h : 0 ≤ s.maxsamp.toInt) :
    Faithful past s ↔
      s.maxsamp.toInt / 2 = (peak (sinceLast clears past) : ℤ) / 2 ∧
        s.adcOvflLatch = overflowed (sinceLast clears past) := by
  unfold Faithful
  simp only [statusWord_bits, extractLsb'_eq_iff h (peak_le _), forall_const]

/-- A faithful report stays one exactly in a cycle that is counted. -/
theorem faithful_next
    {past : List (Cycle (State (params16 n f)) (Input (params16 n f)))}
    (hs : 0 ≤ s.maxsamp.toInt) (h : Faithful past s) :
    Faithful (past ++ [⟨s, i⟩]) (next s i) ↔ Counted ⟨s, i⟩ := by
  obtain ⟨hpeak, hlatch⟩ := (faithful_iff hs).mp h
  rw [faithful_iff (maxsamp_nonneg hs), sinceLast_snoc, Counted]
  cases hclears : clears ⟨s, i⟩ with
  | true =>
      obtain ⟨hmax, hovfl⟩ := next_of_clears s i hclears
      have hone : peak [⟨s, i⟩] = magnitude s.samp := Nat.zero_max _
      have hzero : (0 : BitVec 16).toInt = 0 := rfl
      rw [if_pos rfl, if_pos rfl, hmax, hovfl, hone, hzero]
      have hany : overflowed [⟨s, i⟩] = i.adcOvfl := Bool.or_false _
      rw [hany, eq_comm (a := false), and_comm]
      apply and_congr_right
      intro _
      show (0 : ℤ) / 2 = _ ↔ magnitude s.samp ≤ 1
      omega
  | false =>
      obtain ⟨hmax, hovfl⟩ := next_of_not_clears s i hclears
      have hnot : ¬false = true := Bool.false_ne_true
      rw [if_neg hnot, if_neg hnot, hmax, hovfl, peak_snoc, overflowed_snoc,
        hlatch, eq_self_iff_true, and_true]
      have hbound := s.maxsamp.toInt_lt
      by_cases hx : s.samp = BitVec.intMin 16
      · have hmag : magnitude (BitVec.intMin 16) = 32767 := by decide
        have hle := peak_le (sinceLast clears past)
        simp only [hx, raised_intMin, hmag, true_implies]
        rw [max_eq_right hle]
        omega
      · rw [toInt_raised hs hx]
        simp only [hx, false_implies, iff_true]
        omega

end Step

/-- From cleared registers the report is faithful all along a run in exactly the
runs whose cycles are all counted. -/
theorem faithful_iff_counted {s : State (params16 n f)} (h : s.IsStarted)
    (inputs : List (Input (params16 n f))) :
    (∀ before, before <+: inputs →
        Faithful (trace next s before) (run next s before)) ↔
      ∀ c ∈ trace next s inputs, Counted c := by
  have hzero : 0 ≤ s.maxsamp.toInt := by
    rw [h.maxsamp]
    rfl
  have hsign : ∀ before, 0 ≤ (run next s before).maxsamp.toInt :=
    run_invariant (fun t : State (params16 n f) => 0 ≤ t.maxsamp.toInt)
      (fun _ _ ht => maxsamp_nonneg ht) hzero
  have hinit : Faithful [] s := by
    rw [faithful_iff hzero, h.maxsamp, h.adcOvflLatch]
    exact ⟨rfl, rfl⟩
  rw [← forall_before_iff
    (fun past t => 0 ≤ t.maxsamp.toInt ∧ Faithful past t) Counted
    ⟨hzero, hinit⟩]
  · constructor
    · intro hall before hb
      exact ⟨hsign before, hall before hb⟩
    · intro hall before hb
      exact (hall before hb).2
  · rintro past t i ⟨ht, hpast⟩
    rw [← faithful_next ht hpast]
    exact and_iff_right (maxsamp_nonneg ht)

/-! ## Two runs of one band -/

def started (samp : BitVec 16) : State (params16 1 48) where
  fracshift _ := 0
  regfir := 0
  regband := ⟨0, by decide⟩
  regvld := false
  shiftfir := 0
  shiftband := ⟨0, by decide⟩
  shiftvld := false
  shiftlo := false
  shifthi := false
  shiftcntr := 0
  lowsigcntr _ := 0
  highsigcntr _ := 0
  adcOvflLatch := false
  samp := samp
  maxsamp := 0
  outdata := 0
  outvld := false

theorem isStarted_started (samp : BitVec 16) : (started samp).IsStarted :=
  ⟨rfl, rfl, rfl⟩

def sampled (adcOvfl : Bool) (din : BitVec 16) : Input (params16 1 48) where
  firdata := 0
  firuser := 0
  firvld := false
  adcOvfl := adcOvfl
  din := din
  firband_lt := by decide

/-- An overflow, and samples of both signs. -/
def shortInputs : List (Input (params16 1 48)) :=
  [sampled true 100, sampled false (-200), sampled false 7]

theorem faithful_short :
    Faithful (trace next (started 3) shortInputs)
      (run next (started 3) shortInputs) := by
  refine (faithful_iff_counted (isStarted_started 3) shortInputs).mpr ?_ _
    (List.prefix_refl _)
  unfold Counted
  decide +kernel

/-- The lowest sample, and one cycle for it to be compared. -/
def lowestInputs : List (Input (params16 1 48)) :=
  [sampled false (BitVec.intMin 16), sampled false 0]

/-- The lowest sample leaves the report at zero. -/
theorem not_faithful_intMin :
    (started 0).IsStarted ∧
      ¬Faithful (trace next (started 0) lowestInputs)
        (run next (started 0) lowestInputs) := by
  refine ⟨isStarted_started _, fun h => ?_⟩
  exact absurd (h 0).1 (by decide +kernel)

end RedPitayaNotes.CfgSlicer
