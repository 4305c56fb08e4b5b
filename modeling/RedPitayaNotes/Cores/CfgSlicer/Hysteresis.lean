import Mathlib.Algebra.Order.Ring.Int
import Mathlib.Tactic.Linarith
import Mathlib.Tactic.Positivity
import RedPitayaNotes.Cores.CfgSlicer.Window

/-!
# The hysteresis of the gain control

A value that is low stays clear of high under the next smaller shift, because
half of what counts as high is still more than what counts as low.  Along a run
this means that a shift that was made smaller for values that were all low is
not made larger again for the same values.
-/

namespace RedPitayaNotes.CfgSlicer

open Clocked

section Levels

variable (p : Params)

/-- `losig`, of a value of `regfir` -/
def isLow (x : BitVec p.firOutWidth) : Bool :=
  decide (x.toInt < (max15 p).toInt) && decide ((min15 p).toInt < x.toInt)

/-- `hisig`, of a value of `regfir` -/
def isHigh (x : BitVec p.firOutWidth) : Bool :=
  decide ((max16 p).toInt < x.toInt) || decide (x.toInt < (min16 p).toInt)

/-- The value is classified low under the shift. -/
def lowAt (shift : ℕ) (v : BitVec p.firOutWidth) : Bool :=
  isLow p (v.sshiftRight shift)

/-- The value is classified high under the shift. -/
def highAt (shift : ℕ) (v : BitVec p.firOutWidth) : Bool :=
  isHigh p (v.sshiftRight shift)

end Levels

variable {p : Params}

theorem losig_eq_isLow (s : State p) : losig s = isLow p s.regfir := rfl

theorem hisig_eq_isHigh (s : State p) : hisig s = isHigh p s.regfir := rfl

/-! ## Moves of a shift and their causes -/

/-- The shift of the band changes in the cycle. -/
def Moves (b : Fin p.numChans) (c : Cycle (State p) (Input p)) : Prop :=
  (next c.state c.input).fracshift b ≠ c.state.fracshift b

/-- The cycle in which the sample was shifted that is counted after `past`. -/
def shiftedIn (past : List (Cycle (State p) (Input p))) :
    Option (Cycle (State p) (Input p)) :=
  past.dropLast.getLast?

/-- The cycle starts `highsigcntr` of the band again. -/
def restartsHigh (b : Fin p.numChans) (c : Cycle (State p) (Input p)) : Bool :=
  decide (c.state.shiftcntr > oneSec) || (counts b c && highOften c.state)

/-- The value is that of a sample that `highsigcntr` of the band counts. -/
def HighEvidence (past : List (Cycle (State p) (Input p)))
    (b : Fin p.numChans) (v : BitVec p.firOutWidth) : Prop :=
  ∃ before e after x, past = before ++ e :: after ∧
    x ∈ shiftedIn before ∧ x.input.firdata = v ∧
    counts b e = true ∧ e.state.shifthi = true ∧
    ∀ c ∈ e :: after, restartsHigh b c = false

/-- The value is that of a sample which is low, as are all after it, and which
was shifted by `shift`. -/
def LowEvidence (past : List (Cycle (State p) (Input p)))
    (b : Fin p.numChans) (shift : BitVec 5) (v : BitVec p.firOutWidth) : Prop :=
  ∃ before e after x, past = before ++ e :: after ∧
    x ∈ shiftedIn before ∧ x.input.firdata = v ∧ x.state.fracshift b = shift ∧
    counts b e = true ∧ ∀ c ∈ e :: after, counts b c = true → countsLow c = true

/-- The shift of the band is made smaller, and the values were all low. -/
def LowersOn (V : Set (BitVec p.firOutWidth)) (b : Fin p.numChans)
    (c : Cycle (State p) (Input p)) : Prop :=
  (next c.state c.input).fracshift b = c.state.fracshift b - 1 ∧
    ∀ v ∈ V, lowAt p (c.state.fracshift b).toNat v = true

/-- The shift of the band is made larger, and the values are all that made it
so. -/
def RaisesOn (V : Set (BitVec p.firOutWidth))
    (past : List (Cycle (State p) (Input p))) (b : Fin p.numChans)
    (c : Cycle (State p) (Input p)) : Prop :=
  (next c.state c.input).fracshift b = c.state.fracshift b + 1 ∧
    ∀ v, HighEvidence past b v → v ∈ V

/-- What keeps the gain control from hunting. -/
structure Hysteresis (p : Params) : Prop where
  /-- A value that is low is not high under the next smaller shift. -/
  lower : ∀ (v : BitVec p.firOutWidth) (s : ℕ), 1 ≤ s → s ≤ 31 →
    lowAt p s v = true → highAt p (s - 1) v = false
  /-- A value that is high is not low under the next larger shift. -/
  raise : ∀ (v : BitVec p.firOutWidth) (s : ℕ), s < 31 →
    highAt p s v = true → lowAt p (s + 1) v = false
  /-- The samples that count for making a shift smaller are low under it. -/
  evidence : ∀ (s₀ : State p) (inputs : List (Input p)) past c rest,
    trace next s₀ inputs = past ++ c :: rest → ∀ b v,
      LowEvidence past b (c.state.fracshift b) v →
        lowAt p (c.state.fracshift b).toNat v = true
  /-- After a shift was made smaller, or several times so, with the values all
  low, it is not the values that make it larger. -/
  steady : ∀ (s₀ : State p) (inputs : List (Input p)) past c mid d rest,
    s₀.IsCleared →
    trace next s₀ inputs = past ++ c :: (mid ++ d :: rest) →
    ∀ b V, LowersOn V b c → (∀ e ∈ mid, Moves b e → LowersOn V b e) →
      ¬ RaisesOn V (past ++ c :: mid) b d
  /-- Where the samples of the band take no other values, nothing makes the
  shift larger. -/
  closed : ∀ (s₀ : State p) (inputs : List (Input p)) past c mid d rest,
    s₀.IsCleared →
    trace next s₀ inputs = past ++ c :: (mid ++ d :: rest) →
    ∀ b V, (∀ i ∈ inputs, i.firvld = true → i.band = b → i.firdata ∈ V) →
      LowersOn V b c → (∀ e ∈ mid, Moves b e → LowersOn V b e) →
      (next d.state d.input).fracshift b ≠ d.state.fracshift b + 1

/-! ## The dead band -/

section DeadBand

variable {n f : ℕ}

theorem toInt_max16 : (max16 (params16 n f)).toInt = 32767 := by
  show (BitVec.ofInt 16 (2 ^ 15 - 1)).toInt = 32767
  decide

theorem toInt_min16 : (min16 (params16 n f)).toInt = -32768 := by
  show (BitVec.ofInt 16 (-2 ^ 15)).toInt = -32768
  decide

theorem toInt_max15 : (max15 (params16 n f)).toInt = 16383 := by
  show (BitVec.ofInt 16 (2 ^ 14 - 1)).toInt = 16383
  decide

theorem toInt_min15 : (min15 (params16 n f)).toInt = -16384 := by
  show (BitVec.ofInt 16 (-2 ^ 14)).toInt = -16384
  decide

theorem lowAt_iff (v : BitVec f) (s : ℕ) :
    lowAt (params16 n f) s v = true ↔
      -16383 * 2 ^ s ≤ v.toInt ∧ v.toInt < 16383 * 2 ^ s := by
  have hpos : (0 : ℤ) < 2 ^ s := by positivity
  rw [lowAt, isLow, toInt_max15, toInt_min15, BitVec.toInt_sshiftRight,
    Int.shiftRight_eq_div_pow, Bool.and_eq_true, decide_eq_true_iff,
    decide_eq_true_iff, and_comm, ← Int.le_ediv_iff_mul_le hpos,
    ← Int.ediv_lt_iff_lt_mul hpos]
  push_cast
  exact Iff.rfl

theorem highAt_eq_false_iff (v : BitVec f) (s : ℕ) :
    highAt (params16 n f) s v = false ↔
      -32768 * 2 ^ s ≤ v.toInt ∧ v.toInt < 32768 * 2 ^ s := by
  have hpos : (0 : ℤ) < 2 ^ s := by positivity
  rw [highAt, isHigh, toInt_max16, toInt_min16, BitVec.toInt_sshiftRight,
    Int.shiftRight_eq_div_pow, Bool.or_eq_false_iff, decide_eq_false_iff_not,
    decide_eq_false_iff_not, not_lt, not_lt, and_comm,
    ← Int.le_ediv_iff_mul_le hpos, ← Int.ediv_lt_iff_lt_mul hpos]
  push_cast
  exact and_congr_right' Int.lt_add_one_iff.symm

/-- A low value is not high under any shift that is smaller by one at most. -/
theorem highAt_eq_false {v : BitVec f} {s t : ℕ} (hle : s ≤ t + 1)
    (h : lowAt (params16 n f) s v = true) :
    highAt (params16 n f) t v = false := by
  have hpow : (2 : ℤ) ^ s ≤ 2 ^ t * 2 := by
    rw [← pow_succ]
    exact pow_le_pow_right₀ (by decide) hle
  have hpos : (0 : ℤ) < 2 ^ t := by positivity
  obtain ⟨hlow, hhigh⟩ := (lowAt_iff v s).mp h
  exact (highAt_eq_false_iff v t).mpr ⟨by linarith, by linarith⟩

/-- The shift below the smallest is the largest. -/
theorem highAt_sub_one_eq_false {v : BitVec f} {s : BitVec 5}
    (h : lowAt (params16 n f) s.toNat v = true) :
    highAt (params16 n f) (s - 1).toNat v = false := by
  apply highAt_eq_false _ h
  bv_omega

theorem isHigh_of_isLow {x : BitVec f} (h : isLow (params16 n f) x = true) :
    isHigh (params16 n f) x = false := by
  have h' : lowAt (params16 n f) 0 x = true := by
    rwa [lowAt, BitVec.sshiftRight_zero]
  have hhigh := highAt_eq_false (Nat.zero_le 1) h'
  rwa [highAt, BitVec.sshiftRight_zero] at hhigh

end DeadBand

/-! ## The pipeline -/

theorem shiftedIn_snoc (past : List (Cycle (State p) (Input p)))
    (c : Cycle (State p) (Input p)) : shiftedIn (past ++ [c]) = past.getLast? := by
  rw [shiftedIn, List.dropLast_concat]

/-- The two stages hold the samples of the two cycles before. -/
structure Pipelined (past : List (Cycle (State p) (Input p))) (s : State p) :
    Prop where
  reg : ∀ x ∈ past.getLast?, s.regvld = x.input.firvld ∧
    s.regband = x.input.band ∧
    s.regfir =
      x.input.firdata.sshiftRight (x.state.fracshift x.input.band).toNat
  shift : ∀ x ∈ shiftedIn past, s.shiftvld = x.input.firvld ∧
    s.shiftband = x.input.band ∧
    s.shiftlo =
      lowAt p (x.state.fracshift x.input.band).toNat x.input.firdata ∧
    s.shifthi =
      highAt p (x.state.fracshift x.input.band).toNat x.input.firdata

theorem Pipelined.next {past : List (Cycle (State p) (Input p))} {s : State p}
    (h : Pipelined past s) (i : Input p) :
    Pipelined (past ++ [⟨s, i⟩]) (next s i) := by
  constructor
  · intro x hx
    rw [List.getLast?_concat] at hx
    obtain rfl := Option.some.inj hx
    exact ⟨rfl, rfl, rfl⟩
  · intro x hx
    rw [shiftedIn_snoc] at hx
    obtain ⟨hvld, hband, hfir⟩ := h.reg x hx
    refine ⟨hvld, hband, ?_, ?_⟩
    · rw [lowAt, ← hfir]
      exact losig_eq_isLow s
    · rw [highAt, ← hfir]
      exact hisig_eq_isHigh s

theorem pipelined_run (s₀ : State p) (inputs : List (Input p)) :
    Pipelined (trace next s₀ inputs) (run next s₀ inputs) := by
  refine trace_induction Pipelined ⟨?_, ?_⟩ (fun _ _ i h => h.next i) inputs
  · intro x hx
    cases hx
  · intro x hx
    cases hx

/-- The samples that count for making a shift smaller are low under it, but for
those that an earlier shift has shifted. -/
theorem lowAt_of_lowEvidence {s₀ : State p} {inputs : List (Input p)}
    {past rest : List (Cycle (State p) (Input p))}
    {c : Cycle (State p) (Input p)}
    (htrace : trace next s₀ inputs = past ++ c :: rest) {b : Fin p.numChans}
    {shift : BitVec 5} {v : BitVec p.firOutWidth}
    (h : LowEvidence past b shift v) : lowAt p shift.toNat v = true := by
  obtain ⟨before, e, after, x, rfl, hx, rfl, rfl, hcounts, hlow⟩ := h
  rw [List.append_assoc, List.cons_append] at htrace
  obtain ⟨older, _, -, rfl, hstate⟩ := exists_before htrace
  have hpipelined := (pipelined_run s₀ older).shift x hx
  rw [← hstate] at hpipelined
  obtain ⟨-, hband, hlo, -⟩ := hpipelined
  have hb : e.state.shiftband = b := (counts_eq_true_iff.mp hcounts).2
  rw [← hb, hband, ← hlo]
  exact hlow e List.mem_cons_self hcounts

/-- The samples that count for making a shift larger are inputs of the band. -/
theorem exists_input_of_highEvidence {s₀ : State p} {inputs : List (Input p)}
    {past rest : List (Cycle (State p) (Input p))}
    (htrace : trace next s₀ inputs = past ++ rest) {b : Fin p.numChans}
    {v : BitVec p.firOutWidth} (h : HighEvidence past b v) :
    ∃ i ∈ inputs, i.firvld = true ∧ i.band = b ∧ i.firdata = v := by
  obtain ⟨before, e, after, x, rfl, hx, rfl, hcounts, -, -⟩ := h
  rw [List.append_assoc, List.cons_append] at htrace
  obtain ⟨older, newer, rfl, rfl, hstate⟩ := exists_before htrace
  have hpipelined := (pipelined_run s₀ older).shift x hx
  rw [← hstate] at hpipelined
  obtain ⟨hvld, hband, -, -⟩ := hpipelined
  obtain ⟨hevld, heband⟩ := counts_eq_true_iff.mp hcounts
  have hmem : x ∈ trace next s₀ older :=
    List.mem_of_mem_dropLast (List.mem_of_getLast? hx)
  have hinput : x.input ∈ older := by
    rw [← map_input_trace next s₀ older]
    exact List.mem_map_of_mem hmem
  exact ⟨x.input, List.mem_append_left _ hinput, hvld ▸ hevld, hband ▸ heband,
    rfl⟩

/-! ## The counters -/

theorem highsigcntr_next (s : State p) (i : Input p) (b : Fin p.numChans) :
    (next s i).highsigcntr b =
      if restartsHigh b ⟨s, i⟩ then 0
      else s.highsigcntr b + (counts b ⟨s, i⟩ && s.shifthi).toNat := by
  by_cases hclear : s.shiftcntr > oneSec
  · simp [next, restartsHigh, hclear]
  · by_cases hb : s.shiftband = b
    · subst hb
      cases hvld : s.shiftvld <;> cases hhigh : highOften s <;>
        cases hhi : s.shifthi <;>
        simp [next, restartsHigh, counts, hclear, hvld, hhigh, hhi]
    · have hb' : b ≠ s.shiftband := Ne.symm hb
      simp only [next, restartsHigh, counts, hclear, hb, decide_false,
        Bool.and_false, Bool.false_and, Bool.or_false, Bool.toNat_false,
        if_false, Bool.false_eq_true, add_zero]
      split_ifs <;> simp [Function.update_of_ne hb']

/-- The counter is within its limit when a sample is counted and it goes on. -/
theorem highsigcntr_le {s : State p} {i : Input p} {b : Fin p.numChans}
    (hc : counts b ⟨s, i⟩ = true) (h : restartsHigh b ⟨s, i⟩ = false) :
    s.highsigcntr b ≤ oneSecChan / 1000 := by
  obtain ⟨-, rfl⟩ := counts_eq_true_iff.mp hc
  rw [restartsHigh, hc, Bool.true_and, Bool.or_eq_false_iff] at h
  exact Nat.le_of_not_gt (of_decide_eq_false h.2)

theorem lowsigcntr_next_le (s : State p) (i : Input p) (b : Fin p.numChans) :
    (next s i).lowsigcntr b ≤ s.lowsigcntr b + 1 := by
  cases hc : counts b ⟨s, i⟩ with
  | false =>
      rw [lowsigcntr_next_of_not_counts hc]
      exact Nat.le_succ _
  | true => rcases lowsigcntr_next_of_counts hc with h | ⟨-, h⟩ <;> omega

section Evidence

variable {past : List (Cycle (State p) (Input p))}
  {c : Cycle (State p) (Input p)} {b : Fin p.numChans}

theorem HighEvidence.skip {v : BitVec p.firOutWidth}
    (h : HighEvidence past b v) (hc : restartsHigh b c = false) :
    HighEvidence (past ++ [c]) b v := by
  obtain ⟨before, e, after, x, rfl, hx, hv, hcounts, hhi, hgoes⟩ := h
  refine ⟨before, e, after ++ [c], x, ?_, hx, hv, hcounts, hhi, ?_⟩
  · rw [List.append_assoc, List.cons_append]
  · rw [← List.cons_append, List.forall_mem_append]
    exact ⟨hgoes, by simpa using hc⟩

theorem HighEvidence.snoc {x : Cycle (State p) (Input p)}
    (hx : x ∈ shiftedIn past) (hcounts : counts b c = true)
    (hhi : c.state.shifthi = true) (hc : restartsHigh b c = false) :
    HighEvidence (past ++ [c]) b x.input.firdata :=
  ⟨past, c, [], x, rfl, hx, rfl, hcounts, hhi, by simpa using hc⟩

end Evidence

/-! ## A long low run -/

section Runs

variable {n f : ℕ} {b : Fin n} {s : State (params16 n f)}
  {past : List (Cycle (State (params16 n f)) (Input (params16 n f)))}

/-- After a few low samples of the band no sample of it is left in the stages
that another shift has shifted. -/
structure Settled (b : Fin n)
    (past : List (Cycle (State (params16 n f)) (Input (params16 n f))))
    (s : State (params16 n f)) : Prop where
  exclusive : s.shiftlo = true → s.shifthi = true → s.highsigcntr b = 0
  bounded : s.lowsigcntr b ≠ 0 → s.highsigcntr b ≤ oneSecChan / 1000
  last : 2 ≤ s.lowsigcntr b →
    ∃ x ∈ past.getLast?, x.state.fracshift b = s.fracshift b
  shifted : 3 ≤ s.lowsigcntr b →
    ∃ x ∈ shiftedIn past, x.state.fracshift b = s.fracshift b

/-- A low counter is at its start when the shift has changed. -/
theorem Settled.lowsigcntr_of_moves (h : Settled b past s)
    {i : Input (params16 n f)} (hmoves : Moves b ⟨s, i⟩) :
    (next s i).lowsigcntr b ≤ 1 := by
  rcases fracshift_next s i b with hsame | ⟨-, rfl, hhigh, -⟩ |
      ⟨hvld, rfl, -, hlow, -⟩
  · exact absurd hsame hmoves
  · have hzero : s.lowsigcntr s.shiftband = 0 := by
      by_contra hne
      rw [highOften, decide_eq_true_iff] at hhigh
      exact absurd (h.bounded hne) (Nat.not_le_of_gt hhigh)
    have hle := lowsigcntr_next_le s i s.shiftband
    rwa [hzero] at hle
  · have hzero : (next s i).lowsigcntr s.shiftband = 0 := by
      simp [next, hvld, hlow]
    rw [hzero]
    exact Nat.zero_le 1

theorem Settled.next (h : Settled b past s) (i : Input (params16 n f)) :
    Settled b (past ++ [⟨s, i⟩]) (next s i) := by
  have hle := lowsigcntr_next_le s i b
  have hsame : 2 ≤ (CfgSlicer.next s i).lowsigcntr b →
      s.fracshift b = (CfgSlicer.next s i).fracshift b := by
    intro hlong
    by_contra hne
    have hshort := h.lowsigcntr_of_moves (i := i) (Ne.symm hne)
    omega
  constructor
  · intro hlo hhi
    have hhi' : (CfgSlicer.next s i).shifthi = false := isHigh_of_isLow hlo
    rw [hhi'] at hhi
    cases hhi
  · intro hne
    rw [highsigcntr_next]
    cases hrestart : restartsHigh b ⟨s, i⟩ with
    | true => exact Nat.zero_le _
    | false =>
        cases hc : counts b ⟨s, i⟩ with
        | false =>
            rw [lowsigcntr_next_of_not_counts hc] at hne
            exact h.bounded hne
        | true =>
            rcases lowsigcntr_next_of_counts hc with hzero | ⟨hlo, -⟩
            · exact absurd hzero hne
            · cases hhi : s.shifthi with
              | false => exact highsigcntr_le hc hrestart
              | true =>
                  rw [h.exclusive hlo hhi]
                  decide
  · intro hlong
    exact ⟨⟨s, i⟩, by rw [List.getLast?_concat]; rfl, hsame hlong⟩
  · intro hlong
    obtain ⟨x, hx, hshift⟩ := h.last (by omega)
    rw [shiftedIn_snoc]
    exact ⟨x, hx, hshift.trans (hsame (by omega))⟩

theorem settled_run {s₀ : State (params16 n f)} (h : s₀.IsCleared)
    (inputs : List (Input (params16 n f))) :
    Settled b (trace next s₀ inputs) (run next s₀ inputs) := by
  refine trace_induction (Settled b) ⟨?_, ?_, ?_, ?_⟩
    (fun _ _ i hs => hs.next i) inputs
  · intro _ _
    exact h.highsigcntr b
  · intro hne
    exact absurd (h.lowsigcntr b) hne
  · rw [h.lowsigcntr b]
    intro hlong
    exact absurd hlong (by decide)
  · rw [h.lowsigcntr b]
    intro hlong
    exact absurd hlong (by decide)

/-! ## After a shift was made smaller -/

/-- None of the values is high under the shift. -/
def Quiet (n : ℕ) (V : Set (BitVec f)) (shift : BitVec 5) : Prop :=
  ∀ v ∈ V, highAt (params16 n f) shift.toNat v = false

/-- None of the values is high under a shift that a sample in the stages was
shifted by, and if the high counter is past its limit it counts another value. -/
structure Calm (V : Set (BitVec f)) (b : Fin n)
    (past : List (Cycle (State (params16 n f)) (Input (params16 n f))))
    (s : State (params16 n f)) : Prop where
  pipelined : Pipelined past s
  counter : s.highsigcntr b ≤ oneSecChan / 1000 ∨
    ∃ v, v ∉ V ∧ HighEvidence past b v
  now : Quiet n V (s.fracshift b)
  last : ∃ x ∈ past.getLast?, Quiet n V (x.state.fracshift b)
  shifted : ∃ x ∈ shiftedIn past, Quiet n V (x.state.fracshift b)

variable {V : Set (BitVec f)}

theorem LowersOn.counters {i : Input (params16 n f)}
    (h : LowersOn V b ⟨s, i⟩) :
    s.highsigcntr b ≤ oneSecChan / 1000 ∧ oneSecChan * 5 < s.lowsigcntr b := by
  have hdown : (next s i).fracshift b = s.fracshift b - 1 := h.1
  rcases fracshift_next s i b with hsame | ⟨-, -, -, hup⟩ |
      ⟨-, rfl, hhigh, hlow, -⟩
  · rw [hdown] at hsame
    bv_omega
  · rw [hdown] at hup
    bv_omega
  · rw [highOften, decide_eq_false_iff_not] at hhigh
    rw [lowLong, decide_eq_true_iff] at hlow
    exact ⟨Nat.le_of_not_gt hhigh, hlow⟩

theorem LowersOn.calm {i : Input (params16 n f)} (h : LowersOn V b ⟨s, i⟩)
    (hsettled : Settled b past s) (hpipelined : Pipelined past s) :
    Calm V b past s := by
  obtain ⟨hhigh, hlow⟩ := h.counters
  have hlong : 3 ≤ s.lowsigcntr b := by
    rw [oneSecChan] at hlow
    omega
  have hquiet : Quiet n V (s.fracshift b) := by
    intro v hv
    exact highAt_eq_false (Nat.le_succ _) (h.2 v hv)
  obtain ⟨x, hx, hxshift⟩ := hsettled.last (by omega)
  obtain ⟨y, hy, hyshift⟩ := hsettled.shifted hlong
  refine ⟨hpipelined, .inl hhigh, hquiet, ⟨x, hx, ?_⟩, ⟨y, hy, ?_⟩⟩
  · rwa [hxshift]
  · rwa [hyshift]

/-- A sample of one of the values is not counted as high. -/
theorem Calm.not_mem (h : Calm V b past s) {i : Input (params16 n f)}
    (hc : counts b ⟨s, i⟩ = true) (hhi : s.shifthi = true) :
    ∃ x ∈ shiftedIn past, x.input.firdata ∉ V := by
  obtain ⟨x, hx, hquiet⟩ := h.shifted
  refine ⟨x, hx, fun hV => ?_⟩
  obtain ⟨-, hband, -, hshifthi⟩ := h.pipelined.shift x hx
  have hb : x.input.band = b := by
    rw [← hband]
    exact (counts_eq_true_iff.mp hc).2
  have hlow := hquiet _ hV
  rw [hb] at hshifthi
  rw [← hshifthi, hhi] at hlow
  cases hlow

theorem Calm.next (h : Calm V b past s) {i : Input (params16 n f)}
    (hok : Moves b ⟨s, i⟩ → LowersOn V b ⟨s, i⟩) :
    Calm V b (past ++ [⟨s, i⟩]) (next s i) := by
  refine ⟨h.pipelined.next i, ?_, ?_, ⟨⟨s, i⟩, ?_, h.now⟩, ?_⟩
  · rw [highsigcntr_next]
    cases hrestart : restartsHigh b ⟨s, i⟩ with
    | true => exact .inl (Nat.zero_le _)
    | false =>
        cases hcounted : counts b ⟨s, i⟩ && s.shifthi with
        | false =>
            rcases h.counter with hle | ⟨v, hv, hevidence⟩
            · exact .inl hle
            · exact .inr ⟨v, hv, hevidence.skip hrestart⟩
        | true =>
            obtain ⟨hc, hhi⟩ := Bool.and_eq_true_iff.mp hcounted
            obtain ⟨x, hx, hV⟩ := h.not_mem hc hhi
            exact .inr ⟨_, hV, .snoc hx hc hhi hrestart⟩
  · by_cases hmoves : Moves b ⟨s, i⟩
    · obtain ⟨hdown, hlow⟩ := hok hmoves
      intro v hv
      rw [hdown]
      exact highAt_sub_one_eq_false (hlow v hv)
    · rw [Moves, not_not] at hmoves
      rw [hmoves]
      exact h.now
  · rw [List.getLast?_concat]
    rfl
  · rw [shiftedIn_snoc]
    exact h.last

/-- A shift is made larger by another value than the calm ones. -/
theorem Calm.not_raisesOn (h : Calm V b past s) {i : Input (params16 n f)} :
    ¬ RaisesOn V past b ⟨s, i⟩ := by
  rintro ⟨hup, hall⟩
  rcases h.counter with hle | ⟨v, hv, hevidence⟩
  · rcases fracshift_next s i b with hsame | ⟨-, rfl, hhigh, -⟩ |
        ⟨-, -, -, -, hdown⟩
    · rw [hup] at hsame
      bv_omega
    · rw [highOften, decide_eq_true_iff] at hhigh
      exact absurd hle (Nat.not_le_of_gt hhigh)
    · rw [hup] at hdown
      bv_omega
  · exact hv (hall v hevidence)

end Runs

/-- An increment that follows decrements on low values has another cause. -/
theorem not_raisesOn_of_lowersOn {n f : ℕ} {s₀ : State (params16 n f)}
    (h₀ : s₀.IsCleared) {inputs : List (Input (params16 n f))}
    {past mid rest : List (Cycle (State (params16 n f)) (Input (params16 n f)))}
    {c d : Cycle (State (params16 n f)) (Input (params16 n f))}
    (htrace : trace next s₀ inputs = past ++ c :: (mid ++ d :: rest))
    {b : Fin n} {V : Set (BitVec f)} (hlower : LowersOn V b c)
    (hmid : ∀ e ∈ mid, Moves b e → LowersOn V b e) :
    ¬ RaisesOn V (past ++ c :: mid) b d := by
  obtain ⟨before, after, -, rfl, hc, hrest, -⟩ := exists_split htrace
  obtain ⟨between, -, -, rfl, hd⟩ := exists_before hrest.symm
  have hcalm : Calm V b (trace next s₀ before) c.state := by
    apply LowersOn.calm (i := c.input) hlower
    · rw [hc]
      exact settled_run h₀ before
    · rw [hc]
      exact pipelined_run s₀ before
  have hrun := trace_induction_of
    (fun hist t => Calm V b ((trace next s₀ before ++ [c]) ++ hist) t)
    (fun e => Moves b e → LowersOn V b e) ?_ ?_ between hmid
  · rw [← hd, List.append_assoc] at hrun
    exact hrun.not_raisesOn
  · rw [List.append_nil]
    exact hcalm.next fun _ => hlower
  · intro hist t i ht hok
    rw [← List.append_assoc]
    exact ht.next hok

/-- The gain control does not hunt. -/
theorem hysteresis (n f : ℕ) : Hysteresis (params16 n f) where
  lower v s hs _ h := highAt_eq_false (by omega) h
  raise v s _ h := by
    by_contra hlow
    rw [Bool.not_eq_false] at hlow
    rw [highAt_eq_false (Nat.le_refl _) hlow] at h
    cases h
  evidence _ _ _ _ _ htrace _ _ h := lowAt_of_lowEvidence htrace h
  steady _ _ _ _ _ _ _ h₀ htrace _ _ hlower hmid :=
    not_raisesOn_of_lowersOn h₀ htrace hlower hmid
  closed _ _ past c mid d rest h₀ htrace b V hV hlower hmid hup := by
    refine not_raisesOn_of_lowersOn h₀ htrace hlower hmid ⟨hup, ?_⟩
    intro v hv
    have hsplit : past ++ c :: (mid ++ d :: rest) =
        (past ++ c :: mid) ++ d :: rest := by
      rw [List.append_assoc, List.cons_append]
    obtain ⟨i, hi, hvld, hband, rfl⟩ :=
      exists_input_of_highEvidence (htrace.trans hsplit) hv
    exact hV i hi hvld hband

/-- Five seconds of silence make a shift smaller. -/
theorem Silent.lowersOn {s : State defaultParams}
    (h : Silent (oneSecChan * 5 + 1) s) :
    LowersOn {0} band0 ⟨s, zeroSample⟩ := by
  have hlow : lowLong s = true := by
    rw [lowLong, h.shiftband, h.lowsigcntr, decide_eq_true_iff]
    exact Nat.lt_succ_self _
  constructor
  · simp [CfgSlicer.next, h.shiftvld, h.highOften, hlow, h.shiftband]
  · rintro v rfl
    rw [h.fracshift]
    decide

theorem exists_silent : ∃ before,
    Silent (oneSecChan * 5 + 1) (run next resetState before) ∧
      ∀ i ∈ before, i = zeroSample :=
  ⟨silence (oneSecChan * 5 + 1 + 2), silent_run (le_refl _),
    fun _ hi => List.eq_of_mem_replicate hi⟩

/-- More silence does not make it larger again. -/
theorem hysteresis_silence :
    ∃ s, LowersOn {0} band0 ⟨s, zeroSample⟩ ∧
      (next (next s zeroSample) zeroSample).fracshift band0 ≠
        (next s zeroSample).fracshift band0 + 1 := by
  obtain ⟨before, hsilent, hzero⟩ := exists_silent
  refine ⟨_, hsilent.lowersOn, ?_⟩
  refine (hysteresis 13 48).closed resetState
    (before ++ [zeroSample, zeroSample]) (trace next resetState before)
    ⟨_, zeroSample⟩ [] ⟨_, zeroSample⟩ [] isCleared_resetState
    (trace_append ..) band0 {0} ?_ hsilent.lowersOn (by simp)
  intro i hi _ _
  have hi' : i = zeroSample := by
    rcases List.mem_append.mp hi with hi | hi
    · exact hzero i hi
    · exact List.eq_of_mem_replicate (n := 2) hi
  rw [hi']
  rfl

end RedPitayaNotes.CfgSlicer
