import Mathlib.Data.BitVec
import Mathlib.Logic.Function.Basic
import RedPitayaNotes.Support.Clocked

/-!
# The gain control of cfg_slicer

`cores/cfg_slicer.v` shifts every sample of its FIR filter right by a shift of
the sample's band.  A sample goes through three stages: it is shifted, it is
classified as low or high, and it is counted.  Enough low samples in a row make
the shift of the band smaller, enough high samples in a second make it larger.
-/

namespace RedPitayaNotes.CfgSlicer

open Clocked

structure Params where
  sampWidth : ℕ := 16
  numChans : ℕ := 13
  firOutWidth : ℕ := 48

def oneSec : ℕ := 122880000

def oneSecChan : ℕ := 307200

section Limits

variable (p : Params)

def max16 : BitVec p.sampWidth :=
  BitVec.ofInt _ (2 ^ (p.sampWidth - 1) - 1)

def min16 : BitVec p.sampWidth :=
  BitVec.ofInt _ (-2 ^ (p.sampWidth - 1))

def max15 : BitVec p.sampWidth :=
  BitVec.ofInt _ (2 ^ (p.sampWidth - 2) - 1)

def min15 : BitVec p.sampWidth :=
  BitVec.ofInt _ (-2 ^ (p.sampWidth - 2))

end Limits

/-- The registers of the second `always` block.  The counters are integers
that only count up from zero. -/
structure State (p : Params) where
  fracshift : Fin p.numChans → BitVec 5
  regfir : BitVec p.firOutWidth
  regband : Fin p.numChans
  regvld : Bool
  shiftfir : BitVec p.firOutWidth
  shiftband : Fin p.numChans
  shiftvld : Bool
  shiftlo : Bool
  shifthi : Bool
  shiftcntr : ℕ
  lowsigcntr : Fin p.numChans → ℕ
  highsigcntr : Fin p.numChans → ℕ
  adcOvflLatch : Bool
  samp : BitVec p.sampWidth
  maxsamp : BitVec p.sampWidth
  outdata : BitVec p.sampWidth
  outvld : Bool

def firchan (firuser : BitVec 8) : BitVec 8 := firuser >>> 1

def firband (firuser : BitVec 8) : BitVec 8 := firchan firuser >>> 1

/-- The outputs of the filter, and the two inputs of the block. -/
structure Input (p : Params) where
  firdata : BitVec p.firOutWidth
  firuser : BitVec 8
  firvld : Bool
  adcOvfl : Bool
  din : BitVec p.sampWidth
  firband_lt : (firband firuser).toNat < p.numChans

variable {p : Params}

def Input.band (i : Input p) : Fin p.numChans :=
  ⟨(firband i.firuser).toNat, i.firband_lt⟩

def losig (s : State p) : Bool :=
  decide (s.regfir.toInt < (max15 p).toInt) &&
    decide ((min15 p).toInt < s.regfir.toInt)

def hisig (s : State p) : Bool :=
  decide ((max16 p).toInt < s.regfir.toInt) ||
    decide (s.regfir.toInt < (min16 p).toInt)

/-- `lowsigcntr[shiftband] > ONE_SEC_CHAN*5` -/
def lowLong (s : State p) : Bool :=
  decide (s.lowsigcntr s.shiftband > oneSecChan * 5)

/-- `highsigcntr[shiftband] > ONE_SEC_CHAN/1000` -/
def highOften (s : State p) : Bool :=
  decide (s.highsigcntr s.shiftband > oneSecChan / 1000)

/-- The clock edge.  Of two assignments to a register the later one counts. -/
def next (s : State p) (i : Input p) : State p where
  fracshift :=
    if s.shiftvld then
      if highOften s then
        Function.update s.fracshift s.shiftband (s.fracshift s.shiftband + 1)
      else if lowLong s then
        Function.update s.fracshift s.shiftband (s.fracshift s.shiftband - 1)
      else s.fracshift
    else s.fracshift
  regfir := i.firdata.sshiftRight (s.fracshift i.band).toNat
  regband := i.band
  regvld := i.firvld
  shiftfir := s.regfir
  shiftband := s.regband
  shiftvld := s.regvld
  shiftlo := losig s
  shifthi := hisig s
  shiftcntr := if s.shiftcntr > oneSec then 0 else s.shiftcntr + 1
  lowsigcntr :=
    if s.shiftvld then
      if lowLong s then Function.update s.lowsigcntr s.shiftband 0
      else if s.shiftlo then
        Function.update s.lowsigcntr s.shiftband
          (s.lowsigcntr s.shiftband + 1)
      else Function.update s.lowsigcntr s.shiftband 0
    else s.lowsigcntr
  highsigcntr :=
    if s.shiftcntr > oneSec then fun _ => 0
    else if s.shiftvld then
      if highOften s then Function.update s.highsigcntr s.shiftband 0
      else if s.shifthi then
        Function.update s.highsigcntr s.shiftband
          (s.highsigcntr s.shiftband + 1)
      else s.highsigcntr
    else s.highsigcntr
  adcOvflLatch :=
    if s.shiftcntr > oneSec then false
    else if i.adcOvfl then true
    else s.adcOvflLatch
  samp := i.din
  maxsamp :=
    if s.shiftcntr > oneSec then 0
    else if s.maxsamp.slt s.samp then s.samp
    else if s.maxsamp.slt (-s.samp) then -s.samp
    else s.maxsamp
  outdata := s.shiftfir.setWidth p.sampWidth
  outvld := s.shiftvld

/-- The byte of `status` that reports the shift of a band. -/
def status (s : State p) (b : Fin p.numChans) : BitVec 8 :=
  (s.fracshift b).setWidth 8

structure State.IsCleared (s : State p) : Prop where
  fracshift : ∀ b, s.fracshift b = 0
  lowsigcntr : ∀ b, s.lowsigcntr b = 0
  highsigcntr : ∀ b, s.highsigcntr b = 0
  shiftcntr : s.shiftcntr = 0

/-! ## The law of the gain control -/

/-- The cycle counts a sample of band `b`. -/
def counts (b : Fin p.numChans) (c : Cycle (State p) (Input p)) : Bool :=
  c.state.shiftvld && decide (c.state.shiftband = b)

/-- The sample counted in the cycle was classified low. -/
def countsLow (c : Cycle (State p) (Input p)) : Bool := c.state.shiftlo

/-- The newest `n` samples of band `b` were all low. -/
def LowRun (past : List (Cycle (State p) (Input p))) (b : Fin p.numChans)
    (n : ℕ) : Prop :=
  ∃ older recent, past.filter (counts b) = older ++ recent ∧
    recent.length = n ∧ ∀ c ∈ recent, countsLow c = true

/-- A shift moves by one at a time, and moves down on the evidence of the
sample at hand and of the `ONE_SEC_CHAN*5` samples before it. -/
structure GainLaw (s₀ : State p) (inputs : List (Input p)) : Prop where
  unit : ∀ c ∈ trace next s₀ inputs, ∀ b,
    (next c.state c.input).fracshift b ≠ c.state.fracshift b →
      ((next c.state c.input).fracshift b).toNat =
          (c.state.fracshift b).toNat + 1 ∨
        ((next c.state c.input).fracshift b).toNat + 1 =
          (c.state.fracshift b).toNat
  evidence : ∀ past c rest, trace next s₀ inputs = past ++ c :: rest → ∀ b,
    ((next c.state c.input).fracshift b).toNat <
        (c.state.fracshift b).toNat →
      counts b c = true ∧ countsLow c = true ∧
        LowRun past b (oneSecChan * 5)

/-- The cycle takes neither a shift past the ends of its range nor a step down
at a sample that is not low. -/
def Sound (c : Cycle (State p) (Input p)) : Prop :=
  c.state.shiftvld = true →
    (highOften c.state = true → c.state.fracshift c.state.shiftband ≠ 31) ∧
      (highOften c.state = false → lowLong c.state = true →
        c.state.fracshift c.state.shiftband ≠ 0 ∧ countsLow c = true)

/-! ## What an edge does -/

/-- The shift of a band changes in the cycle that counts a sample of it, when
one of its counters has passed its limit. -/
theorem fracshift_next (s : State p) (i : Input p) (b : Fin p.numChans) :
    (next s i).fracshift b = s.fracshift b ∨
      (s.shiftvld = true ∧ s.shiftband = b ∧ highOften s = true ∧
        (next s i).fracshift b = s.fracshift b + 1) ∨
      (s.shiftvld = true ∧ s.shiftband = b ∧ highOften s = false ∧
        lowLong s = true ∧ (next s i).fracshift b = s.fracshift b - 1) := by
  by_cases hb : s.shiftband = b
  · subst hb
    cases hvld : s.shiftvld <;> cases hhigh : highOften s <;>
      cases hlow : lowLong s <;> simp [next, hvld, hhigh, hlow]
  · left
    have hb' : b ≠ s.shiftband := Ne.symm hb
    simp only [next]
    split_ifs <;> simp [Function.update_of_ne hb']

theorem counts_eq_true_iff {s : State p} {i : Input p}
    {b : Fin p.numChans} :
    counts b ⟨s, i⟩ = true ↔ s.shiftvld = true ∧ s.shiftband = b := by
  simp [counts]

theorem lowsigcntr_next_of_not_counts {s : State p} {i : Input p}
    {b : Fin p.numChans} (h : counts b ⟨s, i⟩ = false) :
    (next s i).lowsigcntr b = s.lowsigcntr b := by
  cases hvld : s.shiftvld with
  | false => simp [next, hvld]
  | true =>
      have hb : b ≠ s.shiftband := by
        intro hb
        rw [counts_eq_true_iff.mpr ⟨hvld, hb.symm⟩] at h
        cases h
      simp only [next, if_pos hvld]
      split_ifs <;> exact Function.update_of_ne hb _ _

theorem lowsigcntr_next_of_counts {s : State p} {i : Input p}
    {b : Fin p.numChans} (h : counts b ⟨s, i⟩ = true) :
    (next s i).lowsigcntr b = 0 ∨
      (s.shiftlo = true ∧
        (next s i).lowsigcntr b = s.lowsigcntr b + 1) := by
  obtain ⟨hvld, rfl⟩ := counts_eq_true_iff.mp h
  cases hlow : lowLong s <;> cases hlo : s.shiftlo <;>
    simp [next, hvld, hlow, hlo]

/-! ## Low runs -/

section LowRuns

variable {past : List (Cycle (State p) (Input p))}
  {c : Cycle (State p) (Input p)} {b : Fin p.numChans} {n : ℕ}

theorem LowRun.zero (past : List (Cycle (State p) (Input p)))
    (b : Fin p.numChans) : LowRun past b 0 :=
  ⟨past.filter (counts b), [], by simp, rfl, by simp⟩

theorem LowRun.skip (h : LowRun past b n) (hc : counts b c = false) :
    LowRun (past ++ [c]) b n := by
  obtain ⟨older, recent, hsplit, hlen, hlow⟩ := h
  refine ⟨older, recent, ?_, hlen, hlow⟩
  rw [List.filter_append, List.filter_cons_of_neg (by simp [hc]), hsplit]
  simp

theorem LowRun.snoc (h : LowRun past b n) (hc : counts b c = true)
    (hlo : countsLow c = true) : LowRun (past ++ [c]) b (n + 1) := by
  obtain ⟨older, recent, hsplit, hlen, hlow⟩ := h
  refine ⟨older, recent ++ [c], ?_, by simp [hlen], ?_⟩
  · rw [List.filter_append, List.filter_cons_of_pos hc, hsplit]
    simp
  · intro d hd
    rcases List.mem_append.mp hd with hd | hd
    · exact hlow d hd
    · rwa [List.mem_singleton.mp hd]

theorem LowRun.mono (h : LowRun past b n) {m : ℕ} (hm : m ≤ n) :
    LowRun past b m := by
  obtain ⟨older, recent, hsplit, hlen, hlow⟩ := h
  refine ⟨older ++ recent.take (n - m), recent.drop (n - m), ?_, ?_, ?_⟩
  · rw [hsplit, List.append_assoc, List.take_append_drop]
  · rw [List.length_drop, hlen]
    omega
  · intro d hd
    exact hlow d (List.mem_of_mem_drop hd)

end LowRuns

/-- The low counter of a band counts low samples in a row. -/
theorem lowRun_run {s₀ : State p} (h : s₀.IsCleared)
    (inputs : List (Input p)) :
    ∀ b, LowRun (trace next s₀ inputs) b
      ((run next s₀ inputs).lowsigcntr b) := by
  refine trace_induction
    (fun past s => ∀ b, LowRun past b (s.lowsigcntr b)) ?_ ?_ inputs
  · intro b
    rw [h.lowsigcntr b]
    exact LowRun.zero [] b
  · intro past s i hpast b
    cases hc : counts b ⟨s, i⟩ with
    | false =>
        rw [lowsigcntr_next_of_not_counts hc]
        exact (hpast b).skip hc
    | true =>
        rcases lowsigcntr_next_of_counts hc with hzero | ⟨hlo, hsucc⟩
        · rw [hzero]
          exact LowRun.zero _ b
        · rw [hsucc]
          exact (hpast b).snoc hc hlo

/-! ## The gain law -/

theorem toNat_add_one {x : BitVec 5} (h : x ≠ 31) :
    (x + 1).toNat = x.toNat + 1 := by
  bv_omega

theorem toNat_sub_one {x : BitVec 5} (h : x ≠ 0) :
    (x - 1).toNat + 1 = x.toNat := by
  bv_omega

/-- One step of a shift, up or down, that stays in range. -/
theorem Sound.unit {s : State p} {i : Input p} (h : Sound ⟨s, i⟩)
    {b : Fin p.numChans}
    (hne : (next s i).fracshift b ≠ s.fracshift b) :
    ((next s i).fracshift b).toNat = (s.fracshift b).toNat + 1 ∨
      ((next s i).fracshift b).toNat + 1 = (s.fracshift b).toNat := by
  rcases fracshift_next s i b with hsame | ⟨hvld, rfl, hhigh, hup⟩ |
      ⟨hvld, rfl, hhigh, hlow, hdown⟩
  · exact absurd hsame hne
  · left
    rw [hup]
    exact toNat_add_one ((h hvld).1 hhigh)
  · right
    rw [hdown]
    exact toNat_sub_one ((h hvld).2 hhigh hlow).1

/-- A sound step down is taken at a low sample, by a counter past its limit. -/
theorem Sound.evidence {s : State p} {i : Input p} (h : Sound ⟨s, i⟩)
    {b : Fin p.numChans}
    (hlt : ((next s i).fracshift b).toNat < (s.fracshift b).toNat) :
    counts b ⟨s, i⟩ = true ∧ countsLow ⟨s, i⟩ = true ∧
      oneSecChan * 5 < s.lowsigcntr b := by
  rcases fracshift_next s i b with hsame | ⟨hvld, rfl, hhigh, hup⟩ |
      ⟨hvld, rfl, hhigh, hlow, hdown⟩
  · rw [hsame] at hlt
    exact absurd hlt (lt_irrefl _)
  · have hmax : s.fracshift s.shiftband ≠ 31 := (h hvld).1 hhigh
    rw [hup, toNat_add_one hmax] at hlt
    exact absurd hlt (by omega)
  · refine ⟨counts_eq_true_iff.mpr ⟨hvld, rfl⟩,
      ((h hvld).2 hhigh hlow).2, ?_⟩
    rwa [lowLong, decide_eq_true_iff] at hlow

/-- Every cycle of a run with the gain law is sound. -/
theorem GainLaw.sound {s₀ : State p} {inputs : List (Input p)}
    (h : GainLaw s₀ inputs) {c : Cycle (State p) (Input p)}
    (hc : c ∈ trace next s₀ inputs) : Sound c := by
  intro hvld
  have hunit := h.unit c hc c.state.shiftband
  constructor
  · intro hhigh hmax
    have hwrap : (next c.state c.input).fracshift c.state.shiftband = 0 := by
      simp [next, hvld, hhigh, hmax]
    rw [hwrap, hmax] at hunit
    exact absurd (hunit (by decide)) (by decide)
  · intro hhigh hlow
    have hdown : (next c.state c.input).fracshift c.state.shiftband =
        c.state.fracshift c.state.shiftband - 1 := by
      simp [next, hvld, hhigh, hlow]
    have hne : c.state.fracshift c.state.shiftband ≠ 0 := by
      intro hzero
      rw [hdown, hzero] at hunit
      exact absurd (hunit (by decide)) (by decide)
    refine ⟨hne, ?_⟩
    obtain ⟨past, rest, hsplit⟩ := List.append_of_mem hc
    refine (h.evidence past c rest hsplit c.state.shiftband ?_).2.1
    have hpred := toNat_sub_one hne
    rw [hdown]
    omega

/-- The gain control keeps its law in exactly the runs whose cycles are
sound. -/
theorem gainLaw_iff {s₀ : State p} (h : s₀.IsCleared)
    (inputs : List (Input p)) :
    GainLaw s₀ inputs ↔ ∀ c ∈ trace next s₀ inputs, Sound c := by
  constructor
  · intro hlaw c hc
    exact hlaw.sound hc
  · intro hsound
    constructor
    · intro c hc b hne
      exact (hsound c hc).unit hne
    · intro past c rest hsplit b hlt
      have hc : c ∈ trace next s₀ inputs := by
        rw [hsplit]
        exact List.mem_append_right past List.mem_cons_self
      obtain ⟨hcounts, hlo, hlong⟩ := (hsound c hc).evidence hlt
      refine ⟨hcounts, hlo, ?_⟩
      obtain ⟨before, _, -, rfl, hstate⟩ := exists_before hsplit
      have hrun := lowRun_run h before b
      rw [← hstate] at hrun
      exact hrun.mono hlong.le

/-! ## A loud signal -/

/-- The widths of the default parameters. -/
def defaultParams : Params := {}

def band0 : Fin defaultParams.numChans := ⟨0, by decide⟩

def resetState : State defaultParams where
  fracshift _ := 0
  regfir := 0
  regband := band0
  regvld := false
  shiftfir := 0
  shiftband := band0
  shiftvld := false
  shiftlo := false
  shifthi := false
  shiftcntr := 0
  lowsigcntr _ := 0
  highsigcntr _ := 0
  adcOvflLatch := false
  samp := 0
  maxsamp := 0
  outdata := 0
  outvld := false

theorem isCleared_resetState : resetState.IsCleared :=
  ⟨fun _ => rfl, fun _ => rfl, fun _ => rfl, rfl⟩

def zeroSample : Input defaultParams where
  firdata := 0
  firuser := 0
  firvld := true
  adcOvfl := false
  din := 0
  firband_lt := by decide

def loudSample : Input defaultParams := { zeroSample with firdata := 40000 }

/-- The same high sample of band 0 in every cycle. -/
def loud (cycles : ℕ) : List (Input defaultParams) :=
  List.replicate cycles loudSample

/-- The pipeline is full of high samples, and `n` of them have been counted. -/
structure Loud (n : ℕ) (s : State defaultParams) : Prop where
  fracshift : s.fracshift band0 = 0
  regfir : s.regfir = 40000
  regband : s.regband = band0
  regvld : s.regvld = true
  shiftband : s.shiftband = band0
  shiftvld : s.shiftvld = true
  shiftlo : s.shiftlo = false
  shifthi : s.shifthi = true
  shiftcntr : s.shiftcntr = n + 2
  lowsigcntr : s.lowsigcntr band0 = 0
  highsigcntr : s.highsigcntr band0 = n

theorem Loud.lowLong {n : ℕ} {s : State defaultParams} (h : Loud n s) :
    lowLong s = false := by
  rw [CfgSlicer.lowLong, h.shiftband, h.lowsigcntr]
  decide

theorem Loud.next {n : ℕ} {s : State defaultParams} (h : Loud n s)
    (hn : n ≤ oneSecChan / 1000) : Loud (n + 1) (next s loudSample) := by
  have hlimit : oneSecChan / 1000 = 307 := by decide
  have hsec : ¬oneSec < n + 2 := by
    rw [oneSec]
    omega
  have hhigh : highOften s = false := by
    rw [highOften, h.shiftband, h.highsigcntr, decide_eq_false_iff_not]
    omega
  refine ⟨?_, ?_, rfl, rfl, h.regband, h.regvld, ?_, ?_, ?_, ?_, ?_⟩
  · simp [CfgSlicer.next, hhigh, h.lowLong, h.fracshift]
  · change (40000 : BitVec 48).sshiftRight (s.fracshift band0).toNat = 40000
    rw [h.fracshift]
    rfl
  · change losig s = false
    rw [losig, h.regfir]
    decide
  · change hisig s = true
    rw [hisig, h.regfir]
    decide
  · simp [CfgSlicer.next, h.shiftcntr, hsec]
  · simp [CfgSlicer.next, h.shiftvld, h.lowLong, h.shiftlo, h.shiftband]
  · simp [CfgSlicer.next, h.shiftcntr, hsec, h.shiftvld, hhigh, h.shifthi,
      h.shiftband, h.highsigcntr]

theorem loud_run {n : ℕ} (hn : n ≤ oneSecChan / 1000 + 1) :
    Loud n (run next resetState (loud (n + 2))) := by
  induction n with
  | zero => exact ⟨rfl, rfl, rfl, rfl, rfl, rfl, rfl, rfl, rfl, rfl, rfl⟩
  | succ n ih =>
      have hlast : loud (n + 1 + 2) = loud (n + 2) ++ [loudSample] :=
        List.replicate_succ'
      rw [hlast, run_append]
      exact (ih (by omega)).next (by omega)

theorem Loud.sound {n : ℕ} {s : State defaultParams} (h : Loud n s)
    (i : Input defaultParams) : Sound ⟨s, i⟩ := by
  refine fun _ => ⟨fun _ hmax => ?_, fun _ hlow => ?_⟩
  · rw [h.shiftband, h.fracshift] at hmax
    exact absurd hmax (by decide)
  · rw [h.lowLong] at hlow
    cases hlow

/-- More than `ONE_SEC_CHAN/1000` high samples in a second move the shift up. -/
theorem gainLaw_loud :
    GainLaw resetState (loud (oneSecChan / 1000 + 4)) ∧
      (run next resetState (loud (oneSecChan / 1000 + 4))).fracshift band0 = 1 := by
  have hlast : loud (oneSecChan / 1000 + 4) =
      loud (oneSecChan / 1000 + 1 + 2) ++ [loudSample] :=
    List.replicate_succ'
  have hloud := loud_run (le_refl (oneSecChan / 1000 + 1))
  constructor
  · refine (gainLaw_iff isCleared_resetState _).mpr fun c hc => ?_
    obtain ⟨before, after, hsplit, hstate⟩ := exists_before_of_mem hc
    obtain ⟨hlength, hbefore, -⟩ := List.append_eq_replicate_iff.mp hsplit.symm
    rw [hbefore] at hstate
    rcases Nat.lt_or_ge before.length 2 with hshort | hlong
    · intro hvld
      have hempty : before.length = 0 ∨ before.length = 1 := by omega
      rcases hempty with hzero | hone
      · rw [hstate, hzero] at hvld
        cases hvld
      · rw [hstate, hone] at hvld
        cases hvld
    · obtain ⟨n, hn⟩ := Nat.exists_eq_add_of_le' hlong
      rw [List.length_cons] at hlength
      have hrun : Loud n c.state := by
        rw [hstate, hn]
        exact loud_run (by omega)
      exact hrun.sound c.input
  · have hhigh : highOften (run next resetState
        (loud (oneSecChan / 1000 + 1 + 2))) = true := by
      rw [highOften, hloud.shiftband, hloud.highsigcntr, decide_eq_true_iff]
      exact Nat.lt_succ_self _
    rw [hlast, run_append, run_cons, run_nil]
    simp [next, hloud.shiftvld, hhigh, hloud.shiftband, hloud.fracshift]

/-! ## Silence -/

/-- A zero sample of band 0 in every cycle. -/
def silence (cycles : ℕ) : List (Input defaultParams) :=
  List.replicate cycles zeroSample

/-- The pipeline is full of zero samples, and `n` of them have been counted. -/
structure Silent (n : ℕ) (s : State defaultParams) : Prop where
  fracshift : s.fracshift band0 = 0
  regfir : s.regfir = 0
  regband : s.regband = band0
  regvld : s.regvld = true
  shiftband : s.shiftband = band0
  shiftvld : s.shiftvld = true
  shiftlo : s.shiftlo = true
  shifthi : s.shifthi = false
  lowsigcntr : s.lowsigcntr band0 = n
  highsigcntr : s.highsigcntr band0 = 0

theorem Silent.highOften {n : ℕ} {s : State defaultParams} (h : Silent n s) :
    highOften s = false := by
  rw [CfgSlicer.highOften, h.shiftband, h.highsigcntr]
  decide

theorem Silent.next {n : ℕ} {s : State defaultParams} (h : Silent n s)
    (hn : n ≤ oneSecChan * 5) : Silent (n + 1) (next s zeroSample) := by
  have hlow : lowLong s = false := by
    rw [lowLong, h.shiftband, h.lowsigcntr, decide_eq_false_iff_not]
    omega
  refine ⟨?_, ?_, rfl, rfl, h.regband, h.regvld, ?_, ?_, ?_, ?_⟩
  · simp [CfgSlicer.next, h.highOften, hlow, h.fracshift]
  · change (0 : BitVec 48).sshiftRight _ = 0
    simp
  · change losig s = true
    rw [losig, h.regfir]
    decide
  · change hisig s = false
    rw [hisig, h.regfir]
    decide
  · simp [CfgSlicer.next, h.shiftvld, hlow, h.shiftlo, h.shiftband,
      h.lowsigcntr]
  · simp only [CfgSlicer.next, h.highOften, h.shifthi, Bool.false_eq_true,
      if_false, ite_self]
    split_ifs
    · rfl
    · exact h.highsigcntr

theorem silent_run {n : ℕ} (hn : n ≤ oneSecChan * 5 + 1) :
    Silent n (run next resetState (silence (n + 2))) := by
  induction n with
  | zero => exact ⟨rfl, rfl, rfl, rfl, rfl, rfl, rfl, rfl, rfl, rfl⟩
  | succ n ih =>
      have hlast : silence (n + 1 + 2) = silence (n + 2) ++ [zeroSample] :=
        List.replicate_succ'
      rw [hlast, run_append]
      exact (ih (by omega)).next (by omega)

theorem Silent.not_sound {s : State defaultParams}
    (h : Silent (oneSecChan * 5 + 1) s) : ¬Sound ⟨s, zeroSample⟩ := by
  intro hsound
  have hlow : lowLong s = true := by
    rw [lowLong, h.shiftband, h.lowsigcntr, decide_eq_true_iff]
    exact Nat.lt_succ_self _
  have hne : s.fracshift s.shiftband ≠ 0 :=
    ((hsound h.shiftvld).2 h.highOften hlow).1
  rw [h.shiftband, h.fracshift] at hne
  exact hne rfl

/-- After five seconds of silence the shift goes from 0 to 31. -/
theorem not_gainLaw_silence :
    resetState.IsCleared ∧
      ¬GainLaw resetState (silence (oneSecChan * 5 + 4)) := by
  refine ⟨isCleared_resetState, fun hlaw => ?_⟩
  have hlast : silence (oneSecChan * 5 + 4) =
      silence (oneSecChan * 5 + 1 + 2) ++ [zeroSample] :=
    List.replicate_succ'
  refine (silent_run (le_refl _)).not_sound (hlaw.sound ?_)
  rw [hlast, trace_append]
  exact List.mem_append_right _ List.mem_cons_self

end RedPitayaNotes.CfgSlicer
