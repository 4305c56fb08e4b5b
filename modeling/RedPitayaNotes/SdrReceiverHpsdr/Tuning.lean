import Mathlib.Data.List.Basic
import Mathlib.Tactic.FieldSimp
import Mathlib.Tactic.Positivity
import RedPitayaNotes.SdrReceiverHpsdr.Ep2
import RedPitayaNotes.Support.Clocked

/-!
# Tuning of the HPSDR server

The phase increment of a channel is computed from the `float` nearest to the
requested frequency.  A `float` holds 24 significant bits, so that frequencies
above `2 ^ 24` may change on the way, and with them the phase increment.
-/

namespace RedPitayaNotes.SdrReceiverHpsdr

open Bits Rounding Clocked

/-- The phase increment of a frequency before it is cut to an integer. -/
def scaled (freq : ℚ) : ℚ := freq / adcSampleRate * 2 ^ 30 + 1 / 2

theorem scaled_eq (freq : ℚ) :
    scaled freq = freq * (16384 / 1875) + 1 / 2 := by
  rw [scaled, adcSampleRate]
  ring

/-- Frequencies one apart have different phase increments. -/
theorem phase_ne {p q : ℚ} (hp : 0 ≤ p) (hq : q ≤ 2 ^ 27) (h : p + 1 ≤ q) :
    BitVec.ofInt 32 ⌊scaled p⌋ ≠ BitVec.ofInt 32 ⌊scaled q⌋ := by
  rw [scaled_eq, scaled_eq]
  have hpos : 0 ≤ ⌊p * (16384 / 1875) + 1 / 2⌋ := by
    rw [Int.le_floor]
    push_cast
    linarith
  have hless : ⌊p * (16384 / 1875) + 1 / 2⌋ + 1 ≤
      ⌊q * (16384 / 1875) + 1 / 2⌋ := by
    have hfloor := Int.floor_le (p * (16384 / 1875) + 1 / 2)
    rw [Int.le_floor]
    push_cast
    linarith
  have hbound : ⌊q * (16384 / 1875) + 1 / 2⌋ < 2 ^ 32 := by
    rw [Int.floor_lt]
    push_cast
    linarith
  rw [Ne, ← BitVec.toNat_inj, BitVec.toNat_ofInt, BitVec.toNat_ofInt]
  omega

/-! ## The float of a frequency -/

theorem float_bounds {f : ℕ} (hf : f ≤ freqMax.toNat) :
    (f : ℚ) - 4 < float f ∧ float f < f + 4 := by
  have herror := abs_roundSig_sub_le 24 (f : ℚ)
  have hf' : (f : ℚ) ≤ 61440000 := by exact_mod_cast hf
  rw [Nat.abs_cast, abs_le] at herror
  have hsmall : (f : ℚ) / 2 ^ 24 < 4 := by
    rw [div_lt_iff₀ (by norm_num)]
    linarith
  rw [float]
  constructor <;> linarith [herror.1, herror.2]

theorem float_nonneg (f : ℕ) : 0 ≤ float f := by
  have herror := abs_roundSig_sub_le 24 (f : ℚ)
  rw [Nat.abs_cast, abs_le] at herror
  have hsmall : (f : ℚ) / 2 ^ 24 ≤ f :=
    div_le_self (Nat.cast_nonneg f) (by norm_num)
  rw [float]
  linarith [herror.1]

/-- A `float` holds the frequency. -/
def FitsFloat (f : ℕ) : Prop :=
  f ≤ 2 ^ 24 ∨ f ≤ 2 ^ 25 ∧ 2 ∣ f ∨ 4 ∣ f

instance (f : ℕ) : Decidable (FitsFloat f) :=
  inferInstanceAs (Decidable (_ ∨ _))

theorem float_eq_iff {f : ℕ} (hf : f ≤ freqMax.toNat) :
    float f = f ↔ FitsFloat f := by
  have hf' : f ≤ 61440000 := hf
  rw [float, FitsFloat]
  by_cases hsmall : f < 2 ^ 24
  · rw [roundSig_natCast_of_lt hsmall]
    simp only [true_iff]
    omega
  · by_cases hmiddle : f < 2 ^ 25
    · rw [roundSig_natCast_eq_iff (k := 0) (by omega) hmiddle]
      omega
    · rw [roundSig_natCast_eq_iff (k := 1) (by omega) (by omega)]
      omega

/-- The phase increment of the exact frequency. -/
def exactPhase (f : ℕ) : BitVec 32 :=
  BitVec.ofInt 32 ⌊(f : ℚ) * 2 ^ 30 / 122880000 + 1 / 2⌋

theorem exactPhase_eq (f : ℕ) : exactPhase f = BitVec.ofInt 32 ⌊scaled f⌋ := by
  rw [exactPhase, scaled, adcSampleRate, div_mul_eq_mul_div]

/-- The phase increment is exact for exactly the frequencies a `float` holds. -/
theorem freq2Phase_eq_iff {f : ℕ} (hf : f ≤ freqMax.toNat) :
    freq2Phase f = exactPhase f ↔ FitsFloat f := by
  rw [← float_eq_iff hf, exactPhase_eq]
  change BitVec.ofInt 32 ⌊scaled (float f)⌋ = _ ↔ _
  constructor
  · intro hphase
    by_contra hne
    have hlarge : 2 ^ 24 ≤ f := by
      by_contra hsmall
      exact hne (roundSig_natCast_of_lt (not_le.mp hsmall))
    have hint : ∃ m : ℤ, float f = m := exists_int_roundSig hlarge
    obtain ⟨m, hfloat⟩ := hint
    have hf' : (f : ℚ) ≤ 61440000 := by exact_mod_cast hf
    have hupper := (float_bounds hf).2
    have hnonneg := float_nonneg f
    rw [hfloat] at hphase hne hupper hnonneg
    have hapart : (m : ℤ) ≠ f := by
      intro heq
      rw [heq] at hne
      exact hne (by push_cast; rfl)
    rcases lt_or_gt_of_ne hapart with hlt | hgt
    · refine phase_ne hnonneg ?_ ?_ hphase
      · linarith
      · exact_mod_cast hlt
    · refine phase_ne (Nat.cast_nonneg f) ?_ ?_ hphase.symm
      · linarith
      · exact_mod_cast hgt
  · intro hfloat
    rw [hfloat]

/-- Frequencies far enough apart have different phase increments. -/
theorem freq2Phase_ne {f g : ℕ} (hg : g ≤ freqMax.toNat) (h : f + 9 ≤ g) :
    freq2Phase f ≠ freq2Phase g := by
  have hf : f ≤ freqMax.toNat := le_trans (by omega) hg
  have hg' : (g : ℚ) ≤ 61440000 := by exact_mod_cast hg
  have hfg : (f : ℚ) + 9 ≤ g := by exact_mod_cast h
  have hupper := (float_bounds hf).2
  obtain ⟨hlower, hbound⟩ := float_bounds hg
  refine phase_ne (float_nonneg f) ?_ ?_ <;> linarith

theorem double_bounds {q bound : ℚ} (hq : 0 ≤ q) (hbound : q ≤ bound) :
    0 ≤ double q ∧ q - bound / 2 ^ 53 ≤ double q ∧
      double q ≤ q + bound / 2 ^ 53 := by
  have herror := abs_roundSig_sub_le 53 q
  have hscale : q / 2 ^ 53 ≤ bound / 2 ^ 53 := by linarith
  rw [abs_of_nonneg hq, abs_le] at herror
  rw [double]
  refine ⟨?_, ?_, ?_⟩ <;> linarith [herror.1, herror.2]

/-- `Freq2Phase` with every operation rounded to a `double`. -/
def freq2PhaseDouble (freq : ℕ) : BitVec 32 :=
  BitVec.ofInt 32
    ⌊double (double (double (float freq / adcSampleRate) * 2 ^ 30) + 1 / 2)⌋

/-- The distance of an increment before it is cut from the integers below and
above. -/
theorem scaled_intCast_bounds (m : ℤ) :
    ⌊scaled m⌋ + 1 / 3750 ≤ scaled m ∧
      scaled m ≤ ⌊scaled m⌋ + 1 - 1 / 3750 := by
  have hodd : scaled m = ((32768 * m + 1875 : ℤ) : ℚ) / 3750 := by
    rw [scaled_eq]
    push_cast
    ring
  have hlow := Int.floor_le (scaled m)
  have hhigh := Int.lt_floor_add_one (scaled m)
  generalize ⌊scaled m⌋ = k at hlow hhigh ⊢
  rw [hodd] at hlow hhigh ⊢
  rw [le_div_iff₀ (by norm_num)] at hlow
  rw [div_lt_iff₀ (by norm_num)] at hhigh
  have hlow' : k * 3750 ≤ 32768 * m + 1875 := by exact_mod_cast hlow
  have hhigh' : 32768 * m + 1875 < (k + 1) * 3750 := by exact_mod_cast hhigh
  have hnear : k * 3750 + 1 ≤ 32768 * m + 1875 := by omega
  have hfar : 32768 * m + 1875 ≤ (k + 1) * 3750 - 1 := by omega
  have hnear' : (k : ℚ) * 3750 + 1 ≤ ((32768 * m + 1875 : ℤ) : ℚ) := by
    exact_mod_cast hnear
  have hfar' : ((32768 * m + 1875 : ℤ) : ℚ) ≤ (k + 1) * 3750 - 1 := by
    exact_mod_cast hfar
  rw [le_div_iff₀ (by norm_num), div_le_iff₀ (by norm_num)]
  constructor <;> linarith

/-- The `double` operations do not change the phase increment. -/
theorem freq2PhaseDouble_eq {f : ℕ} (hf : f ≤ freqMax.toNat) :
    freq2PhaseDouble f = freq2Phase f := by
  obtain ⟨m, hm⟩ : ∃ m : ℤ, float f = m := by
    by_cases hsmall : f < 2 ^ 24
    · exact ⟨f, by rw [float, roundSig_natCast_of_lt hsmall]; rfl⟩
    · exact exists_int_roundSig (not_lt.mp hsmall)
  have hf' : (f : ℚ) ≤ 61440000 := by exact_mod_cast hf
  have hnonneg := float_nonneg f
  have hupper := (float_bounds hf).2
  rw [hm] at hnonneg hupper
  rw [freq2PhaseDouble, freq2Phase, hm]
  change _ = BitVec.ofInt 32 ⌊scaled m⌋
  obtain ⟨hlow, hhigh⟩ := scaled_intCast_bounds m
  have hscaled : scaled m = m / adcSampleRate * 2 ^ 30 + 1 / 2 := rfl
  have hquot0 : 0 ≤ (m : ℚ) / adcSampleRate :=
    div_nonneg hnonneg (by norm_num [adcSampleRate])
  have hquot1 : (m : ℚ) / adcSampleRate ≤ 1 := by
    rw [adcSampleRate, div_le_one (by norm_num)]
    linarith
  generalize (m : ℚ) / adcSampleRate = a at *
  obtain ⟨hquot, ha, ha'⟩ := double_bounds hquot0 hquot1
  generalize double a = quot at *
  have hprod : quot * 2 ^ 30 ≤ 2 ^ 31 := by linarith
  obtain ⟨hprod0, hb, hb'⟩ := double_bounds (by linarith) hprod
  generalize double (quot * 2 ^ 30) = prod at *
  have hsum : prod + 1 / 2 ≤ 2 ^ 32 := by linarith
  obtain ⟨-, hc, hc'⟩ := double_bounds (by linarith) hsum
  generalize double (prod + 1 / 2) = sum at *
  congr 1
  rw [Int.floor_eq_iff]
  constructor <;> linarith

/-! ## One frame -/

/-- Nothing is changed in the tuning of any channel. -/
structure KeepsTuning (s s' : Ep2) : Prop where
  phases : s'.phases = s.phases
  rxFreq : s'.rxFreq = s.rxFreq
  outputs : ∃ new, s'.outputs = s.outputs ++ new ∧
    ∀ ch phase, Output.rxFreq ch phase ∉ new

namespace KeepsTuning

theorem refl (s : Ep2) : KeepsTuning s s :=
  ⟨rfl, rfl, [], (List.append_nil _).symm, by simp⟩

theorem trans {s s' s'' : Ep2} (h : KeepsTuning s s')
    (h' : KeepsTuning s' s'') : KeepsTuning s s'' := by
  obtain ⟨new, hnew, hnone⟩ := h.outputs
  obtain ⟨new', hnew', hnone'⟩ := h'.outputs
  refine ⟨h'.phases.trans h.phases, h'.rxFreq.trans h.rxFreq, new ++ new',
    ?_, ?_⟩
  · rw [hnew', hnew, List.append_assoc]
  · intro ch phase hmem
    rcases List.mem_append.mp hmem with hmem | hmem
    · exact hnone ch phase hmem
    · exact hnone' ch phase hmem

theorem setAdcReg (s : Ep2) (adc : Byte) :
    KeepsTuning s (s.setAdcReg adc) := by
  simp only [Ep2.setAdcReg]
  split_ifs
  · exact ⟨rfl, rfl, [.rxAdcSet adc], rfl, by simp⟩
  · exact ⟨rfl, rfl, [], (List.append_nil _).symm, by simp⟩

theorem setRxRate (s : Ep2) (rate : BitVec 16) :
    KeepsTuning s (s.setRxRate rate) :=
  ⟨rfl, rfl, [.rxRate rate], rfl, by simp⟩

theorem setAtt (s : Ep2) (att : Byte) : KeepsTuning s (s.setAtt att) := by
  simp only [Ep2.setAtt]
  split_ifs
  · exact ⟨rfl, rfl, [.attValue att], rfl, by simp⟩
  · exact refl s

end KeepsTuning

namespace Ep2

variable {s : Ep2} {frame : ℕ → Byte}

theorem processEp2_keepsTuning (h : ∀ ch, ¬Tunes ch frame) :
    KeepsTuning s (s.processEp2 frame) := by
  by_cases hzero : command frame = 0
  · simp only [processEp2]
    rw [if_pos hzero]
    have hreceivers : KeepsTuning s
        { s with receivers := receiversOf (frame 4) } :=
      ⟨rfl, rfl, [], (List.append_nil _).symm, by simp⟩
    exact (hreceivers.trans (.setAdcReg _ _)).trans (.setRxRate _ _)
  · by_cases hten : command frame = 10
    · simp only [processEp2]
      rw [if_neg hzero, if_neg (by omega), if_pos hten]
      exact .setAtt s _
    · rw [processEp2_of_idle hzero hten h]
      exact .refl s

/-- The cached increments are those in the hardware. -/
def InSync (s : Ep2) : Prop := s.phases = s.rxFreq

theorem tune_phases (s : Ep2) (ch : Channel) (phase : BitVec 32) :
    (s.tune ch phase).phases = Function.update s.phases ch phase := by
  rw [tune]
  split_ifs with h
  · rfl
  · rw [← not_ne_iff.mp h, Function.update_eq_self]

theorem InSync.tune_rxFreq (h : InSync s) (ch : Channel) (phase : BitVec 32) :
    (s.tune ch phase).rxFreq = Function.update s.rxFreq ch phase := by
  rw [tune]
  split_ifs with hne
  · rfl
  · rw [← h, ← not_ne_iff.mp hne, Function.update_eq_self]

theorem InSync.processEp2 (h : InSync s) (frame : ℕ → Byte) :
    InSync (s.processEp2 frame) := by
  by_cases htunes : ∃ ch, Tunes ch frame
  · obtain ⟨ch, hch⟩ := htunes
    rw [processEp2_of_tunes hch, InSync, tune_phases, h.tune_rxFreq, h]
  · have hkeeps := processEp2_keepsTuning (s := s) (not_exists.mp htunes)
    rw [InSync, hkeeps.phases, hkeeps.rxFreq]
    exact h

/-- A channel follows the frames that tune it. -/
theorem phases_processEp2 (s : Ep2) (frame : ℕ → Byte) (ch : Channel) :
    (s.processEp2 frame).phases ch =
      if Tunes ch frame then freq2Phase (requested frame)
      else s.phases ch := by
  by_cases htunes : ∃ ch, Tunes ch frame
  · obtain ⟨ch', hch'⟩ := htunes
    rw [processEp2_of_tunes hch', tune_phases]
    by_cases hsame : ch = ch'
    · subst hsame
      rw [Function.update_self, if_pos hch']
    · rw [Function.update_of_ne hsame, if_neg fun hch => hsame (hch.unique hch')]
  · have hkeeps := processEp2_keepsTuning (s := s) (not_exists.mp htunes)
    rw [hkeeps.phases, if_neg (not_exists.mp htunes ch)]

theorem InSync.rxFreq_processEp2 (h : InSync s) (frame : ℕ → Byte)
    (ch : Channel) :
    (s.processEp2 frame).rxFreq ch =
      if Tunes ch frame then freq2Phase (requested frame)
      else s.rxFreq ch := by
  rw [← h.processEp2 frame, ← h]
  exact phases_processEp2 s frame ch

/-- A channel is written when its increment changes. -/
theorem InSync.outputs_processEp2 (h : InSync s) (frame : ℕ → Byte) :
    ∃ new, (s.processEp2 frame).outputs = s.outputs ++ new ∧
      ∀ ch phase, Output.rxFreq ch phase ∈ new → phase ≠ s.rxFreq ch := by
  by_cases htunes : ∃ ch, Tunes ch frame
  · obtain ⟨ch, hch⟩ := htunes
    rw [processEp2_of_tunes hch, tune]
    split_ifs with hne
    · refine ⟨[.rxFreq ch (freq2Phase (requested frame))], rfl, ?_⟩
      intro ch' phase hmem
      obtain ⟨rfl, rfl⟩ := Output.rxFreq.inj (List.mem_singleton.mp hmem)
      rw [← h]
      exact hne.symm
    · exact ⟨[], (List.append_nil _).symm, by simp⟩
  · have hkeeps := processEp2_keepsTuning (s := s) (not_exists.mp htunes)
    obtain ⟨new, hnew, hnone⟩ := hkeeps.outputs
    exact ⟨new, hnew, fun ch phase hmem => absurd hmem (hnone ch phase)⟩

end Ep2

/-! ## Sequences of frames -/

/-- The last frequency that a channel was tuned to. -/
def lastRequest (ch : Channel) (frames : List (ℕ → Byte)) : ℕ :=
  ((frames.filter fun frame => decide (Tunes ch frame)).getLast?.map
    requested).getD 7100000

/-- The hardware of a channel follows the frames that tune it, exactly, and is
written only to change it. -/
structure FollowsRequests (ch : Channel) (frames : List (ℕ → Byte)) :
    Prop where
  value : (run Ep2.processEp2 Ep2.start frames).rxFreq ch =
    exactPhase (lastRequest ch frames)
  kept : ∀ c ∈ trace Ep2.processEp2 Ep2.start frames,
    ¬Tunes ch c.input →
      (c.state.processEp2 c.input).rxFreq ch = c.state.rxFreq ch
  written : ∀ c ∈ trace Ep2.processEp2 Ep2.start frames,
    ∃ new, (c.state.processEp2 c.input).outputs = c.state.outputs ++ new ∧
      ∀ phase, Output.rxFreq ch phase ∈ new → phase ≠ c.state.rxFreq ch

theorem lastRequest_snoc (ch : Channel) (frames : List (ℕ → Byte))
    (frame : ℕ → Byte) :
    lastRequest ch (frames ++ [frame]) =
      if Tunes ch frame then requested frame else lastRequest ch frames := by
  by_cases h : Tunes ch frame
  · simp [lastRequest, h]
  · simp [lastRequest, h]

theorem lastRequest_le (ch : Channel) (frames : List (ℕ → Byte)) :
    lastRequest ch frames ≤ freqMax.toNat := by
  induction frames using List.reverseRecOn with
  | nil => exact (by decide : 7100000 ≤ freqMax.toNat)
  | append_singleton frames frame ih =>
      rw [lastRequest_snoc]
      split_ifs with h
      · exact h.2.2
      · exact ih

theorem rxFreq_run (ch : Channel) (frames : List (ℕ → Byte)) :
    (run Ep2.processEp2 Ep2.start frames).InSync ∧
      (run Ep2.processEp2 Ep2.start frames).rxFreq ch =
        freq2Phase (lastRequest ch frames) := by
  induction frames using List.reverseRecOn with
  | nil => exact ⟨rfl, rfl⟩
  | append_singleton frames frame ih =>
      obtain ⟨hsync, hvalue⟩ := ih
      rw [run_append]
      refine ⟨hsync.processEp2 frame, ?_⟩
      change ((run Ep2.processEp2 Ep2.start frames).processEp2 frame).rxFreq ch
        = _
      rw [hsync.rxFreq_processEp2, hvalue, lastRequest_snoc]
      split_ifs <;> rfl

theorem FollowsRequests.fits {ch : Channel} {frames : List (ℕ → Byte)}
    (h : FollowsRequests ch frames) : FitsFloat (lastRequest ch frames) := by
  rw [← freq2Phase_eq_iff (lastRequest_le ch frames), ← h.value]
  exact (rxFreq_run ch frames).2.symm

/-- A channel follows its requests exactly when the last of them fits a
`float`. -/
theorem followsRequests_iff (ch : Channel) (frames : List (ℕ → Byte)) :
    FollowsRequests ch frames ↔ FitsFloat (lastRequest ch frames) := by
  constructor
  · intro h
    exact h.fits
  · intro hfits
    have hsync : ∀ c ∈ trace Ep2.processEp2 Ep2.start frames, c.state.InSync :=
      trace_invariant Ep2.InSync (fun _ frame hs => hs.processEp2 frame)
        (rfl : Ep2.start.InSync) frames
    refine ⟨?_, ?_, ?_⟩
    · rw [(rxFreq_run ch frames).2]
      exact (freq2Phase_eq_iff (lastRequest_le ch frames)).mpr hfits
    · intro c hc htunes
      rw [(hsync c hc).rxFreq_processEp2, if_neg htunes]
    · intro c hc
      obtain ⟨new, hnew, hchanged⟩ := (hsync c hc).outputs_processEp2 c.input
      exact ⟨new, hnew, hchanged ch⟩

/-- Receiver 0 is tuned to `2 ^ 24 + 1` Hz. -/
def oddFrame : ℕ → Byte := fun k => [4, 1, 0, 0, 1].getD k 0

theorem not_followsRequests_oddFrame : ¬FollowsRequests 0 [oddFrame] := by
  intro h
  exact absurd h.fits (by decide)

end RedPitayaNotes.SdrReceiverHpsdr
