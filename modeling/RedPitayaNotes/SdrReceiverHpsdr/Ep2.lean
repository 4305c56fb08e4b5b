import RedPitayaNotes.SdrReceiverHpsdr.Ep6
import RedPitayaNotes.Support.Rounding

/-!
# The EP2 commands of the HPSDR server

`process_ep2` of `sdr-receiver-hpsdr.c` takes one command from a frame and sets
the registers it names.  Commands 2 to 8 tune a channel: a frequency becomes a
phase increment, which is written to the hardware when it differs from the one
cached in `phases`.
-/

namespace RedPitayaNotes.SdrReceiverHpsdr

open Bits Rounding

/-- `NUM_CHANNELS` -/
abbrev Channel := Fin 6

def freqMin : BitVec 32 := 1000

/-- `ADC_SAMPLE_RATE / 2` -/
def freqMax : BitVec 32 := 61440000

/-- `ADC_SAMPLE_RATE` -/
def adcSampleRate : ℚ := 122880000

/-- `Freq2Phase`, with the conversion to `float` rounded and the rest exact. -/
def freq2Phase (freq : ℕ) : BitVec 32 :=
  BitVec.ofInt 32 ⌊float freq / adcSampleRate * 2 ^ 30 + 1 / 2⌋

/-- The registers that commands set. -/
structure Registers where
  receivers : Receivers
  adcReg : Byte
  rxRate : BitVec 16
  phases : Channel → BitVec 32
  rxFreq : Channel → BitVec 32
  attPrev : Byte

/-- What `process_ep2` hands to the hardware. -/
inductive Output where
  | rxFreq (ch : Channel) (phase : BitVec 32)
  | rxRate (rate : BitVec 16)
  | rxAdcSet (adc : Byte)
  | attValue (att : Byte)

/-- The registers, the cached `adc_reg_tmp`, and the outputs so far. -/
structure Ep2 extends Registers where
  adcRegTmp : Byte
  outputs : List Output

/-- The word at `frame + k`, as it is in memory. -/
def word (frame : ℕ → Byte) (k : ℕ) : BitVec 32 :=
  frame (k + 3) ++ frame (k + 2) ++ frame (k + 1) ++ frame k

def ntohl (w : BitVec 32) : BitVec 32 := htonl w

/-- `frame[0] >> 1` -/
def command (frame : ℕ → Byte) : ℕ := (frame 0 >>> 1).toNat

namespace Ep2

/-- After the set-up in `main`; 7100000 is `7.1 * MHZ`. -/
def start : Ep2 where
  receivers := ⟨1, by decide, by decide⟩
  adcReg := 0
  rxRate := 1280
  phases _ := freq2Phase 7100000
  rxFreq _ := freq2Phase 7100000
  attPrev := 0
  adcRegTmp := 0
  outputs := []

variable (s : Ep2)

/-- The assignments of `process_change_freq`. -/
def tune (ch : Channel) (phase : BitVec 32) : Ep2 :=
  if s.phases ch ≠ phase then
    { s with
      phases := Function.update s.phases ch phase
      rxFreq := Function.update s.rxFreq ch phase
      outputs := s.outputs ++ [.rxFreq ch phase] }
  else s

def processChangeFreq (ch : ℕ) (data : BitVec 32) : Ep2 :=
  if h : ch < 6 then
    let freq := ntohl data
    if freq < freqMin ∨ freqMax < freq then s
    else s.tune ⟨ch, h⟩ (freq2Phase freq.toNat)
  else s

def setAdcReg (adc : Byte) : Ep2 :=
  let s := { s with adcReg := adc }
  if adc ≠ s.adcRegTmp then
    { s with adcRegTmp := adc, outputs := s.outputs ++ [.rxAdcSet adc] }
  else s

def setRxRate (rate : BitVec 16) : Ep2 :=
  { s with rxRate := rate, outputs := s.outputs ++ [.rxRate rate] }

/-- The sample rate selected by `frame[1] & 3`. -/
def rate (select : Byte) : BitVec 16 :=
  if select = 0 then 1280
  else if select = 1 then 640
  else if select = 2 then 320
  else 160

/-- The attenuation in `frame[4]`, in its present and in its old format. -/
def attCal (c4 : Byte) : Byte :=
  if c4 &&& 0x40 ≠ 0 then c4 &&& 0x3f
  else if c4 &&& 0x20 ≠ 0 then (c4 &&& 0x1f) * 2
  else 0

def setAtt (att : Byte) : Ep2 :=
  if att ≠ s.attPrev then
    { s with attPrev := att, outputs := s.outputs ++ [.attValue att] }
  else s

def processEp2 (frame : ℕ → Byte) : Ep2 :=
  let c := command frame
  if c = 0 then
    let s := { s with receivers := receiversOf (frame 4) }
    let s := s.setAdcReg ((frame 3 >>> 2) &&& 3)
    s.setRxRate (rate (frame 1 &&& 3))
  else if 2 ≤ c ∧ c ≤ 8 then
    s.processChangeFreq (c - 2) (word frame 1)
  else if c = 10 then s.setAtt (attCal (frame 4))
  else s

end Ep2

/-! ## Requested frequencies -/

/-- The frequency in a tuning frame, high byte first. -/
def requested (frame : ℕ → Byte) : ℕ := (ntohl (word frame 1)).toNat

/-- The frame tunes the channel to a frequency in range. -/
def Tunes (ch : Channel) (frame : ℕ → Byte) : Prop :=
  command frame = ch + 2 ∧ freqMin.toNat ≤ requested frame ∧
    requested frame ≤ freqMax.toNat

instance (ch : Channel) (frame : ℕ → Byte) : Decidable (Tunes ch frame) :=
  inferInstanceAs (Decidable (_ ∧ _))

theorem toNat_word (frame : ℕ → Byte) (k : ℕ) :
    (word frame k).toNat =
      (frame (k + 3)).toNat * 2 ^ 24 + (frame (k + 2)).toNat * 2 ^ 16 +
        (frame (k + 1)).toNat * 2 ^ 8 + (frame k).toNat := by
  change (frame (k + 3) ++ frame (k + 2) ++ frame (k + 1) ++ frame k).toNat = _
  rw [toNat_append_eq_add, toNat_append_eq_add, toNat_append_eq_add]
  omega

theorem eq_bytes {n : ℕ} (h : n < 2 ^ 32) :
    n = n / 2 ^ 24 % 2 ^ 8 * 2 ^ 24 + n / 2 ^ 16 % 2 ^ 8 * 2 ^ 16 +
      n / 2 ^ 8 % 2 ^ 8 * 2 ^ 8 + n % 2 ^ 8 := by
  have h16 : n / 2 ^ 16 = n / 2 ^ 8 / 2 ^ 8 := by
    rw [Nat.div_div_eq_div_mul, ← Nat.pow_add]
  have h24 : n / 2 ^ 24 = n / 2 ^ 8 / 2 ^ 8 / 2 ^ 8 := by
    rw [Nat.div_div_eq_div_mul, Nat.div_div_eq_div_mul, ← Nat.pow_add,
      ← Nat.pow_add]
  omega

/-- Reversing the bytes of a word. -/
theorem toNat_ntohl (w : BitVec 32) :
    (ntohl w).toNat = w.toNat % 2 ^ 8 * 2 ^ 24 +
      w.toNat / 2 ^ 8 % 2 ^ 8 * 2 ^ 16 + w.toNat / 2 ^ 16 % 2 ^ 8 * 2 ^ 8 +
        w.toNat / 2 ^ 24 % 2 ^ 8 := by
  have hswap := wordBytes_swap w
  simp only [wordBytes, List.cons.injEq, ← BitVec.toNat_inj,
    BitVec.extractLsb'_toNat, Nat.shiftRight_eq_div_pow, Nat.pow_zero,
    Nat.div_one] at hswap
  obtain ⟨h0, h8, h16, h24, -⟩ := hswap
  rw [ntohl, eq_bytes (htonl w).isLt, h24, h16, h8, h0]

theorem requested_eq (frame : ℕ → Byte) :
    requested frame = (frame 1).toNat * 2 ^ 24 + (frame 2).toNat * 2 ^ 16 +
      (frame 3).toNat * 2 ^ 8 + (frame 4).toNat := by
  have h1 := (frame 1).isLt
  have h2 := (frame 2).isLt
  have h3 := (frame 3).isLt
  have h4 := (frame 4).isLt
  have hword := toNat_word frame 1
  rw [requested, toNat_ntohl]
  simp only [Nat.reduceAdd] at hword
  omega

/-! ## One frame -/

theorem Tunes.unique {ch ch' : Channel} {frame : ℕ → Byte}
    (h : Tunes ch frame) (h' : Tunes ch' frame) : ch = ch' := by
  apply Fin.ext
  have hsame : (ch : ℕ) + 2 = ch' + 2 := h.1.symm.trans h'.1
  omega

namespace Ep2

variable {s : Ep2} {frame : ℕ → Byte}

theorem processEp2_of_tunes {ch : Channel} (h : Tunes ch frame) :
    s.processEp2 frame = s.tune ch (freq2Phase (requested frame)) := by
  obtain ⟨hcommand, hmin, hmax⟩ := h
  have hch : command frame - 2 = ch := by omega
  have hlt : command frame - 2 < 6 := by omega
  have hrange : ¬(ntohl (word frame 1) < freqMin ∨
      freqMax < ntohl (word frame 1)) := by
    rw [BitVec.lt_def, BitVec.lt_def]
    rw [requested] at hmin hmax
    omega
  simp only [processEp2]
  rw [if_neg (by omega), if_pos (by omega), processChangeFreq, dif_pos hlt]
  simp only [if_neg hrange, hch]
  rfl

/-- A frame that tunes no channel is ignored, but for the commands 0 and 10. -/
theorem processEp2_of_idle (hzero : command frame ≠ 0)
    (hten : command frame ≠ 10) (h : ∀ ch, ¬Tunes ch frame) :
    s.processEp2 frame = s := by
  simp only [processEp2]
  rw [if_neg hzero, if_neg hten]
  split_ifs with hcommand
  · rw [processChangeFreq]
    split_ifs with hch
    · simp only
      rw [if_pos]
      by_contra hrange
      refine h ⟨command frame - 2, hch⟩ ⟨?_, ?_, ?_⟩
      · change command frame = command frame - 2 + 2
        omega
      all_goals
        rw [BitVec.lt_def, BitVec.lt_def] at hrange
        rw [requested]
        omega
    · rfl
  · rfl

end Ep2

end RedPitayaNotes.SdrReceiverHpsdr
