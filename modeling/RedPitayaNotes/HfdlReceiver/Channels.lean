import RedPitayaNotes.HfdlReceiver.Stream

/-!
# The channels of a chunk

A chunk interleaves the samples of the channels, one word each with I in the low
half.  The two copy loops take the same samples of a channel; the loop for
`CU8` narrows both halves to a byte.  The narrowing keeps the order but for the
lowest 256 values, which it takes to the top.
-/

namespace RedPitayaNotes.HfdlReceiver

open Bits Memory

/-- The sample `t` of a channel is the word `channel + 13 * t` of the chunk. -/
def channelSample (buffer : ℕ → BitVec 32) (channel t : ℕ) : BitVec 32 :=
  buffer (channel + 13 * t)

def sampleI (sample : BitVec 32) : BitVec 16 := sample.extractLsb' 0 16

def sampleQ (sample : BitVec 32) : BitVec 16 := sample.extractLsb' 16 16

/-- What the copy loops append for a channel, and the number of bytes. -/
structure Demultiplexed (buffer : ℕ → BitVec 32) (channel : ℕ) : Prop where
  cs16 : ∀ target sendq,
    copyLoop (fun k => Format.cs16.emit buffer k) target channel 0 sendq =
      (store sendq target ((List.range 256).flatMap fun t =>
        wordBytes (channelSample buffer channel t)), 1024)
  cu8 : ∀ target sendq,
    copyLoop (fun k => Format.cu8.emit buffer k) target channel 0 sendq =
      (store sendq target ((List.range 256).flatMap fun t =>
        [toCu8 (sampleI (channelSample buffer channel t)),
          toCu8 (sampleQ (channelSample buffer channel t))]), 512)

/-! ## The samples of a channel -/

theorem halfword_even (buffer : ℕ → BitVec 32) (k : ℕ) :
    halfword buffer (2 * k + 0) = sampleI (buffer k) := by
  rw [halfword, Nat.add_zero, Nat.mul_div_cancel_left _ (by decide),
    Nat.mul_mod_right]
  rfl

theorem halfword_odd (buffer : ℕ → BitVec 32) (k : ℕ) :
    halfword buffer (2 * k + 1) = sampleQ (buffer k) := by
  have hdiv : (2 * k + 1) / 2 = k := by omega
  have hmod : (2 * k + 1) % 2 = 1 := by omega
  rw [halfword, hdiv, hmod]
  rfl

theorem chunk_eq (format : Format) (channel : ℕ) (buffer : ℕ → BitVec 32) :
    chunk format channel buffer =
      (List.range 256).flatMap fun t => format.emit buffer (channel + 13 * t) := by
  have hsamples : List.range' channel 256 numchans =
      (List.range 256).map fun t => channel + 13 * t := by
    apply List.ext_getElem
    · rw [List.length_range', List.length_map, List.length_range]
    · intro t ht ht'
      rw [List.getElem_range', List.getElem_map, List.getElem_range]
      rfl
  rw [chunk, hsamples, List.flatMap_map]

theorem demultiplexed (buffer : ℕ → BitVec 32) {channel : ℕ}
    (hchannel : channel < numchans) : Demultiplexed buffer channel where
  cs16 := by
    intro target sendq
    rw [copyLoop_chunk .cs16 hchannel, chunk_eq]
    rfl
  cu8 := by
    intro target sendq
    rw [copyLoop_chunk .cu8 hchannel, chunk_eq]
    simp only [Format.emit, halfword_even, halfword_odd]
    rfl

/-! ## The narrowing -/

/-- The sum 127 - 128 for the lowest values becomes 255. -/
theorem toNat_toCu8 (x : BitVec 16) :
    ((toCu8 x).toNat : ℤ) =
      if x.toInt < -32512 then 255 else x.toInt / 256 + 127 := by
  have hlow := BitVec.le_toInt x
  have hhigh := BitVec.toInt_lt (x := x)
  have hshift : ((x.signExtend 32).sshiftRight 8).toInt = x.toInt / 256 := by
    rw [BitVec.toInt_sshiftRight, BitVec.toInt_signExtend_of_le (by decide),
      Int.shiftRight_eq_div_pow]
    rfl
  have hsum : ((toCu8 x).toNat : ℤ) = (x.toInt / 256 + 127) % 256 := by
    rw [toCu8, BitVec.toNat_setWidth, BitVec.toNat_add]
    rw [BitVec.toInt_eq_toNat_cond] at hshift
    split at hshift <;> simp only [BitVec.toNat_ofNat] <;> omega
  rw [hsum]
  split <;> omega

/-- Two samples keep their order unless only the smaller one is among the lowest
256 values. -/
theorem toCu8_le_iff {a b : BitVec 16} (h : a.toInt ≤ b.toInt) :
    toCu8 a ≤ toCu8 b ↔ -32512 ≤ a.toInt ∨ b.toInt < -32512 := by
  have ha := toNat_toCu8 a
  have hb := toNat_toCu8 b
  have hhigh := BitVec.toInt_lt (x := b)
  rw [BitVec.le_def]
  split at ha <;> split at hb <;> omega

/-- Both loops take the samples of their channel, each once and in order, and
the narrowing keeps the order of two samples exactly if the smaller one is not
among the lowest 256 values or both are. -/
theorem demultiplexed_order_iff (buffer : ℕ → BitVec 32) {channel : ℕ}
    (hchannel : channel < numchans) :
    Demultiplexed buffer channel ∧
      ∀ a b : BitVec 16, a.toInt ≤ b.toInt →
        (toCu8 a ≤ toCu8 b ↔ -32512 ≤ a.toInt ∨ b.toInt < -32512) :=
  ⟨demultiplexed buffer hchannel, fun _ _ => toCu8_le_iff⟩

theorem demultiplexed_order_iff_last :
    Demultiplexed (fun k => BitVec.ofNat 32 k) 12 ∧
      (toCu8 (-32513) ≤ toCu8 (-32512) ↔
        (-32512 : ℤ) ≤ (-32513 : BitVec 16).toInt ∨
          (-32512 : BitVec 16).toInt < (-32512 : ℤ)) := by
  obtain ⟨hdemultiplexed, horder⟩ :=
    demultiplexed_order_iff (fun k => BitVec.ofNat 32 k)
      (show 12 < numchans by decide)
  exact ⟨hdemultiplexed, horder _ _ (by decide)⟩

/-- Full negative scale becomes 255 and zero 127. -/
theorem not_toCu8_monotone :
    ¬∀ a b : BitVec 16, a.toInt ≤ b.toInt → toCu8 a ≤ toCu8 b :=
  fun h => absurd (h (-32768) 0 (by decide)) (by decide)

end RedPitayaNotes.HfdlReceiver
