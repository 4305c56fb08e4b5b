import RedPitayaNotes.Cores.AxisI2s.Bus

/-!
# The transmitter of the axis_i2s core

The second period of a half loads the half word of its channel, and each later
one shifts it.  The shift in the first period of the next half comes before that
one's load, and so the last bit of sixteen is still sent there.
-/

namespace RedPitayaNotes.AxisI2s

open Bits Clocked

/-- The top bit of a register after `n` shifts. -/
def bitAt (v : BitVec 16) (n : ℕ) : Bool := (v <<< n).getLsbD 15

theorem bitAt_eq (v : BitVec 16) {n : ℕ} (h : n < 16) : bitAt v n = v.getLsbD (15 - n) := by
  rw [bitAt, BitVec.getLsbD_shiftLeft]
  simp
  omega

/-- A word whose bits are sent in order from the second period of a half on, and
the last of them perhaps in the next half. -/
theorem wordOf_bitAt (v : BitVec 16) (b : Bool) {n : ℕ} (h : 15 ≤ n) (rest : List Bool) :
    wordOf (b :: (List.range n).map (bitAt v) ++ bitAt v n :: rest) = v := by
  have hrange : b :: (List.range n).map (bitAt v) ++ bitAt v n :: rest =
      b :: ((List.range (n + 1)).map (bitAt v) ++ rest) := by
    rw [List.range_succ, List.map_append, List.append_assoc]
    rfl
  rw [hrange]
  apply BitVec.eq_of_getLsbD_eq
  intro k hk
  rw [getLsbD_wordOf (by simp; omega) hk, List.getD_eq_getElem?_getD]
  obtain ⟨m, hm⟩ : ∃ m, 16 - k = m + 1 := ⟨15 - k, by omega⟩
  rw [hm, List.getElem?_cons_succ, List.getElem?_append_left (by simp; omega),
    List.getElem?_map, List.getElem?_range (by omega), Option.map_some, Option.getD_some,
    bitAt_eq v (by omega)]
  congr 1
  omega

/-! ## The bits of a half -/

/-- The transmitter has shifted the half word `v` by `n`, and waits for the next
turn of `lrclk`. -/
structure Shifted (v : BitVec 16) (n : ℕ) (x : Dac) : Prop where
  case : x.dacCaseReg = 0
  data : x.dacDataReg = v <<< n

section Halves

variable {x : Dac} {v : BitVec 16} {n : ℕ}

/-- The bit sent in the next period that does not load. -/
theorem Shifted.sends (h : Shifted v n x) (l l' : Bool) (offer : Option (BitVec 32)) :
    (x.fall l l' offer).i2sDacData = bitAt v (n + 1) := by
  have htwo : (x.dacCaseReg == 2) = false := by
    rw [h.case]
    rfl
  rw [Dac.i2sDacData, Dac.fall, htwo, h.data]
  dsimp only
  rw [if_neg Bool.false_ne_true, shiftIn_false, bitAt]

theorem Shifted.step (h : Shifted v n x) (l : Bool) :
    Shifted v (n + 1) (x.fall l l none).rise ∧
      (x.fall l l none).rise.dacTdataReg = x.dacTdataReg := by
  have htwo : (x.dacCaseReg == 2) = false := by
    rw [h.case]
    rfl
  refine ⟨⟨?_, ?_⟩, ?_⟩
  · simp [Dac.fall, Dac.rise, h.case]
  · rw [Dac.rise, Dac.fall, htwo, h.data]
    exact shiftIn_false v n
  · simp [Dac.fall, Dac.rise]

/-- Periods without a turn. -/
theorem Shifted.after (h : Shifted v n x) (l : Bool) (m : ℕ) :
    Shifted v (n + m) (x.after l m) ∧ (x.after l m).dacTdataReg = x.dacTdataReg ∧
      x.allBits l m = (List.range' (n + 1) m).map (bitAt v) := by
  induction m generalizing x n with
  | zero => exact ⟨h, rfl, rfl⟩
  | succ m ih =>
      obtain ⟨hstep, hkeep⟩ := h.step l
      obtain ⟨hafter, htdata, hbits⟩ := ih hstep
      rw [Nat.add_assoc, Nat.add_comm 1 m] at hafter
      refine ⟨hafter, htdata.trans hkeep, ?_⟩
      rw [Dac.allBits, hbits, h.sends, List.range'_succ, List.map_cons]

/-- The periods after the first of a half: the next one loads the channel. -/
theorem Dac.after_turn (h : x.dacCaseReg = 2) (l : Bool) (m : ℕ) :
    Shifted (x.channel l) m (x.after l (m + 1)) ∧
      (x.after l (m + 1)).dacTdataReg = x.dacTdataReg ∧
      x.allBits l (m + 1) = (List.range (m + 1)).map (bitAt (x.channel l)) := by
  have hfall : x.fall l l none = ⟨0, x.channel l, x.dacTdataReg⟩ := by
    simp [Dac.fall, h]
  have hload : Shifted (x.channel l) 0 (x.fall l l none).rise := by
    rw [hfall]
    exact ⟨rfl, (BitVec.shiftLeft_zero _).symm⟩
  obtain ⟨hafter, htdata, hbits⟩ := hload.after l m
  rw [Nat.zero_add] at hafter
  refine ⟨hafter, htdata.trans ?_, ?_⟩
  · rw [hfall]
    rfl
  · rw [Dac.allBits, hbits, List.range_eq_range', List.range'_succ, List.map_cons, hfall]
    simp [Dac.i2sDacData, bitAt]

end Halves

/-! ## The halves of a run -/

/-- The bits that the data line carries at the rising edges of a half. -/
def bitsSent (s : State) (l : Bool) (half : Half) : List Bool :=
  (trace next s (half.inputs l)).flatMap sent

/-- The words fetched in a half. -/
def wordsFetched (s : State) (l : Bool) (half : Half) : List (Option (BitVec 32)) :=
  (trace next s (half.inputs l)).flatMap fetched

/-- The transmitter after a half in which `lrclk` was `l`: it waits for the turn,
and may have the last bit of its channel left. -/
structure Sent (l : Bool) (half : Half) (s : State) : Prop where
  sync : ∃ d, s.sync = settled ⟨true, l, d⟩
  dac : Shifted (s.dac.channel l) (half.bits.length - 2) s.dac

theorem sent_half {l : Bool} {s : State} (hsync : ∃ d, s.sync = settled ⟨true, l, d⟩)
    (hcase : s.dac.dacCaseReg = 0) (half : Half) :
    ∃ offer b, wordsFetched s (!l) half = (if l then [offer] else []) ∧
      (run next s (half.inputs !l)).dac.dacTdataReg =
        (if l then offer.getD 0 else s.dac.dacTdataReg) ∧
      Sent (!l) half (run next s (half.inputs !l)) ∧
      bitsSent s (!l) half =
        b :: (List.range (half.bits.length - 1)).map
          (bitAt ((run next s (half.inputs !l)).dac.channel !l)) ∧
      ∀ v n, Shifted v n s.dac → b = bitAt v (n + 1) := by
  obtain ⟨d, hsync⟩ := hsync
  obtain ⟨d', offer, heffect⟩ := effect_half hsync half
  have hlength := half.length_bits
  obtain ⟨m, hm⟩ := Nat.exists_eq_add_of_le' (Nat.le_trans (by decide : 2 ≤ 16) hlength)
  have hone : half.bits.length - 1 = m + 1 := by omega
  have hdac := heffect.dac
  have hsent := heffect.sent
  rw [hone] at hdac hsent
  generalize hx : (s.dac.fall l (!l) offer).rise = x at hdac hsent
  have hturn : x.dacCaseReg = 2 := by
    rw [← hx]
    simp [Dac.fall, Dac.rise, hcase]
  have htdata : x.dacTdataReg = if l then offer.getD 0 else s.dac.dacTdataReg := by
    rw [← hx]
    cases l <;> rfl
  obtain ⟨hafter, hkeep, hbits⟩ := Dac.after_turn hturn (!l) m
  rw [← hdac] at hafter hkeep
  have hchannel : (run next s (half.inputs !l)).dac.channel (!l) = x.channel (!l) := by
    rw [Dac.channel, Dac.channel, hkeep]
  refine ⟨offer, (s.dac.fall l (!l) offer).i2sDacData, heffect.fetched,
    hkeep.trans htdata, ⟨⟨d', heffect.sync⟩, ?_⟩, ?_, ?_⟩
  · rw [hchannel, hm, Nat.add_sub_cancel]
    exact hafter
  · rw [hchannel, hone, ← hbits]
    exact hsent
  · intro v n hshifted
    exact hshifted.sends l (!l) offer

/-- The half after a half that has sent its channel. -/
theorem Sent.half {l : Bool} {s : State} {before : Half} (h : Sent l before s)
    (half : Half) :
    ∃ offer, wordsFetched s (!l) half = (if l then [offer] else []) ∧
      (run next s (half.inputs !l)).dac.dacTdataReg =
        (if l then offer.getD 0 else s.dac.dacTdataReg) ∧
      Sent (!l) half (run next s (half.inputs !l)) ∧
      bitsSent s (!l) half =
        bitAt (s.dac.channel l) (before.bits.length - 1) ::
          (List.range (half.bits.length - 1)).map
            (bitAt ((run next s (half.inputs !l)).dac.channel !l)) := by
  obtain ⟨offer, b, hfetched, htdata, hsent, hbits, hb⟩ := sent_half h.sync h.dac.case half
  have hlength := before.length_bits
  have hlast : before.bits.length - 2 + 1 = before.bits.length - 1 := by omega
  have hfirst := hb _ _ h.dac
  rw [hlast] at hfirst
  rw [hfirst] at hbits
  exact ⟨offer, hfetched, htdata, hsent, hbits⟩

/-! ## The frames of a run -/

theorem waiting_frames {s : State} (h : Sane s) (f : Frame) (fs : List Frame) :
    Waiting true (run next s (f.inputs ++ fs.flatMap Frame.inputs)) := by
  induction fs generalizing s f with
  | nil =>
      rw [List.flatMap_nil, List.append_nil, Frame.inputs, run_append]
      exact waiting_half (h.run (f.left.inputs false)) true f.right
  | cons g fs ih =>
      rw [List.flatMap_cons, run_append]
      exact ih (h.run f.inputs) g

/-- From the second frame on, one word is fetched for each, and its halves are
sent in the halves of the frame, most significant bit first and from their second
period on. -/
theorem transmits (early : List Input) (f₁ : Frame) (fs : List Frame) (f : Frame)
    (after : Half) :
    let s := run next reset (early ++ f₁.inputs ++ fs.flatMap Frame.inputs)
    let s' := run next s (f.left.inputs false)
    let s'' := run next s' (f.right.inputs true)
    ∃ offer, (trace next s f.inputs).flatMap fetched = [offer] ∧
      wordOf (bitsSent s false f.left ++ bitsSent s' true f.right) =
        (offer.getD 0).extractLsb' 16 16 ∧
      wordOf (bitsSent s' true f.right ++ bitsSent s'' false after) =
        (offer.getD 0).extractLsb' 0 16 := by
  intro s s' s''
  have hwaiting : Waiting true s := by
    have hframes := waiting_frames (sane_reset.run early) f₁ fs
    rw [← run_append, ← List.append_assoc] at hframes
    exact hframes
  obtain ⟨offer, b, hfetched, htdata, hleft, hbits, -⟩ :=
    sent_half hwaiting.sync hwaiting.dac f.left
  obtain ⟨_, hfetched', htdata', hright, hbits'⟩ := hleft.half f.right
  obtain ⟨_, -, -, -, hbits''⟩ := hright.half after
  rw [Bool.not_true] at hfetched htdata hbits hfetched' htdata' hbits' hbits''
  rw [Bool.not_false] at hfetched' htdata' hbits' hbits''
  rw [Bool.not_true] at hbits''
  have hchannel : s'.dac.channel false = (offer.getD 0).extractLsb' 16 16 := by
    rw [Dac.channel, htdata]
    rfl
  have hchannel' : s''.dac.channel true = (offer.getD 0).extractLsb' 0 16 := by
    rw [Dac.channel, htdata', htdata]
    rfl
  have hlength := f.left.length_bits
  have hlength' := f.right.length_bits
  refine ⟨offer, ?_, ?_, ?_⟩
  · rw [Frame.inputs, trace_append, List.flatMap_append]
    exact congrArg₂ (· ++ ·) hfetched hfetched'
  · rw [hbits, hbits', ← hchannel]
    exact wordOf_bitAt _ b (by omega) _
  · rw [hbits', hbits'', ← hchannel']
    exact wordOf_bitAt _ _ (by omega) _

end RedPitayaNotes.AxisI2s
