import RedPitayaNotes.Cores.AxisI2s.Bus
import RedPitayaNotes.Support.Counters

/-!
# The receiver of the axis_i2s core

The bits of a half are collected from its second period on, up to sixteen of
them, and the first period of the next half may bring the last.  The word is
loaded in the second period of the next half, whether the bits have been complete
for long or for one period only.
-/

namespace RedPitayaNotes.AxisI2s

open Bits Clocked Counters

/-! ## The words on the bus -/

/-- The two words of a frame, of which the last bit is in the first period of the
frame after it. -/
def Frame.word (f g : Frame) : BitVec 32 :=
  wordOf (f.left.bits ++ f.right.bits) ++ wordOf (f.right.bits ++ g.left.bits)

/-- The words of the frames that have another one after them. -/
def words : Frame → List Frame → List (BitVec 32)
  | _, [] => []
  | f, g :: fs => f.word g :: words g fs

/-! ## The bits of a half -/

theorem wordBits_snoc {bits : List Bool} (h : bits ≠ []) (d : Bool) :
    wordBits (bits ++ [d]) =
      if (wordBits bits).length < 16 then wordBits bits ++ [d] else wordBits bits := by
  obtain ⟨b, bits, rfl⟩ := List.exists_cons_of_ne_nil h
  rw [length_wordBits]
  unfold wordBits
  rw [List.cons_append, List.drop_succ_cons, List.drop_succ_cons, List.drop_zero,
    List.drop_zero, List.length_cons, Nat.add_sub_cancel]
  split
  · rw [List.take_of_length_le (by simp; omega), List.take_of_length_le (by omega)]
  · rw [List.take_append_of_le_length (by omega)]

theorem wordBits_append {bits : List Bool} (h : 17 ≤ bits.length) (rest : List Bool) :
    wordBits (bits ++ rest) = wordBits bits := by
  unfold wordBits
  rw [List.drop_append_of_le_length (by omega),
    List.take_append_of_le_length (by rw [List.length_drop]; omega)]

theorem foldl_wordBits {bits : List Bool} (h : 17 ≤ bits.length) (x : BitVec 16) :
    (wordBits bits).foldl shiftIn x = wordOf bits := by
  have hlength : (wordBits bits).length = 16 := by
    rw [length_wordBits]
    omega
  apply BitVec.eq_of_getLsbD_eq
  intro k hk
  rw [getLsbD_foldl_shiftIn _ x hk (by omega)]
  rw [getLsbD_wordOf h hk, List.getD_eq_getElem?_getD, List.getElem?_eq_getElem (by omega),
    Option.getD_some]
  simp only [hlength]
  unfold wordBits
  rw [List.getElem_take, List.getElem_drop]
  congr 1
  omega

/-- The receiver has seen `bits` since the turn, and waits for the next. -/
structure Collecting (bits : List Bool) (a : Adc) : Prop where
  case : a.adcCaseReg = 0
  count : a.adcCntrReg.toNat = (wordBits bits).length
  data : ∃ x, a.adcDataReg = (wordBits bits).foldl shiftIn x

section Halves

variable {a : Adc} {bits : List Bool}

/-- What a rising edge does to the bits, also if it is the first of the next
half. -/
theorem Collecting.data_rise (h : Collecting bits a) (hbits : bits ≠ []) (d : Bool) :
    ∃ x, (a.rise d).adcDataReg = (wordBits (bits ++ [d])).foldl shiftIn x := by
  obtain ⟨x, hdata⟩ := h.data
  refine ⟨x, ?_⟩
  have hlt : a.adcCntrReg < 16 ↔ (wordBits bits).length < 16 := by
    rw [← h.count]
    exact Iff.rfl
  rw [wordBits_snoc hbits, Adc.rise, hdata]
  dsimp only
  simp only [hlt]
  split
  · rw [List.foldl_append]
    rfl
  · rfl

theorem Collecting.count_rise (h : Collecting bits a) (hbits : bits ≠ []) (d : Bool) :
    (a.rise d).adcCntrReg.toNat = (wordBits (bits ++ [d])).length := by
  have hlt : a.adcCntrReg < 16 ↔ (wordBits bits).length < 16 := by
    rw [← h.count]
    exact Iff.rfl
  have hone : (a.adcCaseReg == 1) = false := by
    rw [h.case]
    rfl
  rw [wordBits_snoc hbits, Adc.rise, hone]
  dsimp only
  simp only [hlt, Bool.false_eq_true, if_false]
  split
  next hcount =>
    rw [toNat_add_one_of_lt (BitVec.lt_def.mp (hlt.mpr hcount)), h.count,
      List.length_append, List.length_singleton]
  next => exact h.count

theorem Collecting.step (h : Collecting bits a) (hbits : bits ≠ []) (d : Bool) :
    Collecting (bits ++ [d]) ((a.fall false).rise d) := by
  have hfall : a.fall false = a := by
    rw [Adc.fall, Bool.and_false]
    rfl
  rw [hfall]
  refine ⟨?_, h.count_rise hbits d, h.data_rise hbits d⟩
  rw [Adc.rise, h.case]
  rfl

theorem Adc.words_of_case (h : a.adcCaseReg = 0) (l : Bool) : a.words false l = [] := by
  rw [Adc.words, Adc.fall, h]
  rfl

/-- Periods without a turn. -/
theorem Collecting.after (h : Collecting bits a) (hbits : bits ≠ []) (l : Bool)
    (rest : List Bool) :
    Collecting (bits ++ rest) (a.after false rest) ∧
      (a.after false rest).adcTdataReg = a.adcTdataReg ∧ a.allWords l false rest = [] := by
  induction rest generalizing a bits with
  | nil =>
      rw [List.append_nil]
      exact ⟨h, rfl, rfl⟩
  | cons d rest ih =>
      have hstep := h.step hbits d
      obtain ⟨hafter, htdata, hwords⟩ := ih hstep (by simp)
      have hkeep : ((a.fall false).rise d).adcTdataReg = a.adcTdataReg := by
        simp [Adc.rise, Adc.fall, h.case]
      rw [List.append_assoc, List.singleton_append] at hafter
      refine ⟨hafter, htdata.trans hkeep, ?_⟩
      rw [Adc.allWords, Adc.words_of_case h.case, hwords]
      rfl

/-- A half: its second period loads what the first one completed. -/
theorem Adc.after_turn (h : a.adcCaseReg = 0) (l d d' : Bool) (rest : List Bool) :
    Collecting (d :: d' :: rest) (a.after true (d :: d' :: rest)) ∧
      (a.after true (d :: d' :: rest)).adcTdataReg =
        a.adcTdataReg.extractLsb' 0 16 ++ (a.rise d).adcDataReg ∧
      a.allWords l true (d :: d' :: rest) =
        [(l, a.adcTdataReg.extractLsb' 0 16 ++ (a.rise d).adcDataReg)] := by
  have hfirst : (a.fall true).rise d =
      ⟨2, 0, (a.rise d).adcDataReg, a.adcTdataReg⟩ := by
    simp [Adc.fall, Adc.rise, h]
  have hsecond : (((a.fall true).rise d).fall false).rise d' =
      ⟨0, 1, shiftIn (a.rise d).adcDataReg d',
        a.adcTdataReg.extractLsb' 0 16 ++ (a.rise d).adcDataReg⟩ := by
    rw [hfirst]
    rfl
  have hcollecting : Collecting [d, d'] ((((a.fall true).rise d).fall false).rise d') := by
    rw [hsecond]
    exact ⟨rfl, rfl, (a.rise d).adcDataReg, rfl⟩
  obtain ⟨hafter, htdata, hwords⟩ := hcollecting.after (by simp) l rest
  rw [Adc.after, Adc.after]
  refine ⟨hafter, ?_, ?_⟩
  · rw [htdata, hsecond]
  · rw [Adc.allWords, Adc.allWords, hwords, Adc.words, Adc.words, hfirst]
    simp [Adc.fall, h, Adc.word]

/-- The first period of the next half completes the word. -/
theorem Collecting.complete (h : Collecting bits a) (hbits : 16 ≤ bits.length) (d : Bool)
    (rest : List Bool) : (a.rise d).adcDataReg = wordOf (bits ++ d :: rest) := by
  have hne : bits ≠ [] := by
    rintro rfl
    cases hbits
  have hlength : 17 ≤ (bits ++ [d]).length := by
    rw [List.length_append, List.length_singleton]
    omega
  obtain ⟨x, hdata⟩ := h.data_rise hne d
  have hlonger : bits ++ d :: rest = (bits ++ [d]) ++ rest := by
    rw [List.append_assoc, List.singleton_append]
  rw [hdata, ← wordBits_append hlength rest, ← hlonger, foldl_wordBits (by simp; omega)]

end Halves

/-! ## The halves of a run -/

/-- The receiver after a half in which `lrclk` was `l`. -/
structure Heard (l : Bool) (half : Half) (s : State) : Prop where
  sync : ∃ d, s.sync = settled ⟨true, l, d⟩
  adc : Collecting half.bits s.adc

/-- The word that the next half loads. -/
def Loads (l : Bool) (s : State) (inputs : List Input) (word : BitVec 16) : Prop :=
  (run next s inputs).adc.adcTdataReg = s.adc.adcTdataReg.extractLsb' 0 16 ++ word ∧
    (trace next s inputs).flatMap captured =
      [(l, s.adc.adcTdataReg.extractLsb' 0 16 ++ word)]

theorem Half.exists_bits (half : Half) : ∃ d d' rest, half.bits = d :: d' :: rest := by
  match half.bits, half.length_bits with
  | d :: d' :: rest, _ => exact ⟨d, d', rest, rfl⟩

theorem heard_half {l : Bool} {s : State} (hsync : ∃ d, s.sync = settled ⟨true, l, d⟩)
    (hcase : s.adc.adcCaseReg = 0) (half : Half) :
    Heard (!l) half (run next s (half.inputs !l)) ∧
      ∃ word, Loads (!l) s (half.inputs !l) word ∧
        ∀ before : Half, Collecting before.bits s.adc →
          word = wordOf (before.bits ++ half.bits) := by
  obtain ⟨d₀, hsync⟩ := hsync
  obtain ⟨d₁, offer, heffect⟩ := effect_half hsync half
  obtain ⟨d, d', rest, hbits⟩ := half.exists_bits
  obtain ⟨hafter, htdata, hwords⟩ := Adc.after_turn hcase (!l) d d' rest
  rw [← hbits, ← heffect.adc] at hafter htdata
  rw [← hbits, ← heffect.captured] at hwords
  refine ⟨⟨⟨d₁, heffect.sync⟩, hafter⟩, (s.adc.rise d).adcDataReg, ⟨htdata, hwords⟩, ?_⟩
  intro before hbefore
  rw [hbits]
  exact hbefore.complete before.length_bits d (d' :: rest)

theorem Heard.half {l : Bool} {s : State} {before : Half} (h : Heard l before s)
    (half : Half) :
    Heard (!l) half (run next s (half.inputs !l)) ∧
      Loads (!l) s (half.inputs !l) (wordOf (before.bits ++ half.bits)) := by
  obtain ⟨hheard, word, hloads, hword⟩ := heard_half h.sync h.adc.case half
  rw [hword before h.adc] at hloads
  exact ⟨hheard, hloads⟩

/-! ## The frames of a run -/

/-- The receiver after the frame `f`: the word of its left half is loaded and
nothing is on offer. -/
structure Received (f : Frame) (left : BitVec 16) (s : State) : Prop where
  heard : Heard true f.right s
  left : s.adc.adcTdataReg.extractLsb' 0 16 = left
  tvalid : s.adcTvalidReg = false

theorem loaded_of_captured (cycles : List (Cycle State Input)) :
    cycles.flatMap loaded =
      (cycles.flatMap captured).filterMap fun x => if x.1 then none else some x.2 :=
  List.filterMap_flatMap.symm

/-- The right half. -/
theorem Heard.right {s : State} {before : Half} (h : Heard false before s) (half : Half) :
    Heard true half (run next s (half.inputs true)) ∧
      (run next s (half.inputs true)).adc.adcTdataReg.extractLsb' 0 16 =
        wordOf (before.bits ++ half.bits) ∧
      (run next s (half.inputs true)).adcTvalidReg = false ∧
      (trace next s (half.inputs true)).flatMap loaded = [] := by
  obtain ⟨hheard, htdata, hcaptured⟩ := h.half half
  rw [Bool.not_false] at hheard htdata hcaptured
  refine ⟨hheard, ?_, ?_, ?_⟩
  · rw [htdata]
    exact BitVec.extractLsb'_append_eq_right
  · apply tvalid_of_captured
    · rw [hcaptured]
      rfl
    · rfl
  · rw [loaded_of_captured, hcaptured]
    rfl

theorem Received.frame {f : Frame} {left : BitVec 16} {s : State} (h : Received f left s)
    (g : Frame) :
    Received g (wordOf (g.left.bits ++ g.right.bits)) (run next s g.inputs) ∧
      (trace next s g.inputs).flatMap loaded =
        [left ++ wordOf (f.right.bits ++ g.left.bits)] := by
  obtain ⟨hheard, -, hcaptured⟩ := h.heard.half g.left
  rw [Bool.not_true] at hheard hcaptured
  obtain ⟨hright, hword, htvalid, hloaded⟩ := hheard.right g.right
  rw [Frame.inputs, run_append, trace_append, List.flatMap_append, hloaded,
    loaded_of_captured, hcaptured, h.left]
  exact ⟨⟨hright, hword, htvalid⟩, rfl⟩

/-- The first frame. -/
theorem received_first {s : State} (h : Sane s) (f : Frame) :
    ∃ left, Received f left (run next s f.inputs) := by
  have hwaiting := waiting_half h false f.left
  obtain ⟨hheard, word, ⟨htdata, hcaptured⟩, -⟩ :=
    heard_half hwaiting.sync hwaiting.adc f.right
  rw [Bool.not_false] at hheard htdata hcaptured
  rw [Frame.inputs, run_append]
  refine ⟨_, hheard, rfl, ?_⟩
  apply tvalid_of_captured
  · rw [hcaptured]
    rfl
  · rfl

theorem received_frames {f : Frame} {s : State}
    (h : Received f (wordOf (f.left.bits ++ f.right.bits)) s) (fs : List Frame) :
    (trace next s (fs.flatMap Frame.inputs)).flatMap loaded = words f fs ∧
      (run next s (fs.flatMap Frame.inputs)).adcTvalidReg = false := by
  induction fs generalizing f s with
  | nil => exact ⟨rfl, h.tvalid⟩
  | cons g fs ih =>
      obtain ⟨hreceived, hloaded⟩ := h.frame g
      obtain ⟨hwords, htvalid⟩ := ih hreceived
      rw [List.flatMap_cons, run_append, trace_append, List.flatMap_append, hloaded, hwords]
      exact ⟨rfl, htvalid⟩

/-- From the second frame on, one word is transferred for each: the two words
sent in it.  Its last bit is in the first period of the next frame, after which
it is transferred. -/
theorem receives (early : List Input) (f₁ f₂ : Frame) (fs : List Frame)
    (hprompt : ∀ c ∈ trace next (run next reset (early ++ f₁.inputs ++ f₂.inputs))
      (fs.flatMap Frame.inputs), Prompt c) :
    (trace next (run next reset (early ++ f₁.inputs ++ f₂.inputs))
      (fs.flatMap Frame.inputs)).flatMap transferred = words f₂ fs := by
  rw [run_append, run_append] at hprompt ⊢
  obtain ⟨left, hfirst⟩ := received_first (sane_reset.run early) f₁
  obtain ⟨hsecond, -⟩ := hfirst.frame f₂
  obtain ⟨hloaded, htvalid⟩ := received_frames hsecond fs
  have hrun := offered_run hprompt
  have hempty : ∀ {s : State}, s.adcTvalidReg = false → offered s = [] := by
    intro s h
    rw [offered, h]
    rfl
  rw [hempty hsecond.tvalid, hempty htvalid, hloaded, List.append_nil] at hrun
  exact hrun.symm

/-- With a consumer that is always ready: every left half is low and every right
half is high. -/
theorem receives_ready :
    let ready : Ports := ⟨0, 0, false, true⟩
    let half : Bool → Half := fun d =>
      ⟨List.replicate 16
        ⟨d, List.replicate 4 ready, List.replicate 4 ready, by decide, by decide⟩, by simp⟩
    let frame : Frame := ⟨half false, half true⟩
    (trace next (run next reset ([] ++ frame.inputs ++ frame.inputs))
      ([frame, frame].flatMap Frame.inputs)).flatMap transferred =
        [0x0001fffe, 0x0001fffe] := by
  intro ready half frame
  have hready : ∀ i ∈ [frame, frame].flatMap Frame.inputs, i.ports.mAxisTready = true := by
    simp only [List.forall_mem_flatMap, List.forall_mem_append, List.forall_mem_cons,
      List.forall_mem_map, List.forall_mem_replicate, Frame.inputs, Half.inputs,
      Period.inputs, level, frame, half, ready]
    simp
  rw [receives [] frame frame [frame, frame]]
  · decide
  · intro c hc _ _
    exact forall_trace_input next _ hready c hc

end RedPitayaNotes.AxisI2s
