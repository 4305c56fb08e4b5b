import RedPitayaNotes.Support.Bits
import RedPitayaNotes.Support.Clocked
import RedPitayaNotes.Support.Counters
import RedPitayaNotes.Support.Elastic

/-!
# The axis_alex core

`cores/axis_alex.v` sends the low 16 bits of each word to a shift register and
then loads it into the output register that bits 16 and 17 name.  The lines are
decoded from a counter: the clock is high in the second half of each of the first
16 blocks of 128 cycles and the load lines in the second half of the next one.
-/

namespace RedPitayaNotes.AxisAlex

open Bits Clocked Elastic Counters

structure Core where
  intDataReg : BitVec 16
  intCntrReg : BitVec 12
  intLoadReg : BitVec 2
  intEnblReg : Bool
  intTreadyReg : Bool

structure Input where
  sAxisTdata : BitVec 32
  sAxisTvalid : Bool

/-- `alex_data`, from bit 0 to bit 3. -/
structure Lines where
  data : Bool
  clock : Bool
  loadA : Bool
  loadB : Bool
deriving DecidableEq

namespace Core

variable (s : Core) (i : Input)

def captures : Bool := i.sAxisTvalid && !s.intEnblReg

/-- `&int_cntr_reg[6:0]` -/
def shifts : Bool := s.intCntrReg.extractLsb' 0 7 == BitVec.allOnes 7

/-- `int_cntr_reg[7] & int_cntr_reg[11]` -/
def done : Bool := s.intCntrReg.getLsbD 7 && s.intCntrReg.getLsbD 11

def alexData : Lines where
  data := s.intDataReg.getLsbD 15
  clock := s.intCntrReg.getLsbD 6 && !s.intCntrReg.getLsbD 11
  loadA := s.intLoadReg.getLsbD 0 && s.intCntrReg.getLsbD 6 && s.intCntrReg.getLsbD 11
  loadB := s.intLoadReg.getLsbD 1 && s.intCntrReg.getLsbD 6 && s.intCntrReg.getLsbD 11

/-- Of two assignments to a register the later one counts. -/
def step (aresetn : Bool) : Core where
  intDataReg :=
    if !aresetn then 0
    else if s.shifts then s.intDataReg <<< 1
    else if s.captures i then i.sAxisTdata.extractLsb' 0 16
    else s.intDataReg
  intCntrReg :=
    if !aresetn then 0
    else if s.done then 0
    else if s.intEnblReg then s.intCntrReg + 1
    else s.intCntrReg
  intLoadReg :=
    if !aresetn then 0
    else if s.done then 0
    else if s.captures i then i.sAxisTdata.extractLsb' 16 2
    else s.intLoadReg
  intEnblReg :=
    if !aresetn then false
    else if s.done then false
    else if s.captures i then true
    else s.intEnblReg
  intTreadyReg :=
    if !aresetn then false
    else if s.intTreadyReg then false
    else if s.captures i then true
    else s.intTreadyReg

end Core

/-- The registers after an edge in reset. -/
def reset : Core := ⟨0, 0, 0, false, false⟩

theorem step_reset (s : Core) (i : Input) : s.step i false = reset := rfl

/-! ## The receiver -/

/-- What a receiver sees: a bit, as the data line has it before and after the
edge, or a load of the last 16 bits. -/
inductive Event where
  | bit (before after : Bool)
  | latchA (word : BitVec 16)
  | latchB (word : BitVec 16)
deriving DecidableEq

/-- A shift register on the lines, with the levels of the cycle before. -/
structure Receiver where
  lines : Lines
  shift : BitVec 16

namespace Receiver

variable (r : Receiver) (alexData : Lines)

def events : List Event :=
  (if !r.lines.clock && alexData.clock then
    [.bit r.lines.data alexData.data] else []) ++
  (if !r.lines.loadA && alexData.loadA then [.latchA r.shift] else []) ++
  if !r.lines.loadB && alexData.loadB then [.latchB r.shift] else []

def step : Receiver where
  lines := alexData
  shift :=
    if !r.lines.clock && alexData.clock then
      shiftIn r.shift alexData.data
    else r.shift

end Receiver

structure State where
  core : Core
  receiver : Receiver

def next (s : State) (i : Input) : State where
  core := s.core.step i true
  receiver := s.receiver.step s.core.alexData

/-- The words accepted on `s_axis`. -/
def accepted (c : Cycle State Input) : List (BitVec 32) :=
  transfer c.input.sAxisTvalid c.state.core.intTreadyReg c.input.sAxisTdata

def events (c : Cycle State Input) : List Event :=
  c.state.receiver.events c.state.core.alexData

/-- The loads at the end of a word. -/
def latches (x : BitVec 32) : List Event :=
  (if x.getLsbD 16 then [.latchA (x.extractLsb' 0 16)] else []) ++
    if x.getLsbD 17 then [.latchB (x.extractLsb' 0 16)] else []

/-- Bits 15 to 0 of a word and the loads. -/
def wordSlots (x : BitVec 32) : List (List Event) :=
  ((List.range 16).map fun k => [.bit (x.getLsbD (15 - k)) (x.getLsbD (15 - k))]) ++
    [latches x]

def wordEvents (x : BitVec 32) : List Event := (wordSlots x).flatten

theorem wordSlots_getD (x : BitVec 32) {k : ℕ} (hk : k < 16) :
    (wordSlots x).getD k [] = [.bit (x.getLsbD (15 - k)) (x.getLsbD (15 - k))] := by
  rw [wordSlots, List.getD_eq_getElem?_getD, List.getElem?_append_left (by simpa),
    List.getElem?_map, List.getElem?_range hk]
  rfl

/-! ## One cycle -/

def clockAt (n : ℕ) : Bool := decide (n % 128 / 64 = 1 ∧ n < 2048)

def loadAt (n : ℕ) : Bool := decide (n % 128 / 64 = 1 ∧ 2048 ≤ n)

/-- The lines in cycle `n` of a word. -/
def linesAt (x : BitVec 32) (n : ℕ) : Lines where
  data := x.getLsbD (15 - n / 128) && decide (n < 2048)
  clock := clockAt n
  loadA := x.getLsbD 16 && loadAt n
  loadB := x.getLsbD 17 && loadAt n

/-- The clock and the load lines are low. -/
structure Low (lines : Lines) : Prop where
  clock : lines.clock = false
  loadA : lines.loadA = false
  loadB : lines.loadB = false

theorem events_of_low (r : Receiver) {lines : Lines} (h : Low lines) :
    r.events lines = [] := by
  rw [Receiver.events, h.clock, h.loadA, h.loadB]
  simp

/-- The core waits for a word. -/
structure Idle (s : State) : Prop where
  cntr : s.core.intCntrReg = 0
  enbl : s.core.intEnblReg = false
  tready : s.core.intTreadyReg = false
  lines : Low s.receiver.lines

/-- The core has captured a word and accepts it. -/
structure Captured (s : State) : Prop where
  cntr : s.core.intCntrReg = 0
  enbl : s.core.intEnblReg = true
  tready : s.core.intTreadyReg = true
  lines : Low s.receiver.lines

/-- Cycle `n` of word `x`. -/
structure Sending (x : BitVec 32) (n : ℕ) (s : State) : Prop where
  pos : 0 < n
  le : n ≤ 2176
  data : s.core.intDataReg = x.extractLsb' 0 16 <<< (n / 128)
  cntr : s.core.intCntrReg.toNat = n
  load : s.core.intLoadReg = x.extractLsb' 16 2
  enbl : s.core.intEnblReg = true
  tready : s.core.intTreadyReg = false
  lines : s.receiver.lines = linesAt x (n - 1)
  shift : ∀ j < min ((n + 63) / 128) 16,
    s.receiver.shift.getLsbD j = x.getLsbD (16 - min ((n + 63) / 128) 16 + j)

section Cycles

variable {x : BitVec 32} {n : ℕ} {s : State} {i : Input}

theorem getLsbD_eq_decide {w : ℕ} (v : BitVec w) (k : ℕ) :
    v.getLsbD k = decide (v.toNat / 2 ^ k % 2 = 1) := by
  rw [← BitVec.testBit_toNat, Nat.testBit_eq_decide_div_mod_eq]

namespace Sending

theorem alexData_eq (h : Sending x n s) : s.core.alexData = linesAt x n := by
  have hle := h.le
  have hhigh : (s.core.intCntrReg.getLsbD 6 && s.core.intCntrReg.getLsbD 11) =
      loadAt n := by
    rw [getLsbD_eq_decide, getLsbD_eq_decide, h.cntr, ← Bool.decide_and, loadAt,
      decide_eq_decide]
    omega
  have hclock : (s.core.intCntrReg.getLsbD 6 && !s.core.intCntrReg.getLsbD 11) =
      clockAt n := by
    rw [getLsbD_eq_decide, getLsbD_eq_decide, h.cntr, ← decide_not, ← Bool.decide_and,
      clockAt, decide_eq_decide]
    omega
  have hdata : s.core.intDataReg.getLsbD 15 =
      (x.getLsbD (15 - n / 128) && decide (n < 2048)) := by
    rw [h.data, BitVec.getLsbD_shiftLeft, BitVec.getLsbD_extractLsb']
    by_cases hn : n < 2048
    · have hrow : ¬15 < n / 128 := by omega
      have hbit : 15 - n / 128 < 16 := by omega
      simp [hn, hrow, hbit]
    · have hrow : 15 < n / 128 := by omega
      simp [hn, hrow]
  have hloadA : s.core.intLoadReg.getLsbD 0 = x.getLsbD 16 := by
    rw [h.load, BitVec.getLsbD_extractLsb']
    rfl
  have hloadB : s.core.intLoadReg.getLsbD 1 = x.getLsbD 17 := by
    rw [h.load, BitVec.getLsbD_extractLsb']
    rfl
  rw [Core.alexData, linesAt, hdata, hclock, hloadA, hloadB, Bool.and_assoc,
    Bool.and_assoc, hhigh]

theorem done_eq (h : Sending x n s) : s.core.done = decide (n = 2176) := by
  have hle := h.le
  rw [Core.done, getLsbD_eq_decide, getLsbD_eq_decide, h.cntr, ← Bool.decide_and,
    decide_eq_decide]
  omega

theorem shifts_eq (h : Sending x n s) : s.core.shifts = decide (n % 128 = 127) := by
  rw [Core.shifts, Bool.eq_iff_iff, beq_iff_eq, decide_eq_true_eq, ← BitVec.toNat_inj,
    BitVec.extractLsb'_toNat, h.cntr, Nat.shiftRight_zero]
  rfl

/-- The clock rises once in 128 cycles. -/
theorem rises (n : ℕ) :
    (!clockAt (n - 1) && clockAt n) = decide (n % 128 = 64 ∧ n < 2048) := by
  rw [clockAt, clockAt, ← decide_not, ← Bool.decide_and, decide_eq_decide]
  omega

theorem loads (n : ℕ) :
    (!loadAt (n - 1) && loadAt n) = decide (n % 128 = 64 ∧ 2048 ≤ n) := by
  rw [loadAt, loadAt, ← decide_not, ← Bool.decide_and, decide_eq_decide]
  omega

/-- A word takes 2176 cycles after the one in which it is accepted. -/
theorem next_last (h : Sending x 2176 s) (i : Input) : Idle (next s i) := by
  have hdone : s.core.done = true := h.done_eq
  refine ⟨?_, ?_, ?_, ?_⟩
  · simp [AxisAlex.next, Core.step, hdone]
  · simp [AxisAlex.next, Core.step, hdone]
  · simp [AxisAlex.next, Core.step, h.tready, Core.captures, h.enbl]
  · change Low s.core.alexData
    rw [h.alexData_eq]
    refine ⟨rfl, ?_, ?_⟩
    · exact Bool.and_false _
    · exact Bool.and_false _

theorem captures_eq (h : Sending x n s) (i : Input) : s.core.captures i = false := by
  rw [Core.captures, h.enbl]
  exact Bool.and_false _

/-- A bit leaves the register at the end of its block. -/
theorem data_next (h : Sending x n s) (i : Input) :
    (AxisAlex.next s i).core.intDataReg = x.extractLsb' 0 16 <<< ((n + 1) / 128) := by
  change (if s.core.shifts then s.core.intDataReg <<< 1
    else if s.core.captures i then _ else s.core.intDataReg) = _
  rw [h.shifts_eq, h.captures_eq, if_neg Bool.false_ne_true, h.data]
  by_cases hlast : n % 128 = 127
  · have hrow : (n + 1) / 128 = n / 128 + 1 := by omega
    rw [decide_eq_true hlast, if_pos rfl, hrow, BitVec.shiftLeft_add]
  · have hrow : (n + 1) / 128 = n / 128 := by omega
    rw [decide_eq_false hlast, if_neg Bool.false_ne_true, hrow]

/-- A bit enters the receiver in the middle of its block. -/
theorem shift_next (h : Sending x n s) (i : Input) {j : ℕ}
    (hj : j < min ((n + 1 + 63) / 128) 16) :
    (AxisAlex.next s i).receiver.shift.getLsbD j =
      x.getLsbD (16 - min ((n + 1 + 63) / 128) 16 + j) := by
  change (if !s.receiver.lines.clock && s.core.alexData.clock then
    shiftIn s.receiver.shift s.core.alexData.data
    else s.receiver.shift).getLsbD j = _
  rw [h.lines, h.alexData_eq]
  change (if !clockAt (n - 1) && clockAt n then
    shiftIn s.receiver.shift (x.getLsbD (15 - n / 128) && decide (n < 2048))
    else s.receiver.shift).getLsbD j = _
  rw [rises]
  by_cases hrise : n % 128 = 64 ∧ n < 2048
  · have hbits : min ((n + 1 + 63) / 128) 16 = n / 128 + 1 := by omega
    have hbits' : min ((n + 63) / 128) 16 = n / 128 := by omega
    have hshift := h.shift
    rw [hbits'] at hshift
    rw [hbits] at hj ⊢
    rw [decide_eq_true hrise, if_pos rfl, decide_eq_true hrise.2, Bool.and_true,
      getLsbD_shiftIn _ _ (by omega)]
    cases j with
    | zero =>
        have hbit : 15 - n / 128 = 16 - (n / 128 + 1) := by omega
        rw [if_pos rfl, Nat.add_zero, hbit]
    | succ j =>
        rw [if_neg (Nat.succ_ne_zero j), Nat.add_sub_cancel, hshift j (by omega)]
        congr 1
        omega
  · have hbits : min ((n + 1 + 63) / 128) 16 = min ((n + 63) / 128) 16 := by omega
    rw [hbits] at hj ⊢
    rw [decide_eq_false hrise, if_neg Bool.false_ne_true]
    exact h.shift j hj

theorem next (h : Sending x n s) (hn : n < 2176) (i : Input) :
    Sending x (n + 1) (next s i) := by
  have hdone : s.core.done = false := by
    rw [h.done_eq]
    exact decide_eq_false (Nat.ne_of_lt hn)
  have hcaptures := h.captures_eq i
  refine ⟨Nat.succ_pos n, hn, h.data_next i, ?_, ?_, ?_, ?_, h.alexData_eq,
    fun j hj => h.shift_next i hj⟩
  · have hcntr : (AxisAlex.next s i).core.intCntrReg = s.core.intCntrReg + 1 := by
      simp [AxisAlex.next, Core.step, hdone, h.enbl]
    rw [hcntr, toNat_add_one, h.cntr]
    exact Nat.mod_eq_of_lt (by omega)
  · simp [AxisAlex.next, Core.step, hdone, hcaptures, h.load]
  · simp [AxisAlex.next, Core.step, hdone, hcaptures, h.enbl]
  · simp [AxisAlex.next, Core.step, hcaptures, h.tready]

/-- After the last clock edge the receiver has the word. -/
theorem shift_eq (h : Sending x n s) (hn : 2048 ≤ n) :
    s.receiver.shift = x.extractLsb' 0 16 := by
  have hbits : min ((n + 63) / 128) 16 = 16 := by omega
  have hshift := h.shift
  rw [hbits] at hshift
  apply BitVec.eq_of_getLsbD_eq
  intro j hj
  rw [hshift j hj, BitVec.getLsbD_extractLsb']
  simp [hj]

theorem events_eq (h : Sending x n s) (i : Input) :
    events ⟨s, i⟩ = if n % 128 = 64 then (wordSlots x).getD (n / 128) [] else [] := by
  have hle := h.le
  have hgate : ∀ b : Bool, (!(b && loadAt (n - 1)) && (b && loadAt n)) =
      (b && decide (n % 128 = 64 ∧ 2048 ≤ n)) := by
    intro b
    rw [← loads]
    cases b <;> simp
  have hevents : events ⟨s, i⟩ =
      (if decide (n % 128 = 64 ∧ n < 2048) then
        [.bit (linesAt x (n - 1)).data (linesAt x n).data] else []) ++
      (if x.getLsbD 16 && decide (n % 128 = 64 ∧ 2048 ≤ n) then
        [.latchA s.receiver.shift] else []) ++
      if x.getLsbD 17 && decide (n % 128 = 64 ∧ 2048 ≤ n) then
        [.latchB s.receiver.shift] else [] := by
    rw [events, h.alexData_eq, Receiver.events, h.lines, ← rises, ← hgate, ← hgate]
    rfl
  rw [hevents]
  by_cases hslot : n % 128 = 64
  · by_cases hn : n < 2048
    · have hrow : (n - 1) / 128 = n / 128 := by omega
      have hlt : n - 1 < 2048 := by omega
      have hearly : ¬2048 ≤ n := Nat.not_le.mpr hn
      rw [if_pos hslot, wordSlots_getD x (by omega)]
      simp [hslot, hn, hrow, hlt, hearly, linesAt]
    · obtain rfl : n = 2112 := by omega
      rw [h.shift_eq (by decide)]
      simp [wordSlots, latches]
  · simp [hslot]

/-- The events of a word up to a cycle. -/
def sent (x : BitVec 32) (n : ℕ) : List Event :=
  ((wordSlots x).take ((n + 63) / 128)).flatten

theorem sent_succ (h : Sending x n s) (i : Input) :
    sent x n ++ events ⟨s, i⟩ = sent x (n + 1) := by
  have hle := h.le
  rw [h.events_eq, sent, sent]
  by_cases hslot : n % 128 = 64
  · have hnext : (n + 1 + 63) / 128 = n / 128 + 1 := by omega
    have hthis : (n + 63) / 128 = n / 128 := by omega
    have hlength : n / 128 < (wordSlots x).length := by
      have hseventeen : (wordSlots x).length = 17 := by simp [wordSlots]
      omega
    rw [if_pos hslot, hnext, hthis, List.take_succ_eq_append_getElem hlength,
      List.flatten_append, List.flatten_singleton, List.getD_eq_getElem?_getD,
      List.getElem?_eq_getElem hlength, Option.getD_some]
  · have hsame : (n + 1 + 63) / 128 = (n + 63) / 128 := by omega
    rw [if_neg hslot, List.append_nil, hsame]

theorem sent_last (x : BitVec 32) : sent x 2177 = wordEvents x := by
  have hseventeen : (wordSlots x).length = 17 := by simp [wordSlots]
  rw [sent, wordEvents, List.take_of_length_le (Nat.le_of_eq hseventeen)]

end Sending

theorem low_of_cntr (h : s.core.intCntrReg = 0) : Low s.core.alexData := by
  refine ⟨?_, ?_, ?_⟩ <;> simp [Core.alexData, h]

theorem accepted_of_not_tready (h : s.core.intTreadyReg = false) (i : Input) :
    accepted ⟨s, i⟩ = [] := by
  rw [accepted, h, transfer_false_right]

theorem idle_next_of_invalid (h : Idle s) (hvalid : i.sAxisTvalid = false) :
    Idle (next s i) := by
  have hlow := low_of_cntr h.cntr
  refine ⟨?_, ?_, ?_, hlow⟩
  · simp [next, Core.step, Core.done, h.cntr, h.enbl]
  · simp [next, Core.step, Core.captures, h.enbl, hvalid]
  · simp [next, Core.step, Core.captures, h.tready, hvalid]

/-- The word is captured in the cycle before the one in which it is accepted. -/
theorem idle_next_of_valid (h : Idle s) (hvalid : i.sAxisTvalid = true) :
    Captured (next s i) ∧
      (next s i).core.intDataReg = i.sAxisTdata.extractLsb' 0 16 ∧
      (next s i).core.intLoadReg = i.sAxisTdata.extractLsb' 16 2 := by
  have hlow := low_of_cntr h.cntr
  have hcaptures : s.core.captures i = true := by
    rw [Core.captures, hvalid, h.enbl]
    rfl
  have hshifts : s.core.shifts = false := by
    rw [Core.shifts, h.cntr]
    rfl
  have hdone : s.core.done = false := by
    rw [Core.done, h.cntr]
    rfl
  refine ⟨⟨?_, ?_, ?_, hlow⟩, ?_, ?_⟩
  · simp [next, Core.step, hdone, h.enbl, h.cntr]
  · simp [next, Core.step, hdone, hcaptures]
  · simp [next, Core.step, hcaptures, h.tready]
  · simp [next, Core.step, hshifts, hcaptures]
  · simp [next, Core.step, hdone, hcaptures]

theorem captured_next (h : Captured s)
    (hdata : s.core.intDataReg = x.extractLsb' 0 16)
    (hload : s.core.intLoadReg = x.extractLsb' 16 2) (i : Input) :
    Sending x 1 (next s i) := by
  have hcaptures : s.core.captures i = false := by
    rw [Core.captures, h.enbl]
    exact Bool.and_false _
  have hshifts : s.core.shifts = false := by
    rw [Core.shifts, h.cntr]
    rfl
  have hdone : s.core.done = false := by
    rw [Core.done, h.cntr]
    rfl
  refine ⟨Nat.one_pos, by decide, ?_, ?_, ?_, ?_, ?_, ?_, ?_⟩
  · simp [next, Core.step, hshifts, hcaptures, hdata]
  · simp [next, Core.step, hdone, h.enbl, h.cntr]
  · simp [next, Core.step, hdone, hcaptures, hload]
  · simp [next, Core.step, hdone, hcaptures, h.enbl]
  · simp [next, Core.step, h.tready]
  · change s.core.alexData = linesAt x 0
    simp [Core.alexData, linesAt, h.cntr, hdata, clockAt, loadAt]
  · intro j hj
    exact absurd hj (Nat.not_lt_zero j)

end Cycles

/-! ## The states of a run -/

/-- The core accepts a word after `lag` more cycles, once one is offered. -/
inductive Shape : ℕ → State → Prop where
  | captured {s} (h : Captured s) : Shape 0 s
  | idle {s} (h : Idle s) : Shape 1 s
  | sending {x n s} (h : Sending x n s) : Shape (2178 - n) s

/-- A captured word is on offer when it is accepted. -/
def Offered (c : Cycle State Input) : Prop :=
  c.state.core.intTreadyReg = true →
    c.input.sAxisTvalid = true ∧
      c.state.core.intDataReg = c.input.sAxisTdata.extractLsb' 0 16 ∧
      c.state.core.intLoadReg = c.input.sAxisTdata.extractLsb' 16 2

/-- A source that obeys the protocol. -/
def SourceHolds (s : State) (inputs : List Input) : Prop :=
  (trace next s inputs).IsChain
    (Holds (fun c => c.input.sAxisTvalid) (fun c => c.state.core.intTreadyReg)
      fun c => c.input.sAxisTdata)

instance (s : State) (inputs : List Input) : Decidable (SourceHolds s inputs) :=
  inferInstanceAs (Decidable (List.IsChain _ _))

section Shapes

variable {s : State} {i j : Input} {lag : ℕ}

theorem Shape.le (h : Shape lag s) : lag ≤ 2177 := by
  cases h with
  | captured h => exact Nat.zero_le _
  | idle h => decide
  | sending h =>
      have hpos := h.pos
      omega

theorem exists_word (s : State) : ∃ x : BitVec 32,
    s.core.intDataReg = x.extractLsb' 0 16 ∧ s.core.intLoadReg = x.extractLsb' 16 2 := by
  refine ⟨(0#14 ++ s.core.intLoadReg) ++ s.core.intDataReg, ?_, ?_⟩
  · rw [BitVec.extractLsb'_append_eq_right]
  · rw [BitVec.extractLsb'_append_eq_of_le (by decide)]
    exact BitVec.extractLsb'_append_eq_right.symm

theorem Shape.next (h : Shape lag s) (i : Input) :
    ∃ later, Shape later (next s i) ∧
      (i.sAxisTvalid = true → 0 < lag → later < lag) := by
  cases h with
  | captured h =>
      obtain ⟨x, hdata, hload⟩ := exists_word s
      exact ⟨2178 - 1, .sending (captured_next h hdata hload i), fun _ h => by cases h⟩
  | idle h =>
      cases hvalid : i.sAxisTvalid with
      | false => exact ⟨1, .idle (idle_next_of_invalid h hvalid), fun h => by cases h⟩
      | true =>
          exact ⟨0, .captured (idle_next_of_valid h hvalid).1, fun _ _ => Nat.one_pos⟩
  | @sending x n _ h =>
      rcases Nat.lt_or_eq_of_le h.le with hn | rfl
      · exact ⟨2178 - (n + 1), .sending (h.next hn i), fun _ _ => by omega⟩
      · exact ⟨1, .idle (h.next_last i), fun _ _ => by decide⟩

/-- A word that is kept until it is accepted is the word captured. -/
theorem Shape.offered_next (h : Shape lag s)
    (hholds : i.sAxisTvalid = true → s.core.intTreadyReg = false →
      j.sAxisTvalid = true ∧ j.sAxisTdata = i.sAxisTdata) :
    Offered ⟨AxisAlex.next s i, j⟩ := by
  intro htready
  cases h with
  | captured h =>
      obtain ⟨x, hdata, hload⟩ := exists_word s
      rw [(captured_next h hdata hload i).tready] at htready
      cases htready
  | idle h =>
      cases hvalid : i.sAxisTvalid with
      | false =>
          rw [(idle_next_of_invalid h hvalid).tready] at htready
          cases htready
      | true =>
          obtain ⟨hvalid', hsame⟩ := hholds hvalid h.tready
          obtain ⟨-, hdata, hload⟩ := idle_next_of_valid h hvalid
          rw [← hsame] at hdata hload
          exact ⟨hvalid', hdata, hload⟩
  | @sending x n _ h =>
      rcases Nat.lt_or_eq_of_le h.le with hn | rfl
      · rw [(h.next hn i).tready] at htready
        cases htready
      · rw [(h.next_last i).tready] at htready
        cases htready

end Shapes

/-- What the receiver has seen of the words accepted. -/
inductive Phase (words : List (BitVec 32)) (seen : List Event) : State → Prop where
  | captured {s} (h : Captured s) (hseen : seen = words.flatMap wordEvents) :
      Phase words seen s
  | idle {s} (h : Idle s) (hseen : seen = words.flatMap wordEvents) :
      Phase words seen s
  | sending {before x n s} (h : Sending x n s) (hwords : words = before ++ [x])
      (hseen : seen = before.flatMap wordEvents ++ Sending.sent x n) :
      Phase words seen s

theorem Phase.next {words : List (BitVec 32)} {seen : List Event} {s : State}
    (h : Phase words seen s) {i : Input} (hoffered : Offered ⟨s, i⟩) :
    Phase (words ++ accepted ⟨s, i⟩) (seen ++ events ⟨s, i⟩) (next s i) := by
  cases h with
  | captured h hseen =>
      obtain ⟨hvalid, hdata, hload⟩ := hoffered h.tready
      dsimp only at hvalid hdata hload
      have haccepted : accepted ⟨s, i⟩ = [i.sAxisTdata] := by
        rw [accepted, hvalid, h.tready, transfer_true_true]
      have hnone : events ⟨s, i⟩ = [] := events_of_low _ (low_of_cntr h.cntr)
      rw [haccepted, hnone, hseen]
      exact .sending (captured_next h hdata hload i) rfl rfl
  | idle h hseen =>
      have hnone : events ⟨s, i⟩ = [] := events_of_low _ (low_of_cntr h.cntr)
      rw [accepted_of_not_tready h.tready, hnone, List.append_nil, List.append_nil]
      cases hvalid : i.sAxisTvalid with
      | false => exact .idle (idle_next_of_invalid h hvalid) hseen
      | true => exact .captured (idle_next_of_valid h hvalid).1 hseen
  | @sending before x n _ h hwords hseen =>
      rw [accepted_of_not_tready h.tready, List.append_nil, hseen, List.append_assoc,
        h.sent_succ i]
      rcases Nat.lt_or_eq_of_le h.le with hn | rfl
      · exact .sending (h.next hn i) hwords rfl
      · refine .idle (h.next_last i) ?_
        rw [hwords, List.flatMap_append, List.flatMap_singleton, Sending.sent_last]

/-- Registers after a reset, and a receiver whose clock and load lines are
low. -/
structure Start (s : State) : Prop where
  core : s.core = reset
  lines : Low s.receiver.lines

theorem Start.idle {s : State} (h : Start s) : Idle s := by
  refine ⟨?_, ?_, ?_, h.lines⟩ <;> rw [h.core] <;> rfl

section Runs

variable {s : State} {inputs : List Input}

theorem shape_run (h : Start s) (inputs : List Input) :
    ∃ lag, Shape lag (run next s inputs) := by
  apply run_invariant (fun s => ∃ lag, Shape lag s)
  · rintro s i ⟨lag, hs⟩
    obtain ⟨later, hlater, -⟩ := hs.next i
    exact ⟨later, hlater⟩
  · exact ⟨1, .idle h.idle⟩

theorem offered_trace (h : Start s) (hsource : SourceHolds s inputs) :
    ∀ c ∈ trace next s inputs, Offered c := by
  have hshape : ∀ c ∈ trace next s inputs, (∃ lag, Shape lag c.state) := by
    intro c hc
    obtain ⟨before, after, -, hstate⟩ := exists_before_of_mem hc
    rw [hstate]
    exact shape_run h before
  refine trace_chain Offered (fun c => ∃ lag, Shape lag c.state) _ ?_ ?_ hshape hsource
  · rintro s i j - ⟨lag, hs⟩ hholds
    exact hs.offered_next hholds
  · intro c hc htready
    cases inputs with
    | nil => cases hc
    | cons i inputs =>
        obtain rfl := Option.some.inj hc
        rw [h.idle.tready] at htready
        cases htready

theorem phase_run (h : Start s) (hsource : SourceHolds s inputs) :
    Phase ((trace next s inputs).flatMap accepted)
      ((trace next s inputs).flatMap events) (run next s inputs) := by
  refine trace_induction_of
    (fun past s => Phase (past.flatMap accepted) (past.flatMap events) s) Offered
    (.idle h.idle rfl) ?_ inputs (offered_trace h hsource)
  intro past s i hphase hoffered
  rw [List.flatMap_append, List.flatMap_append, List.flatMap_singleton,
    List.flatMap_singleton]
  exact hphase.next hoffered

/-- A word is sent to its end whatever is on offer meanwhile. -/
theorem wordEvents_of_sending {x : BitVec 32} {n : ℕ} (h : Sending x n s)
    (hlength : 2176 < n + inputs.length) :
    wordEvents x <+: Sending.sent x n ++ (trace next s inputs).flatMap events := by
  induction inputs generalizing n s with
  | nil =>
      have hle := h.le
      rw [List.length_nil] at hlength
      omega
  | cons i inputs ih =>
      rw [trace_cons, List.flatMap_cons, ← List.append_assoc, h.sent_succ i]
      rcases Nat.lt_or_eq_of_le h.le with hn | rfl
      · refine ih (h.next hn i) ?_
        rw [List.length_cons] at hlength
        omega
      · rw [Sending.sent_last]
        exact List.prefix_append _ _

/-- A word on offer is accepted after at most 2178 cycles. -/
theorem accepted_of_length {lag : ℕ} (h : Shape lag s)
    (hvalid : ∀ i ∈ inputs, i.sAxisTvalid = true) (hlag : lag < inputs.length) :
    (trace next s inputs).flatMap accepted ≠ [] := by
  induction inputs generalizing lag s with
  | nil => cases hlag
  | cons i inputs ih =>
      rw [List.forall_mem_cons] at hvalid
      rw [trace_cons, List.flatMap_cons]
      rcases Nat.eq_zero_or_pos lag with hzero | hpos
      · have htready : s.core.intTreadyReg = true := by
          cases h with
          | captured h => exact h.tready
          | idle h => cases hzero
          | sending h =>
              have hle := h.le
              omega
        rw [accepted, hvalid.1, htready, transfer_true_true]
        exact List.cons_ne_nil _ _
      · obtain ⟨later, hlater, hless⟩ := h.next i
        have hrest := ih hlater hvalid.2 (by
          have hlt := hless hvalid.1 hpos
          rw [List.length_cons] at hlag
          omega)
        exact List.append_ne_nil_of_right_ne_nil _ hrest

end Runs

/-- The receiver gets the bits and the loads of the words accepted, word after
word.  It has all of them 2176 cycles after the last word was accepted, whether
or not another one is offered, and every word that stays on offer is accepted. -/
structure Serial (s : State) (words : List (BitVec 32)) (seen : List Event) :
    Prop where
  order : seen <+: words.flatMap wordEvents
  previous : words.dropLast.flatMap wordEvents <+: seen
  complete : s.core.intEnblReg = false → seen = words.flatMap wordEvents
  delivers : ∀ inputs : List Input, 2176 ≤ inputs.length →
    words.flatMap wordEvents <+: seen ++ (trace next s inputs).flatMap events
  accepts : ∀ inputs : List Input, (∀ i ∈ inputs, i.sAxisTvalid = true) →
    2178 ≤ inputs.length → (trace next s inputs).flatMap accepted ≠ []

theorem serial {s : State} (h : Start s) {inputs : List Input}
    (hsource : SourceHolds s inputs) :
    Serial (run next s inputs) ((trace next s inputs).flatMap accepted)
      ((trace next s inputs).flatMap events) := by
  have hphase := phase_run h hsource
  have haccepts : ∀ later : List Input, (∀ i ∈ later, i.sAxisTvalid = true) →
      2178 ≤ later.length →
        (trace next (run next s inputs) later).flatMap accepted ≠ [] := by
    intro later hvalid hlength
    obtain ⟨lag, hshape⟩ := shape_run h inputs
    exact accepted_of_length hshape hvalid
      (Nat.lt_of_le_of_lt hshape.le hlength)
  have hprevious : ∀ words : List (BitVec 32),
      words.dropLast.flatMap wordEvents <+: words.flatMap wordEvents :=
    fun words => (List.dropLast_prefix words).flatMap wordEvents
  cases hphase with
  | captured hs hseen =>
      refine ⟨by rw [hseen], by rw [hseen]; exact hprevious _, fun _ => hseen, ?_,
        haccepts⟩
      intro later _
      rw [hseen]
      exact List.prefix_append _ _
  | idle hs hseen =>
      refine ⟨by rw [hseen], by rw [hseen]; exact hprevious _, fun _ => hseen, ?_,
        haccepts⟩
      intro later _
      rw [hseen]
      exact List.prefix_append _ _
  | @sending before x n _ hs hwords hseen =>
      rw [hwords, hseen]
      refine ⟨?_, ?_, ?_, ?_, haccepts⟩
      · rw [List.flatMap_append, List.flatMap_singleton, List.prefix_append_right_inj]
        obtain ⟨rest, hrest⟩ := List.take_prefix ((n + 63) / 128) (wordSlots x)
        refine ⟨rest.flatten, ?_⟩
        rw [Sending.sent, wordEvents, ← List.flatten_append, hrest]
      · rw [List.dropLast_concat]
        exact List.prefix_append _ _
      · intro hidle
        rw [hs.enbl] at hidle
        cases hidle
      · intro later hlength
        have hpos := hs.pos
        rw [List.flatMap_append, List.flatMap_singleton, List.append_assoc,
          List.prefix_append_right_inj]
        exact wordEvents_of_sending hs (by omega)

/-- One word for both registers, accepted in the second cycle. -/
def bothRegisters : List Input := [⟨0x35A5A, true⟩, ⟨0x35A5A, true⟩]

def afterReset : State := ⟨reset, ⟨false, false, false, false⟩, 0⟩

/-- The word is sent, and loaded into both, although nothing else is offered. -/
theorem serial_bothRegisters :
    [false, true, false, true, true, false, true, false,
        false, true, false, true, true, false, true, false].map
          (fun b => .bit b b) ++ [.latchA 0x5A5A, .latchB 0x5A5A] <+:
      (trace next afterReset bothRegisters).flatMap events ++
        (trace next (run next afterReset bothRegisters)
          (List.replicate 2176 ⟨0, false⟩)).flatMap events := by
  have hserial : Serial (run next afterReset bothRegisters)
      ((trace next afterReset bothRegisters).flatMap accepted)
      ((trace next afterReset bothRegisters).flatMap events) :=
    serial ⟨rfl, rfl, rfl, rfl⟩ (by decide)
  have hwords : ((trace next afterReset bothRegisters).flatMap accepted).flatMap
      wordEvents = [false, true, false, true, true, false, true, false,
        false, true, false, true, true, false, true, false].map
          (fun b => .bit b b) ++ [.latchA 0x5A5A, .latchB 0x5A5A] := by
    decide +kernel
  rw [← hwords]
  exact hserial.delivers _ List.length_replicate.ge

end RedPitayaNotes.AxisAlex
