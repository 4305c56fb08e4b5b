import Mathlib.Tactic.IntervalCases
import RedPitayaNotes.Cores.AxisMiscReader.Model
import RedPitayaNotes.Support.Serial

/-!
# The UART frame of the axis_misc_reader core

What `loadUart` puts into the buffer, bit time by bit time, and what a receiver
makes of it.  The frame is five bytes, each seven bits of the count below a mark
that is high in the first one.
-/

namespace RedPitayaNotes.AxisMiscReader

open Clocked Bits Serial

/-! ## The frame in the buffer -/

/-- The bits of `uart_buffer` that no assignment of a group start reaches. -/
def unassigned : List ℕ := [19, 30, 41, 52]

/-- Seven bits of the count, below the mark of the first byte. -/
def uartByte (first : Bool) (payload : BitVec 7) : Byte :=
  BitVec.cons first payload

theorem frame_uartByte (first : Bool) (payload : BitVec 7) :
    frame (uartByte first payload) =
      [false, payload[0], payload[1], payload[2], payload[3], payload[4],
        payload[5], payload[6], first, true] := by
  simp [frame, uartByte, BitVec.getElem_cons]

/-- The bytes of a group, with the idle bit times before each. -/
def groupBytes (pulseCounter : BitVec 40) : List (ℕ × Byte) :=
  [(0, uartByte true (pulseCounter.extractLsb' 4 7)),
    (1, uartByte false (pulseCounter.extractLsb' 11 7)),
    (1, uartByte false (pulseCounter.extractLsb' 18 7)),
    (1, uartByte false (pulseCounter.extractLsb' 25 7)),
    (1, uartByte false (pulseCounter.extractLsb' 33 7))]

theorem bits_loadUart {uartBuffer : BitVec 54}
    (hclear : ∀ k ∈ unassigned, uartBuffer.getLsbD k = false)
    (pulseCounter : BitVec 40) :
    (List.range 54).map (loadUart uartBuffer pulseCounter).getLsbD =
      transmit (groupBytes pulseCounter) := by
  have h19 : uartBuffer[19] = false := hclear 19 (by decide)
  have h30 : uartBuffer[30] = false := hclear 30 (by decide)
  have h41 : uartBuffer[41] = false := hclear 41 (by decide)
  have h52 : uartBuffer[52] = false := hclear 52 (by decide)
  apply List.ext_getElem
  · rfl
  · intro k hk hk'
    rw [List.getElem_map, List.getElem_range]
    rw [List.length_map, List.length_range] at hk
    rw [BitVec.getLsbD_eq_getElem hk]
    simp only [loadUart, getElem_assign, transmit, groupBytes, frame_uartByte,
      List.replicate_zero, List.replicate_one, List.nil_append, List.cons_append]
    interval_cases k <;> simp [h19, h30, h41, h52]

theorem loadUart_unassigned (uartBuffer : BitVec 54)
    (pulseCounter : BitVec 40) :
    ∀ k ∈ unassigned,
      (loadUart uartBuffer pulseCounter).getLsbD k = uartBuffer.getLsbD k := by
  intro k hk
  have hlt : k < 54 := by
    revert k
    decide
  rw [BitVec.getLsbD_eq_getElem hlt, BitVec.getLsbD_eq_getElem hlt]
  simp only [unassigned, List.mem_cons, List.not_mem_nil, or_false] at hk
  rcases hk with rfl | rfl | rfl | rfl <;> simp [loadUart, getElem_assign]

/-! ## The receiver -/

/-- Puts each payload back where `loadUart` took it from.  There is no place
for the bit between the fourth and the fifth. -/
def reassemble (b0 b1 b2 b3 b4 : Byte) : BitVec 36 :=
  b4.extractLsb' 0 7 ++ 0#1 ++ b3.extractLsb' 0 7 ++ b2.extractLsb' 0 7 ++
    b1.extractLsb' 0 7 ++ b0.extractLsb' 0 7

/-- The count read off the bits of a group: five bytes, 11 bit times from start
to start, of which only the first is marked. -/
def decode (bits : List Bool) : Option (BitVec 36) :=
  match receive 0 bits with
  | some [(0, b0), (11, b1), (22, b2), (33, b3), (44, b4)] =>
      if b0[7] && !b1[7] && !b2[7] && !b3[7] && !b4[7] then
        some (reassemble b0 b1 b2 b3 b4)
      else none
  | _ => none

/-- What the receiver makes of a group: every bit of the count arrives, except
bit 32. -/
def arriving (pulseCounter : BitVec 40) : BitVec 36 :=
  pulseCounter.extractLsb' 33 7 ++ 0#1 ++ pulseCounter.extractLsb' 4 28

theorem reassemble_groupBytes (pulseCounter : BitVec 40) :
    reassemble (uartByte true (pulseCounter.extractLsb' 4 7))
      (uartByte false (pulseCounter.extractLsb' 11 7))
      (uartByte false (pulseCounter.extractLsb' 18 7))
      (uartByte false (pulseCounter.extractLsb' 25 7))
      (uartByte false (pulseCounter.extractLsb' 33 7)) =
    arriving pulseCounter := by
  have hpayload (first : Bool) (payload : BitVec 7) :
      (uartByte first payload).extractLsb' 0 7 = payload := by
    apply BitVec.eq_of_getLsbD_eq
    intro k hk
    simp [uartByte, hk]
  simp only [reassemble, hpayload, arriving]
  apply BitVec.eq_of_getLsbD_eq
  intro k hk
  simp only [BitVec.getLsbD_append, BitVec.getLsbD_extractLsb']
  grind

theorem decode_groupBytes (pulseCounter : BitVec 40) :
    decode (transmit (groupBytes pulseCounter)) =
      some (arriving pulseCounter) := by
  have hmark (first : Bool) (payload : BitVec 7) :
      (uartByte first payload)[7] = first := by
    simp [uartByte, BitVec.getElem_cons]
  rw [decode, receive_transmit]
  simp only [starts, groupBytes, hmark, reassemble_groupBytes]
  rfl

theorem arriving_eq_iff (pulseCounter : BitVec 40) :
    arriving pulseCounter = pulseCounter.extractLsb' 4 36 ↔
      pulseCounter.getLsbD 32 = false := by
  constructor
  · intro h
    have hbit := congrArg (fun v => v.getLsbD 28) h
    simp only [arriving, BitVec.getLsbD_append,
      BitVec.getLsbD_extractLsb'] at hbit
    simpa using hbit.symm
  · intro h
    apply BitVec.eq_of_getLsbD_eq
    intro k hk
    simp only [arriving, BitVec.getLsbD_append, BitVec.getLsbD_extractLsb']
    by_cases hbit : k = 28
    · subst hbit
      simpa using h.symm
    · grind

/-- The bit is not on the line, so no other receiver recovers it either. -/
theorem no_decoder (decode : List Bool → BitVec 36) :
    ∃ pulseCounter : BitVec 40,
      decode (transmit (groupBytes pulseCounter)) ≠
        pulseCounter.extractLsb' 4 36 := by
  by_contra h
  push Not at h
  have hsame : groupBytes 0#40 = groupBytes (1#40 <<< 32) := by decide
  have hcounts : (0#40).extractLsb' 4 36 = (1#40 <<< 32).extractLsb' 4 36 := by
    rw [← h, ← h, hsame]
  revert hcounts
  decide

end RedPitayaNotes.AxisMiscReader
