import Mathlib.Data.List.Basic
import RedPitayaNotes.Support.Bits

/-!
# Asynchronous serial frames

The 8N1 format, one `Bool` a bit time: a low start bit, eight data bits with
the lowest first, a high stop bit, and an idle line that is high.
-/

namespace Serial

open Bits

/-- The ten bit times of a byte. -/
def frame (b : Byte) : List Bool :=
  [false, b.getLsbD 0, b.getLsbD 1, b.getLsbD 2, b.getLsbD 3, b.getLsbD 4,
    b.getLsbD 5, b.getLsbD 6, b.getLsbD 7, true]

/-- Bytes on the line, each after a gap of so many idle bit times. -/
def transmit : List (ℕ × Byte) → List Bool
  | [] => []
  | (gap, b) :: rest => List.replicate gap true ++ frame b ++ transmit rest

/-- The bit time of the start bit of each byte, when the line starts at `t`. -/
def starts (t : ℕ) : List (ℕ × Byte) → List (ℕ × Byte)
  | [] => []
  | (gap, b) :: rest => (t + gap, b) :: starts (t + gap + 10) rest

/-- A receiver: it waits for a start bit, takes eight data bits, and fails
when the stop bit is not high or the line ends inside a byte. -/
def receive (t : ℕ) : List Bool → Option (List (ℕ × Byte))
  | [] => some []
  | true :: line => receive (t + 1) line
  | false :: b0 :: b1 :: b2 :: b3 :: b4 :: b5 :: b6 :: b7 :: true :: line =>
      (receive (t + 10) line).map
        ((t, BitVec.ofBoolListLE [b0, b1, b2, b3, b4, b5, b6, b7]) :: ·)
  | _ => none

theorem receive_idle (t gap : ℕ) (line : List Bool) :
    receive t (List.replicate gap true ++ line) = receive (t + gap) line := by
  induction gap generalizing t with
  | zero => rfl
  | succ gap ih =>
      rw [List.replicate_succ, List.cons_append, receive, ih]
      congr 1
      omega

theorem ofBoolListLE_data (b : Byte) :
    BitVec.ofBoolListLE [b.getLsbD 0, b.getLsbD 1, b.getLsbD 2, b.getLsbD 3,
      b.getLsbD 4, b.getLsbD 5, b.getLsbD 6, b.getLsbD 7] = b := by
  apply BitVec.eq_of_getLsbD_eq
  intro k hk
  rw [BitVec.getLsbD_ofBoolListLE]
  match k, hk with
  | 0, _ | 1, _ | 2, _ | 3, _ | 4, _ | 5, _ | 6, _ | 7, _ => simp

theorem receive_frame (t : ℕ) (b : Byte) (line : List Bool) :
    receive t (frame b ++ line) =
      (receive (t + 10) line).map ((t, b) :: ·) := by
  simp only [frame, List.cons_append, List.nil_append, receive,
    ofBoolListLE_data]

theorem receive_transmit (t : ℕ) (bytes : List (ℕ × Byte)) :
    receive t (transmit bytes) = some (starts t bytes) := by
  induction bytes generalizing t with
  | nil => rfl
  | cons x bytes ih =>
      obtain ⟨gap, b⟩ := x
      rw [transmit, List.append_assoc, receive_idle, receive_frame, ih]
      rfl

end Serial
