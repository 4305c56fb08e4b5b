import Mathlib.Data.List.GetD
import RedPitayaNotes.SdrReceiver.Stream
import RedPitayaNotes.Support.Blocks
import RedPitayaNotes.Support.Strides

/-!
# Recordings of the eight-channel receiver

`client/record.py` sends one control structure and writes what it receives to a
file, of which `client/convert.py` makes one file for each channel.  Wherever
the recording ends, each of these has samples of its own channel only.
-/

namespace RedPitayaNotes.SdrReceiver

open Bits Blocks FrameQueue Strides

/-! ## The samples -/

/-- `data[i::8]`, where `data` are the complete samples of the file. -/
def channel (file : List Byte) (i : ℕ) : List (List Byte) :=
  slice i 8 (blocks 8 file)

/-- The bytes of sample `i` of a frame. -/
def sample (i : ℕ) (frame : List (BitVec 32)) : List Byte :=
  wordBytes (frame.getD (2 * i) 0) ++ wordBytes (frame.getD (2 * i + 1) 0)

theorem length_of_mem_words {frames : List Frame} {f : List (BitVec 32)}
    (h : f ∈ frames.map Frame.words) : f.length = 16 := by
  obtain ⟨frame, -, rfl⟩ := List.mem_map.mp h
  exact frame.length_eq

/-- A frame in which every word is different. -/
def numbered (k : ℕ) : Frame where
  words := (List.range 16).map fun i => BitVec.ofNat 32 (16 * k + i)
  length_eq := by rw [List.length_map, List.length_range]

end RedPitayaNotes.SdrReceiver
