import Mathlib.Data.List.Basic
import RedPitayaNotes.Support.Bits

/-!
# Words marked at their first bit

A serial line of two wires: one carries the bits of the words, the lowest first,
and the other is low with the first bit of a word.
-/

namespace MarkedWords

open Bits

/-- A bit time: the marker and the bit. -/
abbrev Line := List (Bool × Bool)

/-- The word whose first bit the line starts with. -/
def word (w : ℕ) (line : Line) : BitVec w :=
  ofFn fun j => (line.getD j (true, false)).2

/-- A receiver: it takes a word at each low marker, and leaves a word that the
line cuts off. -/
def receive (w : ℕ) : Line → List (BitVec w)
  | [] => []
  | (true, _) :: line => receive w line
  | (false, b) :: line =>
      if w ≤ line.length + 1 then word w ((false, b) :: line) :: receive w line
      else receive w line

theorem receive_low {w : ℕ} (b : Bool) (line : Line) :
    receive w ((false, b) :: line) =
      (if w ≤ line.length + 1 then [word w ((false, b) :: line)] else []) ++
        receive w line := by
  rw [receive]
  split_ifs <;> rfl

theorem word_eq {w : ℕ} {line : Line} {x : BitVec w}
    (h : ∀ j < w, (line.getD j (true, false)).2 = x.getLsbD j) :
    word w line = x := by
  apply BitVec.eq_of_getLsbD_eq
  intro j hj
  exact (getLsbD_ofFn _ ⟨j, hj⟩).trans (h j hj)

end MarkedWords
