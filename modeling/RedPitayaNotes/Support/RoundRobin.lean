import Mathlib.Data.Nat.Basic

/-!
# Round robin

A cursor goes round `n` places.  It rests at `n` when a round is over and is
then taken back to the first place.  A pass moves it past some places; a place
that no pass has come to yet is nearer after each of them.
-/

namespace RoundRobin

variable {n cursor place next : ℕ}

/-- The place the next pass starts at. -/
def head (n cursor : ℕ) : ℕ :=
  if cursor = n then 0 else cursor

/-- The places the cursor passes before it comes to `place`. -/
def distance (n cursor place : ℕ) : ℕ :=
  if head n cursor ≤ place then place - head n cursor
  else n - head n cursor + place

theorem head_lt (hn : 0 < n) (hcursor : cursor ≤ n) : head n cursor < n := by
  unfold head
  split <;> omega

/-- A pass that does not come to the place brings it nearer. -/
theorem distance_pass (hcursor : cursor ≤ n) (hplace : place < n)
    (hpass : head n cursor < next) (hnext : next ≤ n)
    (hmiss : place < head n cursor ∨ next ≤ place) :
    distance n next place < distance n cursor place := by
  have hhead := head_lt (Nat.zero_lt_of_lt hplace) hcursor
  unfold distance
  by_cases hend : next = n
  · have hzero : head n next = 0 := if_pos hend
    rw [hzero]
    split <;> split <;> omega
  · have hself : head n next = next := if_neg hend
    rw [hself]
    split <;> split <;> omega

end RoundRobin
