import Mathlib.Data.Nat.ModEq
import RedPitayaNotes.Support.Memory

/-!
# Circular queues in a flat memory

A queue lives in the cells `0 .. size - 1` of a memory, between a read cursor
and a write cursor that wrap around.  Its contents are a window of the memory.
This module says how stores, moves of the read cursor and moves of the write
cursor change that window.
-/

namespace RingQueue

open Memory

variable {α : Type*}

/-! ## Cursors -/

/-- The number of cells between the cursors. -/
def used (size start stop : ℕ) : ℕ :=
  if start ≤ stop then stop - start else stop + (size - start)

section Cursors

variable {size start stop : ℕ}

/-- The write cursor follows from the read cursor and the fill. -/
theorem add_used_mod (hstart : start < size) (hstop : stop < size) :
    (start + used size start stop) % size = stop := by
  unfold used
  split
  · rw [Nat.add_sub_cancel' ‹_›, Nat.mod_eq_of_lt hstop]
  · have hwrap : start + (stop + (size - start)) = stop + size := by omega
    rw [hwrap, Nat.add_mod_right, Nat.mod_eq_of_lt hstop]

theorem used_add_mod {n : ℕ} (hstart : start < size) (hn : n < size) :
    used size start ((start + n) % size) = n := by
  by_cases h : start + n < size
  · rw [Nat.mod_eq_of_lt h, used, if_pos (by omega)]
    omega
  · rw [Nat.mod_eq_sub_mod (by omega), Nat.mod_eq_of_lt (by omega), used,
      if_neg (by omega)]
    omega

/-- An equation between cursors settles the fill. -/
theorem used_eq {n : ℕ} (hstart : start < size) (hn : n < size)
    (h : (start + n) % size = stop) : used size start stop = n := by
  rw [← h, used_add_mod hstart hn]

end Cursors

/-! ## The window between the cursors -/

/-- The `len` cells from `start` on, around the end of the memory. -/
def window (size : ℕ) (mem : ℕ → α) (start len : ℕ) : List α :=
  (List.range' start len).map fun n => mem (n % size)

section Window

variable (size : ℕ) (mem : ℕ → α) (start len : ℕ)

@[simp] theorem length_window : (window size mem start len).length = len := by
  simp [window]

theorem window_add (n : ℕ) :
    window size mem start (len + n) =
      window size mem start len ++ window size mem (start + len) n := by
  rw [window, ← List.range'_append_1, List.map_append]
  rfl

theorem window_mod :
    window size mem (start % size) len = window size mem start len := by
  apply List.ext_getElem
  · simp
  · intro i hi hi'
    simp [window]

variable {size mem start len}

theorem take_window {n : ℕ} (h : n ≤ len) :
    (window size mem start len).take n = window size mem start n := by
  obtain ⟨k, rfl⟩ := Nat.exists_eq_add_of_le h
  rw [window_add, List.take_left' (length_window _ _ _ _)]

theorem window_split {n : ℕ} (h : n ≤ len) :
    window size mem start len =
      window size mem start n ++
        window size mem ((start + n) % size) (len - n) := by
  obtain ⟨k, rfl⟩ := Nat.exists_eq_add_of_le h
  rw [window_add, window_mod, Nat.add_sub_cancel_left]

theorem window_eq_read (h : start + len ≤ size) :
    window size mem start len = read mem start len := by
  apply List.map_congr_left
  intro n hn
  rw [List.mem_range'_1] at hn
  rw [Nat.mod_eq_of_lt (by omega)]

/-- A store to cells outside the window leaves it. -/
theorem window_store_of_free {stop : ℕ} {xs : List α}
    (hstart : start < size) (hstop : (start + len) % size = stop)
    (hfit : stop + xs.length ≤ size) (hroom : len + xs.length ≤ size) :
    window size (store mem stop xs) start len = window size mem start len := by
  rcases eq_or_ne xs [] with rfl | hne
  · rw [store_nil]
  have hpos := List.length_pos_of_ne_nil hne
  apply List.map_congr_left
  intro n hn
  rw [List.mem_range'_1] at hn
  by_cases hwrap : start + len < size
  · rw [Nat.mod_eq_of_lt hwrap] at hstop
    rw [Nat.mod_eq_of_lt (by omega)]
    exact store_of_lt (by omega) _ _
  · rw [Nat.mod_eq_sub_mod (by omega), Nat.mod_eq_of_lt (by omega)] at hstop
    by_cases hn' : n < size
    · rw [Nat.mod_eq_of_lt hn']
      exact store_of_ge (by omega) _
    · rw [Nat.mod_eq_sub_mod (by omega), Nat.mod_eq_of_lt (by omega)]
      exact store_of_lt (by omega) _ _

theorem window_store_self {stop : ℕ} {xs : List α}
    (hstop : start % size = stop) (hfit : stop + xs.length ≤ size) :
    window size (store mem stop xs) start xs.length = xs := by
  rw [← window_mod, hstop, window_eq_read hfit, read_store_self]

/-- Storing at the write cursor appends to the queue. -/
theorem window_push {stop : ℕ} {xs : List α}
    (hstart : start < size) (hstop : (start + len) % size = stop)
    (hfit : stop + xs.length ≤ size) (hroom : len + xs.length ≤ size) :
    window size (store mem stop xs) start (len + xs.length) =
      window size mem start len ++ xs := by
  rw [window_add, window_store_of_free hstart hstop hfit hroom,
    window_store_self hstop hfit]

end Window

end RingQueue
