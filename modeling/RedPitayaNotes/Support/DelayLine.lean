import Mathlib.Data.List.Basic
import Mathlib.Data.List.Range

/-!
# Delay lines

A queue that takes a word and gives one back, once it holds `len` words, gives
back the word it took `len` words ago.
-/

namespace DelayLine

variable {α : Type*} (w : ℕ → α) (len : ℕ)

/-- The queue after the words `w 0 .. w (n - 1)`: the last `len` of them. -/
def window (n : ℕ) : List α := (List.range' (n - len) (min n len)).map w

@[simp] theorem length_window (n : ℕ) : (window w len n).length = min n len := by
  rw [window, List.length_map, List.length_range']

@[simp] theorem window_zero : window w len 0 = [] := by
  rw [window, Nat.zero_min]
  rfl

variable {len} {n : ℕ}

/-- While it fills, the queue only takes words. -/
theorem window_succ_of_lt (h : n < len) :
    window w len (n + 1) = window w len n ++ [w n] := by
  have hnone : n - len = 0 := Nat.sub_eq_zero_of_le (Nat.le_of_lt h)
  have hnone' : n + 1 - len = 0 := Nat.sub_eq_zero_of_le h
  rw [window, window, hnone, hnone', Nat.min_eq_left h,
    Nat.min_eq_left (Nat.le_of_lt h), List.range'_concat, List.map_append]
  simp

theorem window_eq_cons (hlen : 0 < len) (h : len ≤ n) :
    window w len n = w (n - len) :: (List.range' (n - len + 1) (len - 1)).map w := by
  obtain ⟨k, rfl⟩ : ∃ k, len = k + 1 := ⟨len - 1, by omega⟩
  rw [window, Nat.min_eq_right h, List.range'_succ, List.map_cons]
  rfl

/-- A full queue gives back its oldest word. -/
theorem window_succ_of_le (hlen : 0 < len) (h : len ≤ n) :
    window w len (n + 1) = (window w len n).tail ++ [w n] := by
  obtain ⟨k, rfl⟩ : ∃ k, len = k + 1 := ⟨len - 1, by omega⟩
  have hlast : n - (k + 1) + 1 + 1 * k = n := by omega
  rw [window_eq_cons w hlen h, List.tail_cons, window,
    Nat.min_eq_right (Nat.le_succ_of_le h), Nat.succ_sub h, List.range'_concat,
    List.map_append, hlast]
  rfl

end DelayLine
