import Mathlib.Data.List.Range
import Mathlib.Data.Nat.Log
import RedPitayaNotes.Support.Counters

/-!
# Rings of bursts

A bus master that goes round a region of memory in bursts of 16 words keeps the
number of the next burst in a register, counts it up to a last value and starts
again, and issues the number, scaled, above a base address.  The addresses it
issues are a function of how many came before.
-/

namespace BurstRing

open Counters

/-- The lanes of a data bus are a power of two, and `clog2` is exact. -/
theorem two_pow_clog_lanes {width : ℕ} (h : ∃ n, width = 8 * 2 ^ n) :
    2 ^ Nat.clog 2 (width / 8) = width / 8 := by
  obtain ⟨n, rfl⟩ := h
  rw [Nat.mul_div_cancel_left _ (by decide), Nat.clog_pow _ _ (by decide)]

/-- The register after one more burst. -/
theorem toNat_advance {w k : ℕ} {addr last : BitVec w}
    (h : addr.toNat = k % (last.toNat + 1)) :
    (if addr < last then addr + 1 else 0).toNat =
      (k + 1) % (last.toNat + 1) := by
  rw [succ_mod_succ, ← h]
  by_cases hlt : addr < last
  · have hlt' := BitVec.lt_def.mp hlt
    rw [if_pos hlt, if_pos hlt', BitVec.toNat_add]
    change (addr.toNat + 1 % 2 ^ w) % _ = _
    rw [Nat.add_mod_mod, Nat.mod_eq_of_lt]
    exact lt_of_le_of_lt hlt' last.isLt
  · rw [if_neg hlt, if_neg (mt BitVec.lt_def.mpr hlt)]
    rfl

/-- The address of the burst in the register. -/
theorem base_add_scaled {w n m : ℕ} (base : BitVec m) (addr : BitVec w) :
    base + (addr ++ 0#4 ++ 0#n).setWidth m =
      BitVec.ofNat m (base.toNat + addr.toNat * (16 * 2 ^ n)) := by
  have hconcat : (addr ++ 0#4 ++ 0#n).toNat = addr.toNat * (16 * 2 ^ n) := by
    rw [BitVec.toNat_append, BitVec.toNat_append]
    simp only [BitVec.toNat_ofNat, Nat.zero_mod, Nat.or_zero,
      Nat.shiftLeft_eq]
    rw [Nat.mul_assoc]
  rw [BitVec.ofNat_add, BitVec.ofNat_toNat, BitVec.setWidth_eq, ← hconcat,
    BitVec.ofNat_toNat]

/-! ## Lists by number -/

section Numbered

variable {α : Type*} {xs ys : List α} {f : ℕ → α}

/-- Range lists grow at the end. -/
theorem map_range_snoc (hxs : xs = (List.range xs.length).map f)
    (hys : ys = [] ∨ ys = [f xs.length]) :
    xs ++ ys = (List.range (xs ++ ys).length).map f := by
  rcases hys with rfl | rfl
  · rw [List.append_nil]
    exact hxs
  · rw [List.length_append, List.length_singleton, List.range_succ,
      List.map_append, ← hxs]
    rfl

/-- Taking from the front of a range list leaves a range list. -/
theorem eq_range_of_append
    (h : xs ++ ys = (List.range (xs ++ ys).length).map f) :
    xs = (List.range xs.length).map f := by
  have htake := congrArg (List.take xs.length) h
  rwa [List.take_left, ← List.map_take, List.take_range, List.length_append,
    Nat.min_eq_left (Nat.le_add_right _ _)] at htake

end Numbered

end BurstRing
