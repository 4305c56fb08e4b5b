import Mathlib.Algebra.Order.Ring.Int
import Mathlib.Data.List.Basic

/-!
# Counters that start over

A register that counts up to a last value and starts again, or stays there, is
the number of events so far up to a period.
-/

namespace Counters

theorem succ_mod_succ (k n : ℕ) :
    (k + 1) % (n + 1) = if k % (n + 1) < n then k % (n + 1) + 1 else 0 := by
  have hlt : k % (n + 1) < n + 1 := Nat.mod_lt k (Nat.succ_pos n)
  rw [← Nat.mod_add_mod]
  split
  next h => rw [Nat.mod_eq_of_lt (Nat.succ_lt_succ h)]
  next h =>
    have hlast : k % (n + 1) = n := by omega
    rw [hlast, Nat.mod_self]

/-- Place `r` of block `q`. -/
theorem block_place {n r : ℕ} (h : r < n) (q : ℕ) :
    (n * q + r) / n = q ∧ (n * q + r) % n = r := by
  constructor
  · rw [Nat.mul_add_div (Nat.zero_lt_of_lt h), Nat.div_eq_of_lt h, Nat.add_zero]
  · rw [Nat.mul_add_mod, Nat.mod_eq_of_lt h]

theorem toNat_add_one {w : ℕ} (x : BitVec w) : (x + 1).toNat = (x.toNat + 1) % 2 ^ w := by
  change (x + BitVec.ofNat w 1).toNat = _
  rw [BitVec.toNat_add, BitVec.toNat_ofNat, Nat.add_mod_mod]

variable {w : ℕ} {cntr cfg : BitVec w}

/-- A counter above zero does not wrap on its way down. -/
theorem toNat_sub_one_add_one (h : cntr ≠ 0) :
    (cntr - 1).toNat + 1 = cntr.toNat := by
  have hpos : cntr.toNat ≠ 0 := fun hzero => h (BitVec.eq_of_toNat_eq hzero)
  have hlt := cntr.isLt
  have hone : (1 : BitVec w).toNat = 1 := by
    change (BitVec.ofNat w 1).toNat = 1
    rw [BitVec.toNat_ofNat, Nat.mod_eq_of_lt (by omega)]
  rw [BitVec.toNat_sub, hone]
  have hsum : 2 ^ w - 1 + cntr.toNat = 2 ^ w + (cntr.toNat - 1) := by omega
  rw [hsum, Nat.add_mod_left, Nat.mod_eq_of_lt (by omega)]
  omega

/-- A counter below its limit does not wrap. -/
theorem succ_mod_of_lt (h : cntr < cfg) :
    (cntr.toNat + 1) % 2 ^ w = cntr.toNat + 1 := by
  have hlt : cntr.toNat < cfg.toNat := h
  exact Nat.mod_eq_of_lt (Nat.lt_of_le_of_lt hlt cfg.isLt)

theorem toNat_add_one_of_lt (h : cntr.toNat < cfg.toNat) :
    (cntr + 1).toNat = cntr.toNat + 1 := by
  rw [toNat_add_one]
  exact succ_mod_of_lt h

end Counters
