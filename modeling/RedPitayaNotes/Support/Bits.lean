import Mathlib.Algebra.Order.Ring.Int
import Mathlib.Data.List.Induction

/-!
# Bit vectors given bit by bit

Registers whose bits have separate enables or are assigned in slices are
vectors built from a function of the bit index.
-/

namespace Bits

variable {w : Nat}

/-- The vector whose bit `k` is `f k`. -/
def ofFn (f : Fin w → Bool) : BitVec w :=
  (BitVec.iunfoldr (fun k (_ : Unit) => ((), f k)) ()).2

theorem getLsbD_ofFn (f : Fin w → Bool) (k : Fin w) :
    (ofFn f).getLsbD k = f k :=
  BitVec.iunfoldr_getLsbD (fun _ => ()) k (fun _ => rfl)

@[simp] theorem getElem_ofFn (f : Fin w → Bool) (k : Nat) (hk : k < w) :
    (ofFn f)[k] = f ⟨k, hk⟩ := by
  rw [← BitVec.getLsbD_eq_getElem]
  exact getLsbD_ofFn f ⟨k, hk⟩

/-! ## Assignments to slices -/

/-- `v[lo + n - 1 : lo] <= x`. -/
def assign (v : BitVec w) (lo : Nat) {n : Nat} (x : BitVec n) : BitVec w :=
  ofFn fun k => if lo ≤ k ∧ k < lo + n then x.getLsbD (k - lo) else v[k]

theorem getElem_assign (v : BitVec w) (lo : Nat) {n : Nat} (x : BitVec n)
    (k : Nat) (hk : k < w) :
    (assign v lo x)[k] =
      if lo ≤ k ∧ k < lo + n then x.getLsbD (k - lo) else v[k] := by
  rw [assign, getElem_ofFn]
  rfl

/-! ## Shift registers -/

/-- `{v[w-2:0], b}` -/
def shiftIn (v : BitVec w) (b : Bool) : BitVec w :=
  v <<< 1 ||| (BitVec.ofBool b).setWidth w

theorem getLsbD_shiftIn (v : BitVec w) (b : Bool) {j : Nat} (hj : j < w) :
    (shiftIn v b).getLsbD j = if j = 0 then b else v.getLsbD (j - 1) := by
  rw [shiftIn, BitVec.getLsbD_or, BitVec.getLsbD_shiftLeft, BitVec.getLsbD_setWidth,
    BitVec.getLsbD_ofBool]
  cases j with
  | zero => simp [hj]
  | succ j => simp [hj]

theorem shiftIn_false (v : BitVec w) (m : Nat) : shiftIn (v <<< m) false = v <<< (m + 1) := by
  rw [shiftIn, BitVec.shiftLeft_add]
  simp

/-- After enough shifts the register holds the last bits, the latest lowest. -/
theorem getLsbD_foldl_shiftIn (bits : List Bool) (v : BitVec w) {j : Nat} (hj : j < w)
    (hbits : j < bits.length) :
    (bits.foldl shiftIn v).getLsbD j = bits[bits.length - 1 - j] := by
  induction bits using List.reverseRecOn generalizing j with
  | nil => cases hbits
  | append_singleton bits b ih =>
      rw [List.foldl_append, List.foldl_cons, List.foldl_nil, getLsbD_shiftIn _ b hj]
      rw [List.length_append, List.length_singleton] at hbits
      cases j with
      | zero => simp
      | succ j =>
          have hrest := ih (j := j) (by omega) (by omega)
          rw [if_neg (Nat.succ_ne_zero j), Nat.add_sub_cancel, hrest,
            List.getElem_append_left (by simp; omega)]
          congr 1
          simp
          omega

/-! ## Bytes -/

abbrev Byte := BitVec 8

/-- The bytes of a little-endian word, as they lie in memory. -/
def wordBytes (w : BitVec 32) : List Byte :=
  [w.extractLsb' 0 8, w.extractLsb' 8 8, w.extractLsb' 16 8,
    w.extractLsb' 24 8]

/-- The word that lies in memory as these four bytes. -/
def ofBytes : List Byte → BitVec 32
  | [b0, b1, b2, b3] => b3 ++ b2 ++ b1 ++ b0
  | _ => 0

theorem ofBytes_wordBytes (w : BitVec 32) : ofBytes (wordBytes w) = w := by
  change w.extractLsb' 24 8 ++ w.extractLsb' 16 8 ++ w.extractLsb' 8 8 ++
    w.extractLsb' 0 8 = w
  rw [BitVec.extractLsb'_append_extractLsb'_eq_extractLsb' (by rfl),
    BitVec.extractLsb'_append_extractLsb'_eq_extractLsb' (by rfl),
    BitVec.extractLsb'_append_extractLsb'_eq_extractLsb' (by rfl)]
  exact BitVec.extractLsb'_eq_self

theorem wordBytes_ofBytes (b0 b1 b2 b3 : Byte) :
    wordBytes (ofBytes [b0, b1, b2, b3]) = [b0, b1, b2, b3] := by
  have hlow : (b3 ++ b2 ++ b1 ++ b0).extractLsb' 0 8 = b0 :=
    BitVec.extractLsb'_append_eq_right
  have hone : (b3 ++ b2 ++ b1 ++ b0).extractLsb' 8 8 = b1 := by
    rw [BitVec.extractLsb'_append_eq_of_le (by decide)]
    exact BitVec.extractLsb'_append_eq_right
  have htwo : (b3 ++ b2 ++ b1 ++ b0).extractLsb' 16 8 = b2 := by
    rw [BitVec.extractLsb'_append_eq_of_le (by decide),
      BitVec.extractLsb'_append_eq_of_le (by decide)]
    exact BitVec.extractLsb'_append_eq_right
  have hhigh : (b3 ++ b2 ++ b1 ++ b0).extractLsb' 24 8 = b3 := by
    rw [BitVec.extractLsb'_append_eq_of_le (by decide),
      BitVec.extractLsb'_append_eq_of_le (by decide)]
    exact BitVec.extractLsb'_append_eq_left
  rw [ofBytes, wordBytes, hlow, hone, htwo, hhigh]

/-! ### Words in a row -/

theorem toNat_append_eq_add {v : Nat} (x : BitVec v) (y : BitVec w) :
    (x ++ y).toNat = x.toNat * 2 ^ w + y.toNat := by
  rw [BitVec.toNat_append, ← Nat.shiftLeft_add_eq_or_of_lt y.isLt,
    Nat.shiftLeft_eq]

end Bits
