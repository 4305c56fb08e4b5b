import Mathlib.Data.List.Basic
import Mathlib.Data.List.TakeDrop

/-!
# Slices with a step

Every `step`-th entry of a list.  Of a list made of groups of `step` entries the
slice from `start` on has entry `start` of every group.
-/

namespace Strides

variable {α β : Type*}

/-- The first entry, and every further one after `skip` others. -/
def stride (skip : ℕ) : List α → List α
  | [] => []
  | x :: xs => x :: stride skip (xs.drop skip)
termination_by xs => xs.length
decreasing_by
  rw [List.length_drop, List.length_cons]
  omega

/-- `xs[start::step]` -/
def slice (start step : ℕ) (xs : List α) : List α :=
  stride (step - 1) (xs.drop start)

theorem getElem?_stride (skip : ℕ) (xs : List α) (k : ℕ) :
    (stride skip xs)[k]? = xs[(skip + 1) * k]? := by
  induction k generalizing xs with
  | zero => cases xs <;> simp [stride]
  | succ k ih =>
      cases xs with
      | nil => simp [stride]
      | cons x xs =>
          rw [stride, List.getElem?_cons_succ, ih, List.getElem?_drop,
            Nat.mul_succ, ← Nat.add_assoc, List.getElem?_cons_succ, Nat.add_comm]

variable {start step : ℕ}

theorem getElem?_slice (hstep : 0 < step) (xs : List α) (k : ℕ) :
    (slice start step xs)[k]? = xs[start + step * k]? := by
  rw [slice, getElem?_stride, List.getElem?_drop, Nat.sub_add_cancel hstep]

end Strides
