import Mathlib.Data.List.Count
import Mathlib.Data.List.GetD

/-!
# Pools of threads

A program that starts threads and never waits for them keeps them in a list.  A
step of one of them replaces it and leaves the others; if at most one thread of
the pool has a property, the others can do nothing that only such threads do.
-/

namespace Threads

variable {α : Type*} {p : α → Bool} {pool xs ys : List α} {t : α}

/-- A thread of the pool and the others. -/
theorem exists_split {i : ℕ} (h : pool[i]? = some t) :
    ∃ xs ys, pool = xs ++ t :: ys ∧ ∀ t', pool.set i t' = xs ++ t' :: ys := by
  obtain ⟨hi, ht⟩ := List.getElem?_eq_some_iff.mp h
  refine ⟨pool.take i, pool.drop (i + 1), ?_, fun t' => ?_⟩
  · rw [← ht, List.getElem_cons_drop, List.take_append_drop]
  · rw [List.set_eq_take_append_cons_drop, if_pos hi]

theorem countP_split (p : α → Bool) (xs ys : List α) (t : α) :
    (xs ++ t :: ys).countP p = (xs ++ ys).countP p + (p t).toNat := by
  rw [List.countP_append, List.countP_append, List.countP_cons, ← Nat.add_assoc]
  cases p t <;> rfl

theorem countP_snoc (p : α → Bool) (pool : List α) (t : α) :
    (pool ++ [t]).countP p = pool.countP p + (p t).toNat := by
  rw [countP_split, List.append_nil]

/-- What holds of the new thread and of the others holds of the pool. -/
theorem forall_split {P : α → Prop} :
    (∀ x ∈ xs ++ t :: ys, P x) ↔ P t ∧ ∀ x ∈ xs ++ ys, P x := by
  simp only [List.mem_append, List.mem_cons]
  constructor
  · intro h
    exact ⟨h t (Or.inr (Or.inl rfl)),
      fun x hx => h x (hx.imp_right Or.inr)⟩
  · rintro ⟨ht, hothers⟩ x (hx | rfl | hx)
    · exact hothers x (Or.inl hx)
    · exact ht
    · exact hothers x (Or.inr hx)

/-- A thread with the property has all that `c` allows: no other thread has it,
and none is to be created with it. -/
theorem alone {b c : Bool}
    (hheld : (xs ++ t :: ys).countP p + b.toNat ≤ c.toNat) (ht : p t = true) :
    c = true ∧ b = false ∧ (xs ++ ys).countP p = 0 := by
  rw [countP_split, ht, Bool.toNat_true] at hheld
  have hbound := Bool.toNat_le c
  refine ⟨?_, ?_, by omega⟩
  · by_contra hfree
    rw [eq_false_of_ne_true hfree, Bool.toNat_false] at hheld
    omega
  · by_contra hcreating
    rw [eq_true_of_ne_false hcreating, Bool.toNat_true] at hheld
    omega

theorem two_le_countP {i j : ℕ} {u : α} (hlt : i < j) (hi : pool[i]? = some t)
    (hj : pool[j]? = some u) (ht : p t = true) (hu : p u = true) :
    2 ≤ pool.countP p := by
  have hfront : (pool.take j)[i]? = some t := by
    rw [List.getElem?_take_of_lt hlt, hi]
  have hback : (pool.drop j)[0]? = some u := by
    rw [List.getElem?_drop, Nat.add_zero, hj]
  have hone : 0 < (pool.take j).countP p :=
    List.countP_pos_iff.mpr ⟨t, List.mem_of_getElem? hfront, ht⟩
  have htwo : 0 < (pool.drop j).countP p :=
    List.countP_pos_iff.mpr ⟨u, List.mem_of_getElem? hback, hu⟩
  rw [← List.take_append_drop j pool, List.countP_append]
  omega

/-- If at most one thread has the property, it has one place. -/
theorem unique {i j : ℕ} {u : α} (hone : pool.countP p ≤ 1)
    (hi : pool[i]? = some t) (hj : pool[j]? = some u) (ht : p t = true)
    (hu : p u = true) : i = j := by
  rcases Nat.lt_trichotomy i j with hlt | heq | hlt
  · have htwo := two_le_countP hlt hi hj ht hu
    omega
  · exact heq
  · have htwo := two_le_countP hlt hj hi hu ht
    omega

end Threads
