import Mathlib.Data.Finset.Basic
import Mathlib.Data.List.Infix
import Mathlib.Logic.Function.Basic

/-!
# Handles and their owners

A program acquires handles from its environment, uses them and releases them.
The environment does not hand out a handle that is live.  A program that keeps
its handles in a table, one at each place, and only ever uses what is in the
table, leaks no handle and uses none that it has released.
-/

namespace Handles

variable {H ι : Type*}

inductive Action (H : Type*) where
  | acquire (h : H)
  | use (h : H)
  | release (h : H)
deriving DecidableEq, Repr

section Live

variable [DecidableEq H]

def Action.apply (live : Finset H) : Action H → Finset H
  | acquire h => insert h live
  | use _ => live
  | release h => live.erase h

/-- The handles acquired and not released since. -/
def live (past : List (Action H)) : Finset H :=
  past.foldl Action.apply ∅

@[simp] theorem live_nil : live ([] : List (Action H)) = ∅ := rfl

@[simp] theorem live_snoc (past : List (Action H)) (a : Action H) :
    live (past ++ [a]) = a.apply (live past) := by
  rw [live, List.foldl_append]
  rfl

/-- A handle is acquired only if it is not live. -/
def Fresh (as : List (Action H)) : Prop :=
  ∀ past h, past ++ [.acquire h] <+: as → h ∉ live past

/-- A handle is used or released only if it is live. -/
def Safe (as : List (Action H)) : Prop :=
  ∀ past h, past ++ [.use h] <+: as ∨ past ++ [.release h] <+: as →
    h ∈ live past

/-- What the action asks of the handles that are live. -/
def Action.Allowed (live : Finset H) : Action H → Prop
  | acquire _ => True
  | use h => h ∈ live
  | release h => h ∈ live

theorem prefix_snoc_iff {α : Type*} {xs ys : List α} {x y : α} :
    xs ++ [x] <+: ys ++ [y] ↔ xs ++ [x] <+: ys ∨ xs = ys ∧ x = y := by
  rw [List.prefix_concat_iff, or_comm]
  refine or_congr Iff.rfl ?_
  constructor
  · intro h
    obtain ⟨hxs, hx⟩ := List.append_inj' h rfl
    exact ⟨hxs, List.singleton_inj.mp hx⟩
  · rintro ⟨rfl, rfl⟩
    rfl

theorem Fresh.of_prefix {as bs : List (Action H)} (h : Fresh bs)
    (hpast : as <+: bs) : Fresh as :=
  fun past handle hacq => h past handle (hacq.trans hpast)

theorem fresh_nil : Fresh ([] : List (Action H)) := by
  intro past h hpast
  exact absurd (List.prefix_nil.mp hpast) (by simp)

theorem Fresh.snoc {as : List (Action H)} (h : Fresh as) {a : Action H}
    (ha : ∀ h, a = .acquire h → h ∉ live as) : Fresh (as ++ [a]) := by
  intro past handle hpast
  rcases prefix_snoc_iff.mp hpast with hold | ⟨rfl, rfl⟩
  · exact h past handle hold
  · exact ha handle rfl

theorem Fresh.not_mem {as : List (Action H)} {h : H}
    (hfresh : Fresh (as ++ [.acquire h])) : h ∉ live as :=
  hfresh as h List.prefix_rfl

theorem safe_nil : Safe ([] : List (Action H)) := by
  rintro past h (hpast | hpast) <;>
    exact absurd (List.prefix_nil.mp hpast) (by simp)

theorem Safe.snoc {as : List (Action H)} (h : Safe as) {a : Action H}
    (ha : a.Allowed (live as)) : Safe (as ++ [a]) := by
  rintro past handle (hpast | hpast) <;>
    rcases prefix_snoc_iff.mp hpast with hold | ⟨rfl, rfl⟩
  · exact h past handle (Or.inl hold)
  · exact ha
  · exact h past handle (Or.inr hold)
  · exact ha

end Live

/-! ## Tables -/

variable [DecidableEq H] {table : ι → Option H} {past : List (Action H)}

/-- The live handles are the entries of the table, each at one place. -/
structure Owned (table : ι → Option H) (past : List (Action H)) : Prop where
  safe : Safe past
  live_iff : ∀ h, h ∈ live past ↔ ∃ i, table i = some h
  unique : ∀ i j h, table i = some h → table j = some h → i = j

namespace Owned

theorem empty (h : ∀ i, table i = none) : Owned table [] where
  safe := safe_nil
  live_iff := by simp [h]
  unique := by simp [h]

theorem mem_live (o : Owned table past) {i : ι} {h : H}
    (hi : table i = some h) : h ∈ live past :=
  (o.live_iff h).mpr ⟨i, hi⟩

theorem use (o : Owned table past) {i : ι} {h : H} (hi : table i = some h) :
    Owned table (past ++ [.use h]) where
  safe := o.safe.snoc (o.mem_live hi)
  live_iff := by
    rw [live_snoc]
    exact o.live_iff
  unique := o.unique

/-- A handle that is released at once is in no table. -/
theorem pass (o : Owned table past) {h : H} (hfresh : h ∉ live past) :
    Owned table (past ++ [.acquire h] ++ [.release h]) where
  safe := by
    have hacquire : Safe (past ++ [.acquire h]) := o.safe.snoc trivial
    refine hacquire.snoc ?_
    rw [live_snoc]
    exact Finset.mem_insert_self h _
  live_iff := by
    rw [live_snoc, live_snoc, Action.apply, Action.apply,
      Finset.erase_insert hfresh]
    exact o.live_iff
  unique := o.unique

variable [DecidableEq ι]

theorem acquire (o : Owned table past) {i : ι} {h : H} (hi : table i = none)
    (hfresh : h ∉ live past) :
    Owned (Function.update table i (some h)) (past ++ [.acquire h]) where
  safe := o.safe.snoc trivial
  live_iff := by
    intro k
    rw [live_snoc, Action.apply, Finset.mem_insert, o.live_iff]
    constructor
    · rintro (rfl | ⟨j, hj⟩)
      · exact ⟨i, Function.update_self _ _ _⟩
      · have hne : j ≠ i := by
          rintro rfl
          rw [hi] at hj
          cases hj
        exact ⟨j, by rw [Function.update_of_ne hne, hj]⟩
    · rintro ⟨j, hj⟩
      by_cases hne : j = i
      · rw [hne, Function.update_self] at hj
        exact Or.inl (Option.some.inj hj).symm
      · rw [Function.update_of_ne hne] at hj
        exact Or.inr ⟨j, hj⟩
  unique := by
    have hother : ∀ j, j ≠ i → Function.update table i (some h) j ≠ some h := by
      intro j hne hj
      rw [Function.update_of_ne hne] at hj
      exact hfresh (o.mem_live hj)
    intro j k g hj hk
    by_cases hji : j = i <;> by_cases hki : k = i
    · rw [hji, hki]
    · rw [hji, Function.update_self] at hj
      exact absurd (hk.trans hj.symm) (hother k hki)
    · rw [hki, Function.update_self] at hk
      exact absurd (hj.trans hk.symm) (hother j hji)
    · rw [Function.update_of_ne hji] at hj
      rw [Function.update_of_ne hki] at hk
      exact o.unique j k g hj hk

theorem release (o : Owned table past) {i : ι} {h : H}
    (hi : table i = some h) :
    Owned (Function.update table i none) (past ++ [.release h]) where
  safe := o.safe.snoc (o.mem_live hi)
  live_iff := by
    intro k
    rw [live_snoc, Action.apply, Finset.mem_erase, o.live_iff]
    constructor
    · rintro ⟨hne, j, hj⟩
      have hji : j ≠ i := by
        rintro rfl
        exact hne (Option.some.inj (hj.symm.trans hi))
      exact ⟨j, by rw [Function.update_of_ne hji, hj]⟩
    · rintro ⟨j, hj⟩
      by_cases hji : j = i
      · rw [hji, Function.update_self] at hj
        cases hj
      · rw [Function.update_of_ne hji] at hj
        refine ⟨?_, j, hj⟩
        rintro rfl
        exact hji (o.unique j i k hj hi)
  unique := by
    intro j k g hj hk
    by_cases hji : j = i
    · rw [hji, Function.update_self] at hj
      cases hj
    by_cases hki : k = i
    · rw [hki, Function.update_self] at hk
      cases hk
    rw [Function.update_of_ne hji] at hj
    rw [Function.update_of_ne hki] at hk
    exact o.unique j k g hj hk

end Owned

end Handles
