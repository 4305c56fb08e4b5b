import Mathlib.Data.List.Chain
import Mathlib.Data.List.Infix

/-!
# Maximal runs

A maximal run of a relation in a list is a stretch of neighbours that all stand
in the relation and that cannot be made longer.  Where the list shows a chain of
states, what holds at the ends of a run follows from what three states in a row
can do.
-/

namespace MaximalRuns

variable {σ β : Type*} {R : σ → σ → Prop} {r : β → β → Prop} {f : σ → β}
  {states : List σ} {before run after : List β}

structure MaximalRun (r : β → β → Prop) (before run after : List β) : Prop where
  chain : run.IsChain r
  two_le : 2 ≤ run.length
  start : ∀ x ∈ before.getLast?, ∀ y ∈ run.head?, ¬r x y
  stop : ∀ x ∈ run.getLast?, ∀ y ∈ after.head?, ¬r x y

theorem MaximalRun.exists_cons_cons (hrun : MaximalRun r before run after) :
    ∃ x y rest, run = x :: y :: rest := by
  match run, hrun.two_le with
  | x :: y :: rest, _ => exact ⟨x, y, rest, rfl⟩

/-- Three neighbours of what a chain shows are shown by three of its states. -/
theorem exists_three (h : states.IsChain R) {xs ys : List β} {x y z : β}
    (hsplit : states.map f = xs ++ x :: y :: z :: ys) :
    ∃ a b c, f a = x ∧ f b = y ∧ f c = z ∧ R a b ∧ R b c := by
  obtain ⟨as, rest, rfl, -, hrest⟩ := List.map_eq_append_iff.mp hsplit
  obtain ⟨a, rest, rfl, ha, hrest⟩ := List.map_eq_cons_iff.mp hrest
  obtain ⟨b, rest, rfl, hb, hrest⟩ := List.map_eq_cons_iff.mp hrest
  obtain ⟨c, rest, rfl, hc, -⟩ := List.map_eq_cons_iff.mp hrest
  have hchain := h.right_of_append
  rw [List.isChain_cons_cons, List.isChain_cons_cons] at hchain
  exact ⟨a, b, c, ha, hb, hc, hchain.1, hchain.2.1⟩

/-- A run that does not start the list starts at `lo`. -/
theorem MaximalRun.head_eq (hrun : MaximalRun r before run after)
    (h : states.IsChain R) (hsplit : states.map f = before ++ run ++ after)
    {lo : β} (hstart : ∀ a b c, R a b → R b c → ¬r (f a) (f b) →
      r (f b) (f c) → f b = lo) :
    before = [] ∨ run.head? = some lo := by
  obtain ⟨y, z, run, rfl⟩ := hrun.exists_cons_cons
  obtain ⟨hchain, -, hfirst, -⟩ := hrun
  rcases List.eq_nil_or_concat' before with rfl | ⟨before, x, rfl⟩
  · exact Or.inl rfl
  · simp only [List.append_assoc, List.cons_append,
      List.nil_append] at hsplit
    obtain ⟨a, b, c, ha, hb, hc, hab, hbc⟩ := exists_three h hsplit
    have hnot : ¬r x y := hfirst x (by simp) y rfl
    have hstep := (List.isChain_cons_cons.mp hchain).1
    rw [← ha, ← hb] at hnot
    rw [← hb, ← hc] at hstep
    right
    rw [List.head?_cons, ← hb, hstart a b c hab hbc hnot hstep]

/-- A run that does not end the list ends at `hi`. -/
theorem MaximalRun.getLast_eq (hrun : MaximalRun r before run after)
    (h : states.IsChain R) (hsplit : states.map f = before ++ run ++ after)
    {hi : β} (hstop : ∀ a b c, R a b → R b c → r (f a) (f b) →
      ¬r (f b) (f c) → f b = hi) :
    after = [] ∨ run.getLast? = some hi := by
  obtain ⟨hchain, htwo, -, hlast⟩ := hrun
  cases after with
  | nil => exact Or.inl rfl
  | cons z after =>
      rcases List.eq_nil_or_concat' run with rfl | ⟨run, y, rfl⟩
      · simp at htwo
      rcases List.eq_nil_or_concat' run with rfl | ⟨run, x, rfl⟩
      · simp at htwo
      simp only [List.append_assoc, List.cons_append,
        List.nil_append] at hsplit
      rw [← List.append_assoc] at hsplit
      obtain ⟨a, b, c, ha, hb, hc, hab, hbc⟩ := exists_three h hsplit
      have hnot : ¬r y z := hlast y (by simp) z rfl
      rw [List.append_assoc] at hchain
      have hstep := (List.isChain_cons_cons.mp hchain.right_of_append).1
      rw [← hb, ← hc] at hnot
      rw [← ha, ← hb] at hstep
      right
      rw [List.getLast?_concat, ← hb, hstop a b c hab hbc hstep hnot]

end MaximalRuns
