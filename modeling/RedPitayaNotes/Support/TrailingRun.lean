import Mathlib.Data.List.DropRight

/-!
# Trailing runs

The longest stretch at the end of a history on which a condition holds.
-/

namespace TrailingRun

variable {γ : Type*} (p : γ → Bool)

/-- For how many events the condition has held by now. -/
def runLength (past : List γ) : ℕ := (past.rtakeWhile p).length

@[simp] theorem runLength_nil : runLength p [] = 0 := rfl

theorem runLength_snoc (past : List γ) (c : γ) :
    runLength p (past ++ [c]) = if p c then runLength p past + 1 else 0 := by
  rw [runLength, List.rtakeWhile_concat]
  split_ifs with hc
  · rw [List.length_append, List.length_singleton]
    rfl
  · rfl

theorem runLength_map {δ : Type*} (f : δ → γ) (past : List δ) :
    runLength p (past.map f) = runLength (p ∘ f) past := by
  induction past using List.reverseRecOn with
  | nil => rfl
  | append_singleton past c ih =>
      rw [List.map_append, List.map_singleton, runLength_snoc, runLength_snoc,
        ih]
      rfl

/-- The events at the end of a history on which the condition holds are as many
as one likes, up to the length of the trailing run. -/
theorem le_runLength_iff {past : List γ} {n : ℕ} :
    n ≤ runLength p past ↔
      ∃ recent, recent <:+ past ∧ recent.length = n ∧
        ∀ c ∈ recent, p c = true := by
  constructor
  · intro h
    refine ⟨(past.rtakeWhile p).drop (runLength p past - n), ?_, ?_, ?_⟩
    · exact (List.drop_suffix _ _).trans (List.rtakeWhile_suffix p past)
    · rw [List.length_drop]
      change runLength p past - (runLength p past - n) = n
      omega
    · intro c hc
      exact List.mem_rtakeWhile_imp (List.mem_of_mem_drop hc)
  · rintro ⟨recent, ⟨before, rfl⟩, rfl, hall⟩
    induction recent using List.reverseRecOn with
    | nil => exact Nat.zero_le _
    | append_singleton recent c ih =>
        rw [List.forall_mem_append] at hall
        have hc : p c = true := hall.2 c List.mem_cons_self
        rw [← List.append_assoc, runLength_snoc, if_pos hc,
          List.length_append, List.length_singleton]
        exact Nat.succ_le_succ (ih hall.1)

end TrailingRun
