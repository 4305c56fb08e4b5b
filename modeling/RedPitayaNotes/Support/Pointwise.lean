import Mathlib.Data.List.Forall2

/-!
# Lists related element by element

Mathlib's `List.Forall₂` along concatenations of lists and along a chain of two
relations.
-/

namespace Pointwise

variable {α β γ : Type*}

theorem flatMap {R : β → γ → Prop} {f : α → List β} {g : α → List γ}
    (hfg : ∀ a, List.Forall₂ R (f a) (g a)) (xs : List α) :
    List.Forall₂ R (xs.flatMap f) (xs.flatMap g) := by
  induction xs with
  | nil => exact .nil
  | cons a xs ih =>
      rw [List.flatMap_cons, List.flatMap_cons]
      exact List.rel_append (hfg a) ih

theorem trans {R : α → β → Prop} {S : β → γ → Prop} {T : α → γ → Prop}
    (hRS : ∀ a b c, R a b → S b c → T a c)
    {xs : List α} {ys : List β} {zs : List γ}
    (hxy : List.Forall₂ R xs ys) (hyz : List.Forall₂ S ys zs) :
    List.Forall₂ T xs zs := by
  induction hxy generalizing zs with
  | nil =>
      cases hyz
      exact .nil
  | cons hab _ ih =>
      cases hyz with
      | cons hbc hyz => exact .cons (hRS _ _ _ hab hbc) (ih hyz)

end Pointwise
