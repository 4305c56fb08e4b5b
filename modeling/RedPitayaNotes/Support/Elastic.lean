import Mathlib.Data.List.Basic
import Mathlib.Data.List.Flatten

/-!
# Valid/ready channels and lossless stages

A channel moves a word in exactly the cycles in which its producer is valid and
its consumer ready.  A stage that stores words is lossless when, in every cycle,
what it held followed by what it accepts is what it delivers followed by what it
then holds.  Lossless stages compose.
-/

namespace Elastic

variable {α : Type*}

/-- The words moved over a channel in one cycle: one or none. -/
def transfer (valid ready : Bool) (data : α) : List α :=
  if valid && ready then [data] else []

@[simp] theorem transfer_false_left (ready : Bool) (data : α) :
    transfer false ready data = [] := by
  simp [transfer]

@[simp] theorem transfer_false_right (valid : Bool) (data : α) :
    transfer valid false data = [] := by
  simp [transfer]

@[simp] theorem transfer_true_true (data : α) :
    transfer true true data = [data] := by
  simp [transfer]

theorem length_transfer (valid ready : Bool) (data : α) :
    (transfer valid ready data).length = (valid && ready).toNat := by
  cases valid <;> cases ready <;> rfl

/-- Of two cycles in a row: a source that is not accepted keeps its word. -/
def Holds {γ : Type*} (valid ready : γ → Bool) (data : γ → α) (c d : γ) : Prop :=
  valid c = true → ready c = false → valid d = true ∧ data d = data c

instance {γ : Type*} [DecidableEq α] (valid ready : γ → Bool) (data : γ → α)
    (c d : γ) : Decidable (Holds valid ready data c d) :=
  inferInstanceAs (Decidable (_ → _))

/-- A start pulse goes out as a request in its own cycle or is kept pending,
and a pulse on top of a pending one is lost. -/
theorem pulse_balance (start pending ready : Bool) (data : α) :
    pending.toNat + start.toNat =
      (transfer (start || pending) ready data).length +
        (if (start || pending) && ready then false
          else if start then true else pending).toNat +
        (start && pending).toNat := by
  rw [length_transfer]
  cases start <;> cases pending <;> cases ready <;> rfl

/-- One cycle of a stage neither loses, repeats nor reorders a word. -/
def Lossless (before accepted delivered after : List α) : Prop :=
  before ++ accepted = delivered ++ after

/-- Two lossless stages in a row, the first feeding the second, form a
lossless stage holding the words of the second ahead of those of the first. -/
theorem Lossless.comp
    {before₁ after₁ before₂ after₂ accepted moved delivered : List α}
    (h₁ : Lossless before₁ accepted moved after₁)
    (h₂ : Lossless before₂ moved delivered after₂) :
    Lossless (before₂ ++ before₁) accepted delivered (after₂ ++ after₁) := by
  unfold Lossless at *
  calc
    (before₂ ++ before₁) ++ accepted = before₂ ++ (moved ++ after₁) := by
      rw [List.append_assoc, h₁]
    _ = (delivered ++ after₂) ++ after₁ := by
      rw [← List.append_assoc, h₂]
    _ = delivered ++ (after₂ ++ after₁) := List.append_assoc _ _ _

/-- A stage that takes at most what is offered in each cycle takes all that is
offered only if it does so in every cycle. -/
theorem flatMap_eq_iff_of_sublist {γ : Type*} {taken offered : γ → List α}
    (h : ∀ c, (taken c).Sublist (offered c)) (cycles : List γ) :
    cycles.flatMap taken = cycles.flatMap offered ↔
      ∀ c ∈ cycles, taken c = offered c := by
  have hlen : ∀ cycles : List γ, (cycles.flatMap taken).length ≤
      (cycles.flatMap offered).length := by
    intro cycles
    induction cycles with
    | nil => simp
    | cons c cycles ih =>
        have hc := (h c).length_le
        simp only [List.flatMap_cons, List.length_append]
        omega
  induction cycles with
  | nil => simp
  | cons c cycles ih =>
      rw [List.flatMap_cons, List.flatMap_cons, List.forall_mem_cons]
      constructor
      · intro heq
        have hall := congrArg List.length heq
        have hc := (h c).length_le
        have hrest := hlen cycles
        rw [List.length_append, List.length_append] at hall
        have hsame : taken c = offered c := (h c).eq_of_length (by omega)
        rw [hsame, List.append_cancel_left_eq] at heq
        exact ⟨hsame, ih.mp heq⟩
      · rintro ⟨hc, hrest⟩
        rw [hc, ih.mpr hrest]

/-! ## Stages that compute

A stage takes a word in each cycle in which its register is empty or read, valid
or not, and makes the next word from it and from the word it has.  What it makes
is a function of the valid words if the others leave no trace. -/

section Stages

variable {σ : Type*}

/-- The words made from `xs` by a stage that has made `r`. -/
def outputs (f : σ → α → σ) : σ → List α → List σ
  | _, [] => []
  | r, x :: xs => f r x :: outputs f (f r x) xs

/-- The word of a register. -/
def held (valid : Bool) (r : σ) : List σ := if valid then [r] else []

theorem outputs_const (g : α → σ) (r : σ) (xs : List α) :
    outputs (fun _ x => g x) r xs = xs.map g := by
  induction xs generalizing r with
  | nil => rfl
  | cons x xs ih => rw [outputs, ih, List.map_cons]

theorem map_transfer {γ : Type*} (g : α → γ) (valid ready : Bool) (data : α) :
    (transfer valid ready data).map g = transfer valid ready (g data) := by
  cases valid <;> cases ready <;> rfl

/-- One cycle of a stage. -/
theorem held_outputs (f : σ → α → σ) {r : σ} {x : α}
    {valid inValid outReady inReady : Bool} (hready : inReady = (!valid || outReady))
    (hbubble : inReady = true → inValid = false →
      ∀ ys, outputs f (f r x) ys = outputs f r ys) (ys : List α) :
    held valid r ++ outputs f r (transfer inValid inReady x ++ ys) =
      transfer valid outReady r ++
        (held (if inReady then inValid else valid) (if inReady then f r x else r) ++
          outputs f (if inReady then f r x else r) ys) := by
  subst hready
  cases valid with
  | false =>
      cases inValid with
      | false =>
          have hsame := hbubble rfl rfl ys
          simp [held, hsame]
      | true => simp [held, outputs]
  | true =>
      cases outReady with
      | false => simp [held]
      | true =>
          cases inValid with
          | false =>
              have hsame := hbubble rfl rfl ys
              simp [held, hsame]
          | true => simp [held, outputs]

/-- One cycle of a stage whose words do not depend on earlier ones. -/
theorem held_map (g : α → σ) {r : σ} {x : α}
    {valid inValid outReady inReady : Bool} (hready : inReady = (!valid || outReady))
    (ys : List α) :
    held valid r ++ (transfer inValid inReady x ++ ys).map g =
      transfer valid outReady r ++
        (held (if inReady then inValid else valid) (if inReady then g x else r) ++
          ys.map g) := by
  have hstage : held valid r ++
      outputs (fun _ x => g x) r (transfer inValid inReady x ++ ys) = _ :=
    held_outputs _ hready
      (fun _ _ ys => (outputs_const g _ ys).trans (outputs_const g _ ys).symm) ys
  rwa [outputs_const, outputs_const] at hstage

end Stages

end Elastic
