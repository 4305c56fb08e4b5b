import Mathlib.Data.List.Basic
import Mathlib.Data.List.Flatten

/-!
# Parsers of binary formats

A parser takes a value off the front of the input.  It reads a piece of input as
a value if it takes exactly that piece, whatever follows; a parser put together
from parts reads what its parts read, one after the other.
-/

/-- A parser of words of type `β`. -/
abbrev Parser (β : Type) (α : Type) := StateT (List β) Option α

namespace Parser

variable {β : Type} {α γ : Type}

/-- The parser takes `piece` as `x`. -/
def Reads (p : Parser β α) (piece : List β) (x : α) : Prop :=
  ∀ rest, p.run (piece ++ rest) = some (x, rest)

theorem Reads.pure (x : α) : Reads (pure x : Parser β α) [] x :=
  fun _ => rfl

theorem Reads.bind {p : Parser β α} {q : α → Parser β γ} {xs ys : List β} {x : α}
    {y : γ} (hp : Reads p xs x) (hq : Reads (q x) ys y) :
    Reads (p >>= q) (xs ++ ys) y := by
  intro rest
  rw [List.append_assoc, StateT.run_bind, hp]
  exact hq rest

theorem Reads.map {p : Parser β α} {xs : List β} {x : α} (hp : Reads p xs x)
    (f : α → γ) : Reads (p >>= fun a => Pure.pure (f a)) xs (f x) := by
  have hbind := hp.bind (q := fun a => Pure.pure (f a)) (Reads.pure (f x))
  rwa [List.append_nil] at hbind

/-! ## Pieces of a given length -/

/-- The next `n` words. -/
def take (n : ℕ) : Parser β (List β) := fun input =>
  if n ≤ input.length then some (input.take n, input.drop n) else none

theorem reads_take (piece : List β) : Reads (take piece.length) piece piece := by
  intro rest
  change (if piece.length ≤ (piece ++ rest).length then _ else _) = _
  rw [if_pos (by rw [List.length_append]; exact Nat.le_add_right _ _),
    List.take_left, List.drop_left]

/-! ## Repetition -/

/-- A value `n` times. -/
def times (p : Parser β α) : ℕ → Parser β (List α)
  | 0 => pure []
  | n + 1 => do
    let x ← p
    let xs ← times p n
    return x :: xs

/-- Values up to an end, at most `n`. -/
def all (stop : List β → Bool) (p : Parser β α) :
    ℕ → List β → Option (List α)
  | 0, input => if stop input then some [] else none
  | n + 1, input =>
    if stop input then some []
    else do
      let (x, rest) ← p.run input
      let xs ← all stop p n rest
      return x :: xs

/-- Pieces that are not empty are as many as their words at most. -/
theorem length_le_flatMap (encode : α → List β) {xs : List α}
    (h : ∀ x ∈ xs, 1 ≤ (encode x).length) :
    xs.length ≤ (xs.flatMap encode).length := by
  induction xs with
  | nil => exact Nat.zero_le _
  | cons x xs ih =>
      rw [List.forall_mem_cons] at h
      have hrest := ih h.2
      rw [List.flatMap_cons, List.length_append, List.length_cons]
      omega

theorem all_of_reads {stop : List β → Bool} {p : Parser β α}
    (encode : α → List β) {xs : List α} {tail : List β}
    (h : ∀ x ∈ xs, Reads p (encode x) x)
    (hgo : ∀ x ∈ xs, ∀ rest, stop (encode x ++ rest) = false)
    (hstop : stop tail = true) {n : ℕ} (hn : xs.length ≤ n) :
    all stop p n (xs.flatMap encode ++ tail) = some xs := by
  induction xs generalizing n with
  | nil =>
      cases n with
      | zero => exact if_pos hstop
      | succ n => exact if_pos hstop
  | cons x xs ih =>
      rw [List.forall_mem_cons] at h hgo
      cases n with
      | zero => exact absurd hn (Nat.not_succ_le_zero _)
      | succ n =>
          have hrest := ih h.2 hgo.2 (Nat.le_of_succ_le_succ hn)
          rw [List.flatMap_cons, List.append_assoc, all,
            if_neg (by rw [hgo.1]; exact Bool.false_ne_true), h.1]
          change (all stop p n (xs.flatMap encode ++ tail)).bind _ = _
          rw [hrest]
          rfl

end Parser
