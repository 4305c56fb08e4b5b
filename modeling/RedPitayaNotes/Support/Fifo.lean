import RedPitayaNotes.Support.Elastic

/-!
# Synchronous FIFOs

The ports of a first-word-fall-through FIFO: what it reports and presents is a
function of its state, and the state is updated on the clock edge.  The two
sides may have words of different types.
-/

open Elastic

universe u v w

structure Fifo (α : Type u) (β : Type v) where
  State : Type w
  full : State → Bool
  rdDataCount : State → Nat
  dout : State → β
  /-- The edge: `rst`, `wr_en` and `din`, `rd_en`. -/
  step : Bool → State → Bool → α → Bool → State

namespace Fifo

/-- A FIFO that delivers each word it takes, in order, as `word` reads it.  It
ignores a write while it is full and a read while it is empty. -/
structure Queue {α : Type u} {β : Type v} (f : Fifo.{u, v, w} α β)
    (word : α → β) where
  contents : f.State → List β
  contents_reset : ∀ s wrEn din rdEn, contents (f.step true s wrEn din rdEn) = []
  contents_step : ∀ s wrEn din rdEn, contents (f.step false s wrEn din rdEn) =
    (if rdEn then (contents s).tail else contents s) ++
      transfer wrEn (!f.full s) (word din)
  dout_eq : ∀ s x xs, contents s = x :: xs → f.dout s = x

/-- The words leave in the order in which they came. -/
theorem Queue.step_lossless {α : Type u} {β : Type v} {f : Fifo.{u, v, w} α β}
    {word : α → β} (q : f.Queue word) (s : f.State) (wrEn : Bool) (din : α)
    (rdEn : Bool) :
    Lossless (q.contents s) (transfer wrEn (!f.full s) (word din))
      (transfer (!(q.contents s).isEmpty) rdEn (f.dout s))
      (q.contents (f.step false s wrEn din rdEn)) := by
  rw [Lossless, q.contents_step]
  cases hs : q.contents s with
  | nil => cases rdEn <;> rfl
  | cons x xs =>
      rw [q.dout_eq s x xs hs]
      cases rdEn <;> rfl

theorem Queue.length_step_le {α : Type u} {β : Type v} {f : Fifo.{u, v, w} α β}
    {word : α → β} (q : f.Queue word) (s : f.State) (wrEn : Bool) (din : α)
    (rdEn : Bool) :
    (q.contents (f.step false s wrEn din rdEn)).length ≤
      (q.contents s).length + (wrEn && !f.full s).toNat := by
  rw [q.contents_step, List.length_append, length_transfer]
  apply Nat.add_le_add_right
  split
  · rw [List.length_tail]
    exact Nat.sub_le _ _
  · exact Nat.le_refl _

/-- An ideal FIFO with one word type: the read count is exact. -/
structure Ideal {α : Type u} (f : Fifo.{u, u, w} α α) extends
    Queue f (id : α → α) where
  rdDataCount_eq : ∀ s, f.rdDataCount s = (contents s).length

/-- A FIFO of `depth` words with one word type and an exact count. -/
def words (α : Type u) [Inhabited α] (depth : Nat) : Fifo α α where
  State := List α
  full xs := depth ≤ xs.length
  rdDataCount xs := xs.length
  dout xs := xs.headD default
  step rst xs wrEn din rdEn :=
    if rst then []
    else
      (if rdEn then xs.tail else xs) ++
        (if wrEn && decide (xs.length < depth) then [din] else [])

/-- The list of words is its own contents. -/
def idealWords (α : Type u) [Inhabited α] (depth : Nat) :
    (words α depth).Ideal where
  contents xs := xs
  contents_reset _ _ _ _ := rfl
  contents_step xs wrEn din rdEn := by
    by_cases hfull : depth ≤ xs.length
    · simp [words, transfer, hfull, Nat.not_lt.mpr hfull]
    · simp [words, transfer, hfull, Nat.lt_of_not_le hfull]
  dout_eq xs x xs' h := by
    subst h
    rfl
  rdDataCount_eq _ := rfl

end Fifo

/-! ## The write count -/

/-- A FIFO that also reports `empty` and the words written and not yet read. -/
structure CountedFifo (α : Type u) (β : Type v) extends Fifo.{u, v, w} α β where
  empty : State → Bool
  wrDataCount : State → Nat

namespace CountedFifo

/-- The space of an ideal FIFO of `depth` words, whatever the width in which it
is read: a write takes the space of one word, and a read takes none. -/
structure Space {α : Type u} {β : Type v} (f : CountedFifo.{u, v, w} α β)
    (depth : Nat) where
  used : f.State → Nat
  used_reset : ∀ s wrEn din rdEn, used (f.step true s wrEn din rdEn) = 0
  used_step_le : ∀ s wrEn din rdEn, used (f.step false s wrEn din rdEn) ≤
    used s + (wrEn && !f.full s).toNat
  full_iff : ∀ s, f.full s = true ↔ depth ≤ used s
  wrDataCount_eq : ∀ s, f.wrDataCount s = used s

/-- The words of an ideal FIFO that is read in the width in which it is
written. -/
structure Ideal {α : Type u} {β : Type v} (f : CountedFifo.{u, v, w} α β)
    (word : α → β) extends f.toFifo.Queue word where
  empty_eq : ∀ s, f.empty s = (contents s).isEmpty

def words (α : Type u) [Inhabited α] (depth : Nat) : CountedFifo α α where
  toFifo := Fifo.words α depth
  empty xs := List.isEmpty xs
  wrDataCount xs := List.length xs

def idealWords (α : Type u) [Inhabited α] (depth : Nat) :
    (words α depth).Ideal id where
  toQueue := (Fifo.idealWords α depth).toQueue
  empty_eq _ := rfl

def spaceWords (α : Type u) [Inhabited α] (depth : Nat) :
    (words α depth).Space depth where
  used xs := List.length xs
  used_reset _ _ _ _ := rfl
  used_step_le := (Fifo.idealWords α depth).length_step_le
  full_iff xs := by
    change decide (depth ≤ List.length xs) = true ↔ _
    rw [decide_eq_true_eq]
  wrDataCount_eq _ := rfl

end CountedFifo
