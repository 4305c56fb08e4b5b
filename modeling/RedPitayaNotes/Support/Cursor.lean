import Mathlib.Data.List.Basic
import RedPitayaNotes.Support.Memory

/-!
# A write cursor over a buffer

A program that builds messages in a fixed buffer stores at a write position and
moves it.  The cursor keeps the position and a log of every access to the
buffer, so that what the program does at any point of a run can be read off the
log.
-/

/-- An access to the buffer, by offset. -/
inductive Access (α : Type*) where
  | store (offset : ℕ) (data : List α)
  | load (offset size : ℕ)
  /-- The write position is set. -/
  | move (offset : ℕ)
deriving DecidableEq

/-- The end of the access. -/
def Access.last {α : Type*} : Access α → ℕ
  | .store offset data => offset + data.length
  | .load offset size => offset + size
  | .move offset => offset

structure Cursor (α : Type*) where
  pos : ℕ
  log : List (Access α)

namespace Cursor

variable {α : Type*}

/-- Stores at the write position and moves it past the data. -/
def put (c : Cursor α) (data : List α) : Cursor α where
  pos := c.pos + data.length
  log := c.log ++ [.store c.pos data]

/-- Stores at the write position and leaves it. -/
def fill (c : Cursor α) (data : List α) : Cursor α where
  pos := c.pos
  log := c.log ++ [.store c.pos data]

def move (c : Cursor α) (offset : ℕ) : Cursor α where
  pos := offset
  log := c.log ++ [.move offset]

def load (c : Cursor α) (offset size : ℕ) : Cursor α where
  pos := c.pos
  log := c.log ++ [.load offset size]

@[simp] theorem pos_put (c : Cursor α) (data : List α) :
    (c.put data).pos = c.pos + data.length := rfl

@[simp] theorem pos_move (c : Cursor α) (offset : ℕ) :
    (c.move offset).pos = offset := rfl

/-- Every access so far was inside the first `limit` cells. -/
def Within (limit : ℕ) (c : Cursor α) : Prop := ∀ a ∈ c.log, a.last ≤ limit

instance (limit : ℕ) (c : Cursor α) : Decidable (c.Within limit) :=
  inferInstanceAs (Decidable (∀ a ∈ c.log, a.last ≤ limit))

variable {limit : ℕ}

theorem within_snoc {c c' : Cursor α} {a : Access α}
    (h : c'.log = c.log ++ [a]) :
    c'.Within limit ↔ c.Within limit ∧ a.last ≤ limit := by
  rw [Within, Within, h, List.forall_mem_append, List.forall_mem_singleton]

@[simp] theorem within_put {c : Cursor α} {data : List α} :
    (c.put data).Within limit ↔
      c.Within limit ∧ c.pos + data.length ≤ limit :=
  within_snoc (a := .store c.pos data) rfl

@[simp] theorem within_fill {c : Cursor α} {data : List α} :
    (c.fill data).Within limit ↔
      c.Within limit ∧ c.pos + data.length ≤ limit :=
  within_snoc (a := .store c.pos data) rfl

@[simp] theorem within_move {c : Cursor α} {offset : ℕ} :
    (c.move offset).Within limit ↔ c.Within limit ∧ offset ≤ limit :=
  within_snoc (a := .move offset) rfl

@[simp] theorem within_load {c : Cursor α} {offset size : ℕ} :
    (c.load offset size).Within limit ↔
      c.Within limit ∧ offset + size ≤ limit :=
  within_snoc (a := .load offset size) rfl

/-! ## What the buffer holds

The log, run on a memory, gives what the buffer holds and what was loaded from
it. -/

/-- The memory and what was loaded, so far. -/
structure Contents (α : Type*) where
  memory : ℕ → α
  loaded : List (List α)

def Contents.access (s : Contents α) : Access α → Contents α
  | .store offset data => { s with memory := Memory.store s.memory offset data }
  | .load offset size =>
    { s with loaded := s.loaded ++ [Memory.read s.memory offset size] }
  | .move _ => s

/-- After all accesses of the log, on a buffer that holds `memory`. -/
def contents (memory : ℕ → α) (c : Cursor α) : Contents α :=
  c.log.foldl Contents.access ⟨memory, []⟩

variable (memory : ℕ → α) (c : Cursor α)

theorem contents_snoc {c' : Cursor α} {a : Access α}
    (h : c'.log = c.log ++ [a]) :
    c'.contents memory = (c.contents memory).access a := by
  rw [contents, h, List.foldl_append]
  rfl

@[simp] theorem contents_put (data : List α) :
    (c.put data).contents memory =
      { c.contents memory with
        memory := Memory.store (c.contents memory).memory c.pos data } :=
  contents_snoc memory c (a := .store c.pos data) rfl

@[simp] theorem contents_fill (data : List α) :
    (c.fill data).contents memory =
      { c.contents memory with
        memory := Memory.store (c.contents memory).memory c.pos data } :=
  contents_snoc memory c (a := .store c.pos data) rfl

@[simp] theorem contents_move (offset : ℕ) :
    (c.move offset).contents memory = c.contents memory :=
  contents_snoc memory c (a := .move offset) rfl

@[simp] theorem contents_load (offset size : ℕ) :
    (c.load offset size).contents memory =
      { c.contents memory with
        loaded := (c.contents memory).loaded ++
          [Memory.read (c.contents memory).memory offset size] } :=
  contents_snoc memory c (a := .load offset size) rfl

/-- `c'` has stored `data` at the write position of `c` and moved past it. -/
structure Puts (c c' : Cursor α) (data : List α) : Prop where
  pos : c'.pos = c.pos + data.length
  contents : ∀ memory, c'.contents memory =
    { c.contents memory with
      memory := Memory.store (c.contents memory).memory c.pos data }

theorem puts_put (data : List α) : Puts c (c.put data) data :=
  ⟨rfl, fun memory => contents_put memory c data⟩

section Puts

variable {c c' : Cursor α} {data : List α}

theorem Puts.loaded (h : Puts c c' data) :
    (c'.contents memory).loaded = (c.contents memory).loaded := by
  rw [h.contents]

theorem Puts.holds (h : Puts c c' data) :
    Memory.Holds (c'.contents memory).memory c.pos data := by
  rw [h.contents]
  exact Memory.holds_store_self _ _ _

/-- What lies beside the data stays. -/
theorem Puts.frame (h : Puts c c' data) {start : ℕ} {xs : List α}
    (hxs : Memory.Holds (c.contents memory).memory start xs)
    (hdisjoint : start + xs.length ≤ c.pos ∨ c.pos + data.length ≤ start) :
    Memory.Holds (c'.contents memory).memory start xs := by
  rw [h.contents]
  exact hxs.store hdisjoint

end Puts

/-- Data in two parts is stored as a whole. -/
theorem Puts.append {c c' c'' : Cursor α} {xs ys : List α}
    (h : Puts c c' xs) (h' : Puts c' c'' ys) : Puts c c'' (xs ++ ys) where
  pos := by
    rw [h'.pos, h.pos, List.length_append, Nat.add_assoc]
  contents memory := by
    rw [h'.contents, h.contents, h.pos]
    dsimp only
    rw [Memory.store_store]

end Cursor
