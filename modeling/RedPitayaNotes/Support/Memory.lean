import Mathlib.Algebra.Order.Ring.Int
import Mathlib.Data.List.Basic
import Mathlib.Data.List.Range

/-!
# Byte copies in a flat memory

A memory is a function on addresses.  Copies in and out of it move lists of
cells; the lemmas say which reads a store answers, which it leaves alone, and
how one store changes the list an earlier one left.
-/

namespace Memory

variable {α : Type*}

/-- The cells `start .. start + len - 1`. -/
def read (mem : ℕ → α) (start len : ℕ) : List α :=
  (List.range' start len).map mem

def store (mem : ℕ → α) (start : ℕ) (xs : List α) : ℕ → α :=
  fun n => if start ≤ n then (xs[n - start]?).getD (mem n) else mem n

theorem store_of_lt {n start : ℕ} (h : n < start) (mem : ℕ → α)
    (xs : List α) : store mem start xs n = mem n :=
  if_neg (Nat.not_le.mpr h)

theorem store_of_ge {n start : ℕ} {xs : List α} (h : start + xs.length ≤ n)
    (mem : ℕ → α) : store mem start xs n = mem n := by
  rw [store, if_pos (by omega), List.getElem?_eq_none (by omega),
    Option.getD_none]

theorem store_add {i : ℕ} {xs : List α} (h : i < xs.length) (mem : ℕ → α)
    (start : ℕ) : store mem start xs (start + i) = xs[i] := by
  rw [store, if_pos (Nat.le_add_right _ _), Nat.add_sub_cancel_left,
    List.getElem?_eq_getElem h, Option.getD_some]

@[simp] theorem store_nil (mem : ℕ → α) (start : ℕ) :
    store mem start [] = mem := by
  funext n
  simp [store]

theorem store_store (mem : ℕ → α) (start : ℕ) (xs ys : List α) :
    store (store mem start xs) (start + xs.length) ys =
      store mem start (xs ++ ys) := by
  funext n
  by_cases hlow : n < start
  · rw [store_of_lt (by omega), store_of_lt hlow, store_of_lt hlow]
  · obtain ⟨i, rfl⟩ := Nat.exists_eq_add_of_le (Nat.not_lt.mp hlow)
    by_cases hx : i < xs.length
    · rw [store_of_lt (by omega), store_add hx, store_add (by simp; omega),
        List.getElem_append_left hx]
    · obtain ⟨j, rfl⟩ := Nat.exists_eq_add_of_le (Nat.not_lt.mp hx)
      by_cases hy : j < ys.length
      · rw [← Nat.add_assoc, store_add hy, Nat.add_assoc,
          store_add (by simp; omega), List.getElem_append_right (by omega)]
        simp
      · rw [store_of_ge (by omega), store_of_ge (by omega),
          store_of_ge (by simp; omega)]

/-! ## Reading back -/

@[simp] theorem length_read (mem : ℕ → α) (start len : ℕ) :
    (read mem start len).length = len := by
  simp [read]

@[simp] theorem getElem_read (mem : ℕ → α) (start len n : ℕ)
    (h : n < (read mem start len).length) :
    (read mem start len)[n] = mem (start + n) := by
  simp [read]

theorem read_add (mem : ℕ → α) (start len n : ℕ) :
    read mem start (len + n) =
      read mem start len ++ read mem (start + len) n := by
  rw [read, ← List.range'_append_1, List.map_append]
  rfl

theorem read_congr {mem mem' : ℕ → α} {start start' len : ℕ}
    (h : ∀ n < len, mem (start + n) = mem' (start' + n)) :
    read mem start len = read mem' start' len := by
  apply List.ext_getElem
  · simp
  · intro n hn hn'
    rw [length_read] at hn
    simpa using h n hn

theorem read_store_self (mem : ℕ → α) (start : ℕ) (xs : List α) :
    read (store mem start xs) start xs.length = xs := by
  apply List.ext_getElem
  · simp
  · intro n hn hn'
    rw [getElem_read, store_add hn']

theorem read_store_of_disjoint {start len other : ℕ} {xs : List α}
    (h : start + len ≤ other ∨ other + xs.length ≤ start) (mem : ℕ → α) :
    read (store mem other xs) start len = read mem start len := by
  apply read_congr
  intro n hn
  rcases h with h | h
  · exact store_of_lt (by omega) _ _
  · exact store_of_ge (by omega) _

/-- A store over the first cells of an earlier one. -/
theorem store_over (mem : ℕ → α) (start : ℕ) {ys ys' : List α} (zs : List α)
    (h : ys'.length = ys.length) :
    store (store mem start (ys ++ zs)) start ys' =
      store mem start (ys' ++ zs) := by
  funext n
  by_cases hlow : n < start
  · rw [store_of_lt hlow, store_of_lt hlow, store_of_lt hlow]
  · obtain ⟨i, rfl⟩ := Nat.exists_eq_add_of_le (Nat.not_lt.mp hlow)
    by_cases hy : i < ys'.length
    · rw [store_add hy, store_add (by simp; omega),
        List.getElem_append_left hy]
    · rw [store_of_ge (by omega)]
      by_cases hz : i < ys.length + zs.length
      · rw [store_add (by simpa), store_add (by simpa [h]),
          List.getElem_append_right (by omega),
          List.getElem_append_right (by omega)]
        simp only [h]
      · rw [store_of_ge (by simp; omega), store_of_ge (by simp; omega)]

/-- A store inside the cells of an earlier one. -/
theorem store_mid (mem : ℕ → α) (start : ℕ) (xs : List α) {ys ys' : List α}
    (zs : List α) (h : ys'.length = ys.length) :
    store (store mem start (xs ++ (ys ++ zs))) (start + xs.length) ys' =
      store mem start (xs ++ (ys' ++ zs)) := by
  rw [← store_store, store_over _ _ _ h, store_store]

/-! ## Contents -/

/-- The cells from `start` on are `xs`. -/
def Holds (mem : ℕ → α) (start : ℕ) (xs : List α) : Prop :=
  read mem start xs.length = xs

theorem holds_iff_getElem {mem : ℕ → α} {start : ℕ} {xs : List α} :
    Holds mem start xs ↔ ∀ n (h : n < xs.length), mem (start + n) = xs[n] := by
  rw [Holds, List.ext_get_iff]
  simp [read]

theorem holds_store_self (mem : ℕ → α) (start : ℕ) (xs : List α) :
    Holds (store mem start xs) start xs :=
  read_store_self mem start xs

theorem Holds.store {mem : ℕ → α} {start other : ℕ} {xs ys : List α}
    (h : Holds mem start xs)
    (hdisjoint : start + xs.length ≤ other ∨ other + ys.length ≤ start) :
    Holds (store mem other ys) start xs := by
  rw [Holds, read_store_of_disjoint hdisjoint]
  exact h

theorem holds_append {mem : ℕ → α} {start : ℕ} {xs ys : List α} :
    Holds mem start (xs ++ ys) ↔
      Holds mem start xs ∧ Holds mem (start + xs.length) ys := by
  rw [Holds, List.length_append, read_add]
  constructor
  · intro h
    exact List.append_inj h (length_read _ _ _)
  · rintro ⟨hxs, hys⟩
    rw [hxs, hys]

end Memory
