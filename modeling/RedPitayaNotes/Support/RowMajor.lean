import RedPitayaNotes.Support.Strides

/-!
# Tables filled column by column

A table of `rows` by `cols` entries lies row after row in a list.  The entries
arrive column by column and are stored at their places; what did not arrive is
blank.
-/

namespace RowMajor

open Strides

variable {α : Type*}

/-- Entry `j` of column `k` is value `rows * k + j` of those that arrived. -/
structure Filled (rows cols : ℕ) (blank : α) (values table : List α) : Prop where
  length_eq : table.length = rows * cols
  entry : ∀ j < rows, ∀ k < cols,
    table[j * cols + k]? = some (values.getD (rows * k + j) blank)

section Place

variable {rows cols j k j' k' : ℕ}

theorem place_lt (hj : j < rows) (hk : k < cols) : j * cols + k < rows * cols :=
  calc
    j * cols + k < j * cols + cols := Nat.add_lt_add_left hk _
    _ = (j + 1) * cols := (Nat.succ_mul _ _).symm
    _ ≤ rows * cols := Nat.mul_le_mul_right _ hj

/-- Every place is that of one entry. -/
theorem place_inj (hk : k < cols) (hk' : k' < cols)
    (h : j * cols + k = j' * cols + k') : j = j' ∧ k = k' := by
  have hdiv : ∀ a b, b < cols → (a * cols + b) / cols = a ∧ (a * cols + b) % cols = b := by
    intro a b hb
    rw [Nat.mul_comm, Nat.mul_add_div (by omega), Nat.mul_add_mod,
      Nat.div_eq_of_lt hb, Nat.mod_eq_of_lt hb]
    exact ⟨rfl, rfl⟩
  obtain ⟨hj, hk₁⟩ := hdiv j k hk
  obtain ⟨hj', hk₂⟩ := hdiv j' k' hk'
  rw [h] at hj hk₁
  exact ⟨hj.symm.trans hj', hk₁.symm.trans hk₂⟩

end Place

namespace Filled

variable {rows cols : ℕ} {blank : α} {values table : List α}

theorem start (rows cols : ℕ) (blank : α) :
    Filled rows cols blank [] (List.replicate (rows * cols) blank) where
  length_eq := List.length_replicate
  entry j hj k hk := by
    rw [List.getElem?_replicate, if_pos (place_lt hj hk)]
    rfl

/-- The next value goes to the place of the next entry. -/
theorem snoc (h : Filled rows cols blank values table) {j k : ℕ} (hj : j < rows)
    (hk : k < cols) (hlen : values.length = rows * k + j) (x : α) :
    Filled rows cols blank (values ++ [x]) (table.set (j * cols + k) x) where
  length_eq := by rw [List.length_set, h.length_eq]
  entry j' hj' k' hk' := by
    have hplace : j * cols + k < table.length := by
      rw [h.length_eq]
      exact place_lt hj hk
    by_cases hsame : j * cols + k = j' * cols + k'
    · obtain ⟨rfl, rfl⟩ := place_inj hk hk' hsame
      rw [List.getElem?_set_self hplace, ← hlen,
        List.getD_eq_getElem?_getD, List.getElem?_concat_length]
      rfl
    · have hother : rows * k' + j' ≠ values.length := by
        intro heq
        rw [hlen, Nat.mul_comm rows, Nat.mul_comm rows] at heq
        obtain ⟨rfl, rfl⟩ := place_inj hj' hj heq
        exact hsame rfl
      rw [List.getElem?_set_ne hsame, h.entry j' hj' k' hk',
        List.getD_eq_getElem?_getD, List.getD_eq_getElem?_getD]
      rcases Nat.lt_or_gt_of_ne hother with hlt | hgt
      · rw [List.getElem?_append_left hlt]
      · rw [List.getElem?_eq_none (by omega),
          List.getElem?_eq_none (by rw [List.length_append, List.length_singleton]; omega)]

/-- A row has every `rows`-th value, and blanks behind them. -/
theorem row (h : Filled rows cols blank values table) {j : ℕ} (hj : j < rows)
    (hlen : values.length ≤ rows * cols) :
    (table.drop (j * cols)).take cols = slice j rows values ++
      List.replicate (cols - (slice j rows values).length) blank := by
  have hrows : 0 < rows := by omega
  have hcut : (slice j rows values).length ≤ cols := by
    by_contra hlong
    have hsome := List.getElem?_eq_getElem (Nat.not_le.mp hlong)
    rw [getElem?_slice hrows, List.getElem?_eq_none (by omega)] at hsome
    cases hsome
  refine List.ext_getElem? fun k => ?_
  by_cases hk : k < cols
  · rw [List.getElem?_take_of_lt hk, List.getElem?_drop, h.entry j hj k hk,
      List.getD_eq_getElem?_getD, Nat.add_comm, ← getElem?_slice hrows]
    by_cases hin : k < (slice j rows values).length
    · rw [List.getElem?_append_left hin, List.getElem?_eq_getElem hin]
      rfl
    · rw [List.getElem?_append_right (by omega), List.getElem?_replicate,
        if_pos (by omega), List.getElem?_eq_none (by omega)]
      rfl
  · rw [List.getElem?_eq_none, List.getElem?_eq_none]
    · rw [List.length_append, List.length_replicate]
      omega
    · rw [List.length_take]
      omega

end Filled

end RowMajor
