import Mathlib.Data.List.TakeWhile
import RedPitayaNotes.Support.Memory

/-!
# Strings that end with a zero

What a function that takes a pointer to a string reads in a memory: the cells
before the first zero.
-/

namespace Memory

variable {α : Type*} [Zero α]

/-- The string from `start` on. -/
def IsString (mem : ℕ → α) (start : ℕ) (s : List α) : Prop :=
  Holds mem start (s ++ [0]) ∧ 0 ∉ s

/-- There is one string only. -/
theorem IsString.unique {mem : ℕ → α} {start : ℕ} {s t : List α}
    (hs : IsString mem start s) (ht : IsString mem start t) : s = t := by
  have hle : ∀ {s t : List α}, IsString mem start s → IsString mem start t →
      s.length ≤ t.length := by
    intro s t hs ht
    by_contra hlt
    have hlen : t.length < s.length := Nat.not_le.mp hlt
    have hzero : mem (start + t.length) = 0 := by
      have h := holds_iff_getElem.mp ht.1 t.length (by simp)
      rw [h, List.getElem_concat_length rfl]
    have hcell : mem (start + t.length) = s[t.length] := by
      have h := holds_iff_getElem.mp hs.1 t.length (by simp; omega)
      rw [h, List.getElem_append_left hlen]
    apply hs.2
    rw [← hzero, hcell]
    exact List.getElem_mem hlen
  have hlen := Nat.le_antisymm (hle hs ht) (hle ht hs)
  have heq : s ++ [0] = t ++ [0] := by
    rw [← hs.1, ← ht.1, List.length_append, List.length_append, hlen]
  exact List.append_cancel_right heq

variable [DecidableEq α]

theorem isString_of_holds {mem : ℕ → α} {start : ℕ} {xs : List α}
    (h : Holds mem start xs) (hzero : 0 ∈ xs) :
    IsString mem start (xs.takeWhile (· ≠ 0)) := by
  have hrest : xs.dropWhile (· ≠ 0) ≠ [] := by
    intro hnil
    have hall := List.dropWhile_eq_nil_iff.mp hnil 0 hzero
    simp at hall
  obtain ⟨x, rest, hcons⟩ := List.exists_cons_of_ne_nil hrest
  have hx : x = 0 := by
    have hhead := List.head?_dropWhile_not (· ≠ 0) xs
    rw [hcons] at hhead
    simpa using hhead
  have hsplit : (xs.takeWhile (· ≠ 0) ++ [0]) ++ rest = xs := by
    have happend := List.takeWhile_append_dropWhile (p := (· ≠ 0)) (l := xs)
    rwa [hcons, hx, ← List.singleton_append, ← List.append_assoc] at happend
  refine ⟨?_, ?_⟩
  · rw [← hsplit] at h
    exact (holds_append.mp h).1
  · intro hmem
    simpa using List.mem_takeWhile_imp hmem

/-- The last cell may be the only zero. -/
theorem isString_of_holds_snoc {mem : ℕ → α} {start : ℕ} {xs : List α} {z : α}
    (h : Holds mem start (xs ++ [z])) (hzero : 0 ∈ xs ∨ z = 0) :
    IsString mem start (xs.takeWhile (· ≠ 0)) := by
  by_cases hmem : 0 ∈ xs
  · exact isString_of_holds (holds_append.mp h).1 hmem
  · have hall : xs.takeWhile (· ≠ 0) = xs := by
      rw [List.takeWhile_eq_self_iff]
      intro x hx
      have hne : x ≠ 0 := fun hx0 => hmem (hx0 ▸ hx)
      exact decide_eq_true hne
    rw [hall]
    have hz : z = 0 := hzero.resolve_left hmem
    exact ⟨hz ▸ h, hmem⟩

end Memory
