import Mathlib.Data.List.Infix

/-!
# Longest matches

Scanners that take the longest initial segment of a form, the way the numeric
conversions of C do, after blanks that they skip.
-/

namespace LongestMatch

variable {α : Type*} (p : List α → Bool)

/-- `token` is the longest initial segment of `xs` that satisfies `p`, and
`rest` is what follows it. -/
structure IsLongest (xs token rest : List α) : Prop where
  append : token ++ rest = xs
  form : p token = true
  longest : ∀ t, t <+: xs → p t = true → t.length ≤ token.length

/-- The longest segment of at most `n` elements. -/
def longestUpTo (xs : List α) : ℕ → Option (List α × List α)
  | 0 => if p [] then some ([], xs) else none
  | n + 1 =>
    if p (xs.take (n + 1)) then some (xs.take (n + 1), xs.drop (n + 1))
    else longestUpTo xs n

def longest (xs : List α) : Option (List α × List α) :=
  longestUpTo p xs xs.length

/-- The rest of a text after the blanks at its start and the longest match, or
the whole text if there is none. -/
def convert (blank : α → Bool) (src : List α) : List α :=
  match longest p (src.dropWhile blank) with
  | some (_, rest) => rest
  | none => src

variable {p} {xs : List α}

theorem IsLongest.unique {t r t' r' : List α} (h : IsLongest p xs t r)
    (h' : IsLongest p xs t' r') : t = t' ∧ r = r' := by
  have hle : t.length ≤ t'.length :=
    h'.longest t ⟨r, h.append⟩ h.form
  have hge : t'.length ≤ t.length :=
    h.longest t' ⟨r', h'.append⟩ h'.form
  exact List.append_inj (h.append.trans h'.append.symm)
    (Nat.le_antisymm hle hge)

theorem longestUpTo_some {n : ℕ} {t r : List α} (hn : n ≤ xs.length)
    (h : longestUpTo p xs n = some (t, r)) :
    t ++ r = xs ∧ p t = true ∧
      ∀ t', t' <+: xs → t'.length ≤ n → p t' = true →
        t'.length ≤ t.length := by
  induction n with
  | zero =>
      rw [longestUpTo] at h
      split_ifs at h with hp
      obtain ⟨rfl, rfl⟩ := Prod.mk.inj (Option.some.inj h)
      exact ⟨rfl, hp, fun t' _ hle _ => hle⟩
  | succ n ih =>
      rw [longestUpTo] at h
      split_ifs at h with hp
      · obtain ⟨rfl, rfl⟩ := Prod.mk.inj (Option.some.inj h)
        refine ⟨List.take_append_drop _ _, hp, fun t' _ hle _ => ?_⟩
        rw [List.length_take, Nat.min_eq_left hn]
        exact hle
      · obtain ⟨happend, hform, hlongest⟩ := ih (Nat.le_of_succ_le hn) h
        refine ⟨happend, hform, fun t' hpre hle hp' => ?_⟩
        rcases Nat.eq_or_lt_of_le hle with heq | hlt
        · -- the segment of this length does not match
          rw [List.prefix_iff_eq_take.mp hpre, heq] at hp'
          exact absurd hp' hp
        · exact hlongest t' hpre (Nat.le_of_lt_succ hlt) hp'

theorem longestUpTo_none {n : ℕ} (h : longestUpTo p xs n = none) {t : List α}
    (hpre : t <+: xs) (hle : t.length ≤ n) : p t = false := by
  induction n with
  | zero =>
      rw [longestUpTo] at h
      split_ifs at h with hp
      rw [List.length_eq_zero_iff.mp (Nat.le_zero.mp hle)]
      exact Bool.eq_false_iff.mpr hp
  | succ n ih =>
      rw [longestUpTo] at h
      split_ifs at h with hp
      rcases Nat.eq_or_lt_of_le hle with heq | hlt
      · rw [List.prefix_iff_eq_take.mp hpre, heq]
        exact Bool.eq_false_iff.mpr hp
      · exact ih h (Nat.le_of_lt_succ hlt)

theorem longest_eq_some_iff {t r : List α} :
    longest p xs = some (t, r) ↔ IsLongest p xs t r := by
  have hof : ∀ {t r}, longest p xs = some (t, r) → IsLongest p xs t r := by
    intro t r h
    obtain ⟨happend, hform, hlongest⟩ := longestUpTo_some le_rfl h
    exact ⟨happend, hform, fun t' hpre =>
      hlongest t' hpre hpre.length_le⟩
  refine ⟨hof, fun h => ?_⟩
  cases hfound : longest p xs with
  | none =>
      have hnone := longestUpTo_none hfound ⟨r, h.append⟩
        (List.IsPrefix.length_le ⟨r, h.append⟩)
      exact absurd (h.form.symm.trans hnone) (by decide)
  | some found =>
      obtain ⟨rfl, rfl⟩ := (hof hfound).unique h
      rfl

/-- A conversion that moves over its text has found a match. -/
theorem convert_eq_iff (hnil : p [] = false) {blank : α → Bool}
    {src rest : List α} :
    convert p blank src ≠ src ∧ convert p blank src = rest ↔
      ∃ token, IsLongest p (src.dropWhile blank) token rest := by
  constructor
  · rintro ⟨hmoved, hrest⟩
    rw [convert] at hmoved hrest
    cases hfound : longest p (src.dropWhile blank) with
    | none =>
        rw [hfound] at hmoved
        exact absurd rfl hmoved
    | some found =>
        rw [hfound] at hrest
        exact ⟨found.1, longest_eq_some_iff.mp (hrest ▸ hfound)⟩
  · rintro ⟨token, h⟩
    have hconvert : convert p blank src = rest := by
      rw [convert, longest_eq_some_iff.mpr h]
    refine ⟨?_, hconvert⟩
    rw [hconvert]
    rintro rfl
    have hle := (List.dropWhile_sublist blank (l := rest)).length_le
    have hlen := congrArg List.length h.append
    rw [List.length_append] at hlen
    have hempty : token = [] := List.length_eq_zero_iff.mp (by omega)
    have hform := h.form
    rw [hempty, hnil] at hform
    exact absurd hform (by decide)

end LongestMatch
