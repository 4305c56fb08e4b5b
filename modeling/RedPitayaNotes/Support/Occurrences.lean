import Mathlib.Algebra.Order.Ring.Int
import Mathlib.Algebra.BigOperators.Group.List.Basic
import Mathlib.Data.List.Chain

/-!
# Times of events

The numbers of the marked events of a history, the gaps between them, and how
gaps in a row add up.
-/

namespace Occurrences

variable {γ : Type*}

/-- The numbers of the marked events, from 0. -/
def times (mark : γ → Bool) (events : List γ) : List ℕ :=
  (events.zipIdx.filter fun x => mark x.1).map Prod.snd

@[simp] theorem times_nil (mark : γ → Bool) : times mark [] = [] := rfl

theorem times_snoc (mark : γ → Bool) (past : List γ) (c : γ) :
    times mark (past ++ [c]) =
      times mark past ++ if mark c then [past.length] else [] := by
  rw [times, List.zipIdx_append, List.filter_append, List.map_append]
  cases hc : mark c <;> simp [times, hc]

theorem mem_times {mark : γ → Bool} {events : List γ} {n : ℕ} :
    n ∈ times mark events ↔ ∃ c, events[n]? = some c ∧ mark c = true := by
  simp only [times, List.mem_map, List.mem_filter, List.mem_zipIdx_iff_getElem?]
  constructor
  · rintro ⟨⟨c, m⟩, ⟨hc, hmark⟩, rfl⟩
    exact ⟨c, hc, hmark⟩
  · rintro ⟨c, hc, hmark⟩
    exact ⟨(c, n), ⟨hc, hmark⟩, rfl⟩

theorem lt_length_of_mem_times {mark : γ → Bool} {events : List γ} {n : ℕ}
    (h : n ∈ times mark events) : n < events.length := by
  obtain ⟨c, hc, -⟩ := mem_times.mp h
  exact (List.getElem?_eq_some_iff.mp hc).1

/-! ## Gaps -/

/-- The distances of neighbours. -/
def gaps : List ℕ → List ℕ
  | a :: b :: ts => (b - a) :: gaps (b :: ts)
  | _ => []

theorem gaps_concat_concat (ts : List ℕ) (a b : ℕ) :
    gaps (ts ++ [a] ++ [b]) = gaps (ts ++ [a]) ++ [b - a] := by
  induction ts with
  | nil => rfl
  | cons t ts ih =>
      cases ts with
      | nil => rfl
      | cons u ts => exact congrArg (List.cons (u - t)) ih

theorem pos_of_mem_gaps {ts : List ℕ} (h : ts.IsChain (· < ·)) :
    ∀ gap ∈ gaps ts, 0 < gap := by
  induction h with
  | nil => simp [gaps]
  | singleton a => simp [gaps]
  | cons_cons hlt _ ih =>
      rw [gaps, List.forall_mem_cons]
      exact ⟨Nat.sub_pos_of_lt hlt, ih⟩

theorem isChain_times (mark : γ → Bool) (events : List γ) :
    (times mark events).IsChain (· < ·) := by
  induction events using List.reverseRecOn with
  | nil => exact List.isChain_nil
  | append_singleton past c ih =>
      rw [times_snoc]
      cases mark c with
      | false => simpa using ih
      | true =>
          rw [if_pos rfl]
          apply ih.append (List.isChain_singleton _)
          intro a ha b hb
          obtain rfl : past.length = b := by simpa using hb
          exact lt_length_of_mem_times (List.mem_of_getLast? ha)

/-- The first gaps in a row make up the distance they span. -/
theorem sum_take_gaps {ts : List ℕ} (h : ts.IsChain (· < ·)) {n first last : ℕ}
    (hfirst : ts[0]? = some first) (hlast : ts[n]? = some last) :
    first + ((gaps ts).take n).sum = last := by
  induction n generalizing ts first with
  | zero =>
      rw [List.take_zero, List.sum_nil, Nat.add_zero]
      exact Option.some.inj (hfirst.symm.trans hlast)
  | succ n ih =>
      match ts, h with
      | [], _ => simp at hfirst
      | [a], _ => simp at hlast
      | a :: b :: ts, h =>
          obtain ⟨hlt, hrest⟩ := List.isChain_cons_cons.mp h
          obtain rfl : a = first := by simpa using hfirst
          have hsum := ih hrest rfl (by simpa using hlast)
          rw [gaps, List.take_succ_cons, List.sum_cons]
          omega

/-! ## Marked events far apart -/

/-- Two marked events are at least `n` apart. -/
def Apart (n : ℕ) (mark : γ → Bool) (events : List γ) : Prop :=
  ∀ past c rest, events = past ++ c :: rest → mark c = true →
    ∀ d ∈ rest.take (n - 1), mark d = false

theorem Apart.tail {n : ℕ} {mark : γ → Bool} {c : γ} {events : List γ}
    (h : Apart n mark (c :: events)) : Apart n mark events := by
  intro past d rest hsplit
  exact h (c :: past) d rest (congrArg (List.cons c) hsplit)

theorem Apart.map {δ : Type*} {f : γ → δ} {n : ℕ} {mark : δ → Bool}
    {events : List γ} (h : Apart n (mark ∘ f) events) :
    Apart n mark (events.map f) := by
  intro past d rest hsplit hd
  obtain ⟨past, rest', rfl, rfl, hrest⟩ := List.map_eq_append_iff.mp hsplit
  obtain ⟨c, rest, rfl, rfl, rfl⟩ := List.map_eq_cons_iff.mp hrest
  rw [← List.map_take]
  intro e he
  obtain ⟨a, ha, rfl⟩ := List.mem_map.mp he
  exact h past c rest rfl hd a ha

/-- What comes after the first marked event. -/
def afterFirst (mark : γ → Bool) (events : List γ) : List γ :=
  (events.dropWhile fun c => !mark c).tail

theorem afterFirst_cons (mark : γ → Bool) (c : γ) (events : List γ) :
    afterFirst mark (c :: events) =
      if mark c then events else afterFirst mark events := by
  rw [afterFirst, List.dropWhile_cons]
  cases mark c <;> rfl

theorem afterFirst_map {δ : Type*} (f : γ → δ) (mark : δ → Bool)
    (events : List γ) :
    afterFirst mark (events.map f) = (afterFirst (mark ∘ f) events).map f := by
  induction events with
  | nil => rfl
  | cons c events ih =>
      rw [List.map_cons, afterFirst_cons, afterFirst_cons, ih, ← apply_ite]
      rfl

theorem afterFirst_subset (mark : γ → Bool) (events : List γ) :
    afterFirst mark events ⊆ events :=
  ((List.tail_suffix _).trans (List.dropWhile_suffix _)).subset

/-- The number of marked events that at least `n` others follow. -/
def followed (n : ℕ) (mark : γ → Bool) (events : List γ) : ℕ :=
  (events.take (events.length - n)).countP mark

@[simp] theorem followed_nil (n : ℕ) (mark : γ → Bool) :
    followed n mark [] = 0 := by
  simp [followed]

theorem followed_of_length_le {n : ℕ} {mark : γ → Bool} {events : List γ}
    (h : events.length ≤ n) : followed n mark events = 0 := by
  rw [followed, Nat.sub_eq_zero_of_le h]
  rfl

theorem followed_cons (n : ℕ) (mark : γ → Bool) (c : γ) (events : List γ) :
    followed n mark (c :: events) =
      (if mark c ∧ n ≤ events.length then 1 else 0) + followed n mark events := by
  by_cases hlen : n ≤ events.length
  · rw [followed, List.length_cons, Nat.succ_sub hlen, List.take_succ_cons,
      List.countP_cons]
    simp only [hlen, and_true]
    exact Nat.add_comm _ _
  · rw [followed_of_length_le (List.length_cons ▸ Nat.lt_of_not_le hlen),
      followed_of_length_le (Nat.le_of_not_le hlen), if_neg fun h => hlen h.2]

theorem followed_map {δ : Type*} (f : γ → δ) (n : ℕ) (mark : δ → Bool)
    (events : List γ) :
    followed n mark (events.map f) = followed n (mark ∘ f) events := by
  rw [followed, List.length_map, ← List.map_take, List.countP_map]
  rfl

end Occurrences
