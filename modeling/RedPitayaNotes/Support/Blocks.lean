import Mathlib.Data.List.Basic
import Mathlib.Data.List.TakeDrop
import RedPitayaNotes.Support.Clocked
import RedPitayaNotes.Support.Elastic

/-!
# Results of consecutive blocks

A collector folds the samples it gets, `last + 1` at a time, and puts the result
of each block in an output register, where it waits for a consumer.  A result
that falls into a cycle in which the register is occupied is lost, or takes the
place of the one there.
-/

namespace Blocks

open Clocked Elastic

universe u v w

variable {α : Type u} {β : Type v} {γ : Type w}

/-! ## Blocks of a list -/

/-- The words after the last complete block. -/
def rest (size : ℕ) (xs : List α) : List α := xs.drop (size * (xs.length / size))

/-- The complete blocks. -/
def blocks (size : ℕ) (xs : List α) : List (List α) :=
  (List.range (xs.length / size)).map fun k => (xs.drop (size * k)).take size

section Lists

variable {size : ℕ} {xs : List α} {x : α}

theorem length_rest (size : ℕ) (xs : List α) :
    (rest size xs).length = xs.length % size := by
  rw [rest, List.length_drop]
  have hdiv := Nat.div_add_mod xs.length size
  omega

/-- The blocks of a list that grows by a word keep their places. -/
theorem block_append (k : ℕ) (h : k < xs.length / size) :
    ((xs ++ [x]).drop (size * k)).take size = (xs.drop (size * k)).take size := by
  have hnext : size * k + size ≤ xs.length := by
    have hle : size * (k + 1) ≤ size * (xs.length / size) :=
      Nat.mul_le_mul_left _ h
    have hdiv := Nat.mul_div_le xs.length size
    rw [Nat.mul_succ] at hle
    omega
  rw [List.drop_append_of_le_length (by omega),
    List.take_append_of_le_length (by rw [List.length_drop]; omega)]

theorem blocks_snoc_of_lt (h : (rest size xs).length + 1 < size) :
    blocks size (xs ++ [x]) = blocks size xs ∧
      rest size (xs ++ [x]) = rest size xs ++ [x] := by
  rw [length_rest] at h
  have hdiv : (xs.length + 1) / size = xs.length / size := by
    rw [Nat.succ_div, if_neg, Nat.add_zero]
    intro hdvd
    have hmod := Nat.mod_eq_zero_of_dvd hdvd
    rw [← Nat.mod_add_mod, Nat.mod_eq_of_lt h] at hmod
    omega
  constructor
  · rw [blocks, List.length_append, List.length_singleton, hdiv, blocks]
    apply List.map_congr_left
    intro k hk
    exact block_append k (List.mem_range.mp hk)
  · rw [rest, List.length_append, List.length_singleton, hdiv, rest,
      List.drop_append_of_le_length (Nat.mul_div_le _ _)]

/-- The word that completes a block. -/
theorem blocks_snoc_of_eq (h : (rest size xs).length + 1 = size) :
    blocks size (xs ++ [x]) = blocks size xs ++ [rest size xs ++ [x]] ∧
      rest size (xs ++ [x]) = [] := by
  have hlen := length_rest size xs
  have hmod := Nat.div_add_mod xs.length size
  have hall : xs.length + 1 = size * (xs.length / size + 1) := by
    rw [Nat.mul_succ]
    omega
  have hdiv : (xs.length + 1) / size = xs.length / size + 1 := by
    rw [hall, Nat.mul_div_cancel_left _ (by omega)]
  constructor
  · rw [blocks, List.length_append, List.length_singleton, hdiv,
      List.range_succ, List.map_append, List.map_singleton, blocks]
    congr 1
    · apply List.map_congr_left
      intro k hk
      exact block_append k (List.mem_range.mp hk)
    · rw [List.drop_append_of_le_length (Nat.mul_div_le _ _), ← rest,
        List.take_of_length_le]
      rw [List.length_append, List.length_singleton]
      omega
  · apply List.drop_of_length_le
    rw [List.length_append, List.length_singleton, hdiv, hall]

theorem blocks_of_lt (h : xs.length < size) :
    blocks size xs = [] ∧ rest size xs = xs := by
  have hdiv : xs.length / size = 0 := Nat.div_eq_of_lt h
  constructor
  · rw [blocks, hdiv, List.range_zero, List.map_nil]
  · rw [rest, hdiv, Nat.mul_zero, List.drop_zero]

/-- A complete block in front. -/
theorem blocks_append {block : List α} (h : block.length = size)
    (hpos : 0 < size) (xs : List α) :
    blocks size (block ++ xs) = block :: blocks size xs ∧
      rest size (block ++ xs) = rest size xs := by
  have hdiv : (block ++ xs).length / size = xs.length / size + 1 := by
    rw [List.length_append, h, Nat.add_comm, Nat.add_div_right _ hpos]
  have hdrop : ∀ k, (block ++ xs).drop (size * (k + 1)) = xs.drop (size * k) := by
    intro k
    rw [Nat.mul_succ, Nat.add_comm, ← h, List.drop_length_add_append]
  constructor
  · rw [blocks, hdiv, List.range_succ_eq_map, List.map_cons, List.map_map,
      Nat.mul_zero, List.drop_zero, List.take_left' h, blocks]
    congr 1
    apply List.map_congr_left
    intro k _
    exact congrArg (List.take size) (hdrop k)
  · rw [rest, hdiv, hdrop, rest]

theorem length_of_mem_blocks {block : List α} (h : block ∈ blocks size xs) :
    block.length = size := by
  obtain ⟨k, hk, rfl⟩ := List.mem_map.mp h
  have hle : size * (k + 1) ≤ size * (xs.length / size) :=
    Nat.mul_le_mul_left _ (List.mem_range.mp hk)
  have hdiv := Nat.mul_div_le xs.length size
  rw [Nat.mul_succ] at hle
  rw [List.length_take, List.length_drop]
  omega

end Lists

/-! ## The collector -/

structure Collector (β : Type v) (γ : Type w) where
  cntr : ℕ
  acc : β
  /-- The output register, if its valid flag is set. -/
  out : Option γ

/-- How a block is folded: all words but the last by `add` from `init`, the last
one by `result`. -/
structure Rule (α : Type u) (β : Type v) (γ : Type w) where
  last : ℕ
  init : β
  add : β → α → β
  result : β → α → γ

namespace Rule

variable (rule : Rule α β γ)

/-- A cycle with or without a sample and with or without a ready consumer.  Of
setting and clearing the valid flag the clearing counts. -/
def next (c : Collector β γ) : Option α × Bool → Collector β γ
  | (none, ready) => { c with out := if ready then none else c.out }
  | (some x, ready) =>
    if c.cntr < rule.last then
      { cntr := c.cntr + 1
        acc := rule.add c.acc x
        out := if ready then none else c.out }
    else
      { cntr := 0
        acc := rule.init
        out :=
          if ready && c.out.isSome then none else some (rule.result c.acc x) }

/-- The result of a complete block. -/
def value (block : List α) : List γ :=
  block.getLast?.toList.map (rule.result (block.dropLast.foldl rule.add rule.init))

/-- The registers after a reset. -/
def start : Collector β γ := ⟨0, rule.init, none⟩

section Events

variable (c : Cycle (Collector β γ) (Option α × Bool))

def sampled : List α := c.input.1.toList

def produced : List γ :=
  match c.input.1 with
  | none => []
  | some x =>
    if c.state.cntr < rule.last then [] else [rule.result c.state.acc x]

def delivered : List γ := if c.input.2 then c.state.out.toList else []

/-- A result is produced while the register holds another. -/
def collides : Bool :=
  !(rule.produced c).isEmpty && c.state.out.isSome

end Events

/-! ## What is produced -/

structure Books (past : List (Cycle (Collector β γ) (Option α × Bool)))
    (c : Collector β γ) : Prop where
  cntr : c.cntr = (rest (rule.last + 1) (past.flatMap sampled)).length
  acc : c.acc =
    (rest (rule.last + 1) (past.flatMap sampled)).foldl rule.add rule.init
  produced : past.flatMap rule.produced =
    (blocks (rule.last + 1) (past.flatMap sampled)).flatMap rule.value

theorem value_snoc (block : List α) (x : α) :
    rule.value (block ++ [x]) =
      [rule.result (block.foldl rule.add rule.init) x] := by
  simp [value]

section Steps

variable {rule} {c : Collector β γ} {x : α} {ready : Bool}

theorem next_of_lt (h : c.cntr < rule.last) :
    rule.next c (some x, ready) =
      { cntr := c.cntr + 1
        acc := rule.add c.acc x
        out := if ready then none else c.out } :=
  if_pos h

theorem next_of_not_lt (h : ¬c.cntr < rule.last) :
    rule.next c (some x, ready) =
      { cntr := 0
        acc := rule.init
        out :=
          if ready && c.out.isSome then none
          else some (rule.result c.acc x) } :=
  if_neg h

variable {past : List (Cycle (Collector β γ) (Option α × Bool))}

theorem Books.snoc_none (h : rule.Books past c) (ready : Bool) :
    rule.Books (past ++ [⟨c, none, ready⟩]) (rule.next c (none, ready)) := by
  have hsampled : List.flatMap sampled (past ++ [⟨c, none, ready⟩]) =
      past.flatMap sampled := by
    rw [List.flatMap_append, List.flatMap_singleton]
    exact List.append_nil _
  have hproduced : List.flatMap rule.produced (past ++ [⟨c, none, ready⟩]) =
      past.flatMap rule.produced := by
    rw [List.flatMap_append, List.flatMap_singleton]
    exact List.append_nil _
  refine ⟨?_, ?_, ?_⟩
  · rw [hsampled]
    exact h.cntr
  · rw [hsampled]
    exact h.acc
  · rw [hsampled, hproduced]
    exact h.produced

theorem Books.snoc_some (h : rule.Books past c) (x : α) (ready : Bool) :
    rule.Books (past ++ [⟨c, some x, ready⟩]) (rule.next c (some x, ready)) := by
  have hcntr := h.cntr
  have hsampled : List.flatMap sampled (past ++ [⟨c, some x, ready⟩]) =
      past.flatMap sampled ++ [x] := by
    rw [List.flatMap_append, List.flatMap_singleton]
    rfl
  have hproduced : List.flatMap rule.produced (past ++ [⟨c, some x, ready⟩]) =
      past.flatMap rule.produced ++
        if c.cntr < rule.last then [] else [rule.result c.acc x] := by
    rw [List.flatMap_append, List.flatMap_singleton]
    rfl
  by_cases hlt : c.cntr < rule.last
  · rw [if_pos hlt] at hproduced
    have hroom : (rest (rule.last + 1) (past.flatMap sampled)).length + 1 <
        rule.last + 1 := by
      omega
    obtain ⟨hblocks, hrest⟩ := blocks_snoc_of_lt (x := x) hroom
    refine ⟨?_, ?_, ?_⟩
    · rw [hsampled, hrest, next_of_lt hlt, List.length_append, ← hcntr]
      rfl
    · rw [hsampled, hrest, next_of_lt hlt, List.foldl_concat, ← h.acc]
    · rw [hsampled, hblocks, hproduced, List.append_nil, h.produced]
  · have hmod : (rest (rule.last + 1) (past.flatMap sampled)).length <
        rule.last + 1 := by
      rw [length_rest]
      exact Nat.mod_lt _ (Nat.succ_pos rule.last)
    have hfull : (rest (rule.last + 1) (past.flatMap sampled)).length + 1 =
        rule.last + 1 := by
      omega
    rw [if_neg hlt] at hproduced
    obtain ⟨hblocks, hrest⟩ := blocks_snoc_of_eq (x := x) hfull
    refine ⟨?_, ?_, ?_⟩
    · rw [hsampled, hrest, next_of_not_lt hlt]
      rfl
    · rw [hsampled, hrest, next_of_not_lt hlt]
      rfl
    · rw [hsampled, hblocks, hproduced, List.flatMap_append,
        List.flatMap_singleton, value_snoc, ← h.acc, h.produced]

theorem Books.snoc (h : rule.Books past c) (i : Option α × Bool) :
    rule.Books (past ++ [⟨c, i⟩]) (rule.next c i) := by
  obtain ⟨sample, ready⟩ := i
  cases sample with
  | none => exact h.snoc_none ready
  | some x => exact h.snoc_some x ready

end Steps

theorem books_run (inputs : List (Option α × Bool)) :
    rule.Books (trace rule.next rule.start inputs)
      (run rule.next rule.start inputs) := by
  refine trace_induction rule.Books ⟨?_, ?_, ?_⟩
    (fun _ _ i hpast => hpast.snoc i) inputs
  · rw [List.flatMap_nil, rest, List.drop_nil]
    rfl
  · rw [List.flatMap_nil, rest, List.drop_nil]
    rfl
  · rw [List.flatMap_nil, List.flatMap_nil, blocks, List.length_nil,
      Nat.zero_div]
    rfl

/-! ## What is delivered -/

/-- A cycle without a collision neither loses nor repeats a result. -/
theorem next_lossless {c : Collector β γ} {i : Option α × Bool}
    (h : rule.collides ⟨c, i⟩ = false) :
    c.out.toList ++ rule.produced ⟨c, i⟩ =
      delivered ⟨c, i⟩ ++ (rule.next c i).out.toList := by
  obtain ⟨sample, ready⟩ := i
  cases sample with
  | none => cases ready <;> simp [produced, delivered, next]
  | some x =>
      by_cases hlt : c.cntr < rule.last
      · cases ready <;> simp [produced, delivered, next, hlt]
      · simp only [collides, produced, hlt, if_false, List.isEmpty_cons,
          Bool.not_false, Bool.true_and] at h
        obtain hnone : c.out = none := Option.isSome_eq_false_iff.mp h |>
          Option.isNone_iff_eq_none.mp
        cases ready <;> simp [produced, delivered, next, hlt, hnone]

/-- A collision costs one result. -/
theorem length_next (c : Collector β γ) (i : Option α × Bool) :
    c.out.toList.length + (rule.produced ⟨c, i⟩).length =
      (delivered ⟨c, i⟩).length + (rule.next c i).out.toList.length +
        (rule.collides ⟨c, i⟩).toNat := by
  obtain ⟨sample, ready⟩ := i
  cases sample with
  | none => cases ready <;> simp [produced, delivered, next, collides]
  | some x =>
      by_cases hlt : c.cntr < rule.last
      · cases ready <;> simp [produced, delivered, next, collides, hlt]
      · cases hout : c.out <;> cases ready <;>
          simp [produced, delivered, next, collides, hlt, hout]

theorem length_run (c : Collector β γ) (inputs : List (Option α × Bool)) :
    c.out.toList.length +
        ((trace rule.next c inputs).flatMap rule.produced).length =
      ((trace rule.next c inputs).flatMap delivered).length +
        (run rule.next c inputs).out.toList.length +
        (trace rule.next c inputs).countP rule.collides := by
  induction inputs generalizing c with
  | nil => simp
  | cons i inputs ih =>
      have hhere := rule.length_next c i
      have hrest := ih (rule.next c i)
      rw [trace_cons, List.flatMap_cons, List.flatMap_cons, List.length_append,
        List.length_append, List.countP_cons, run_cons]
      cases hcollides : rule.collides ⟨c, i⟩ <;>
        simp only [hcollides, Bool.toNat_false, Bool.toNat_true,
          Bool.false_eq_true, if_false, if_true] at hhere ⊢ <;>
        omega

/-- What is delivered and then held is the results of all blocks exactly if no
two results meet in the output register. -/
theorem delivered_iff (inputs : List (Option α × Bool)) :
    (trace rule.next rule.start inputs).flatMap delivered ++
        (run rule.next rule.start inputs).out.toList =
      (blocks (rule.last + 1)
        ((trace rule.next rule.start inputs).flatMap sampled)).flatMap
          rule.value ↔
    ∀ c ∈ trace rule.next rule.start inputs, rule.collides c = false := by
  rw [← (rule.books_run inputs).produced]
  have hlength := rule.length_run rule.start inputs
  constructor
  · intro heq
    have hcount := congrArg List.length heq
    rw [List.length_append] at hcount
    have hnone : (trace rule.next rule.start inputs).countP rule.collides = 0 := by
      have hempty : (rule.start.out).toList.length = 0 := rfl
      omega
    intro c hc
    exact eq_false_of_ne_true (List.countP_eq_zero.mp hnone c hc)
  · intro hnone
    have hrun : ∀ (c : Collector β γ) (inputs : List (Option α × Bool)),
        (∀ d ∈ trace rule.next c inputs, rule.collides d = false) →
        c.out.toList ++ (trace rule.next c inputs).flatMap rule.produced =
          (trace rule.next c inputs).flatMap delivered ++
            (run rule.next c inputs).out.toList := by
      intro c inputs
      induction inputs generalizing c with
      | nil => simp
      | cons i inputs ih =>
          intro hnone
          rw [trace_cons, List.forall_mem_cons] at hnone
          rw [trace_cons, List.flatMap_cons, List.flatMap_cons, run_cons,
            ← List.append_assoc, rule.next_lossless hnone.1, List.append_assoc,
            ih _ hnone.2, List.append_assoc]
    exact (hrun rule.start inputs hnone).symm

/-! ## Registers with valid flags

A collector whose sample and output word stand beside valid flags. -/

section Flags

variable {c : Collector β γ} {cntr : ℕ} {acc : β} {x : α} {y : γ}
  {event : Option α}

theorem sampled_flags (ready valid consumer : Bool) :
    sampled ⟨c, (if ready && valid then some x else none, consumer)⟩ =
      transfer valid ready x := by
  unfold sampled transfer
  cases ready <;> cases valid <;> rfl

theorem delivered_flags (valid ready : Bool) :
    delivered ⟨⟨cntr, acc, if valid then some y else none⟩,
        (event, ready)⟩ = transfer valid ready y := by
  unfold delivered transfer
  cases valid <;> cases ready <;> rfl

theorem collides_flags (sample valid consumer : Bool) :
    rule.collides ⟨⟨cntr, acc, if valid then some y else none⟩,
        (if sample then some x else none, consumer)⟩ =
      ((sample && !decide (cntr < rule.last)) && valid) := by
  unfold collides produced
  cases sample with
  | false => rfl
  | true => by_cases hlt : cntr < rule.last <;> cases valid <;> simp [hlt]

/-- The registers of a collector with flags, one by one. -/
theorem next_flags (sample valid ready : Bool) :
    rule.next ⟨cntr, acc, if valid then some y else none⟩
        (if sample then some x else none, ready) =
      let done := sample && !decide (cntr < rule.last)
      { cntr := if done then 0 else if sample then cntr + 1 else cntr
        acc := if done then rule.init else if sample then rule.add acc x else acc
        out :=
          if (if ready && valid then false else if done then true else valid) then
            some (if done then rule.result acc x else y)
          else none } := by
  cases sample with
  | false => cases valid <;> cases ready <;> rfl
  | true =>
      by_cases hlt : cntr < rule.last <;> cases valid <;> cases ready <;>
        simp [next, hlt]

end Flags

/-! ## Machines with a collector in them -/

section Machine

variable {σ : Type*} {ι : Type*} {next : σ → ι → σ} {s : σ}

/-- A machine whose view is the collector delivers the results of all blocks of
the samples it accepts exactly if no two of them meet. -/
theorem delivered_iff_of_view (view : σ → Collector β γ)
    (event : Cycle σ ι → Option α × Bool) (ok : ι → Prop)
    (hstep : ∀ s i, ok i → view (next s i) = rule.next (view s) (event ⟨s, i⟩))
    (hstart : view s = rule.start) {inputs : List ι}
    (hok : ∀ i ∈ inputs, ok i) :
    (trace next s inputs).flatMap
          (fun c => delivered ⟨view c.state, event c⟩) ++
        (view (run next s inputs)).out.toList =
      (blocks (rule.last + 1) ((trace next s inputs).flatMap
        fun c => sampled ⟨view c.state, event c⟩)).flatMap rule.value ↔
    ∀ c ∈ trace next s inputs,
      rule.collides ⟨view c.state, event c⟩ = false := by
  obtain ⟨htrace, hrun⟩ := trace_view view event ok hstep s hok
  have hiff := rule.delivered_iff ((trace next s inputs).map event)
  rw [← hstart, ← hrun, ← htrace, List.flatMap_map, List.flatMap_map,
    List.forall_mem_map] at hiff
  exact hiff

end Machine

end Rule

/-- With a consumer that takes a result no later than the next one is produced,
two results meet only in the cycle in which the first is taken. -/
theorem apart_iff {σ : Type*} {cycles : List σ}
    {collides produces valid ready : σ → Bool}
    (hcollides : ∀ c ∈ cycles, collides c = (produces c && valid c))
    (htime : ∀ c ∈ cycles, produces c = true → valid c = true →
      ready c = true) :
    (∀ c ∈ cycles, collides c = false) ↔
      ∀ c ∈ cycles, produces c = true → ¬(valid c = true ∧ ready c = true) := by
  constructor
  · intro hnone c hc hproduces hboth
    have hmeet := hnone c hc
    rw [hcollides c hc, hproduces, hboth.1] at hmeet
    exact Bool.noConfusion hmeet
  · intro hapart c hc
    rw [hcollides c hc]
    by_contra hboth
    obtain ⟨hproduces, hvalid⟩ :=
      Bool.and_eq_true_iff.mp (eq_true_of_ne_false hboth)
    exact hapart c hc hproduces ⟨hvalid, htime c hc hproduces hvalid⟩

end Blocks
