import Mathlib.Algebra.Order.Ring.Int
import Mathlib.Data.List.Basic
import Mathlib.Data.List.Flatten
import Mathlib.Data.List.Infix

/-!
# Clocked machines

A synchronous circuit is given by its next-state function: the register
contents and the inputs before a clock edge determine the register contents
after it.  This module runs such a machine over a list of inputs, records the
cycles of the run, and states the induction rules every safety argument about a
run is an instance of: invariants, invariants that mention the history, and the
two conservation rules for machines that move words from channel to channel.
-/

namespace Clocked

universe u v w x

variable {σ : Type u} {ι : Type v} {α : Type w} {β : Type x}

/-- One clock cycle: the registers and the inputs just before the edge. -/
structure Cycle (σ : Type u) (ι : Type v) where
  state : σ
  input : ι

/-- The register contents after the edges driven by `inputs`. -/
def run (next : σ → ι → σ) (s : σ) (inputs : List ι) : σ :=
  inputs.foldl next s

/-- The cycles of a run, oldest first. -/
def trace (next : σ → ι → σ) : σ → List ι → List (Cycle σ ι)
  | _, [] => []
  | s, i :: inputs => ⟨s, i⟩ :: trace next (next s i) inputs

section Basic

variable (next : σ → ι → σ) (s : σ)

@[simp] theorem run_nil : run next s [] = s := rfl

@[simp] theorem run_cons (i : ι) (inputs : List ι) :
    run next s (i :: inputs) = run next (next s i) inputs := rfl

theorem run_append (xs ys : List ι) :
    run next s (xs ++ ys) = run next (run next s xs) ys :=
  List.foldl_append

@[simp] theorem trace_nil : trace next s [] = [] := rfl

@[simp] theorem trace_cons (i : ι) (inputs : List ι) :
    trace next s (i :: inputs) = ⟨s, i⟩ :: trace next (next s i) inputs := rfl

theorem trace_append (xs ys : List ι) :
    trace next s (xs ++ ys) =
      trace next s xs ++ trace next (run next s xs) ys := by
  induction xs generalizing s with
  | nil => rfl
  | cons i xs ih => simp [ih]

@[simp] theorem map_input_trace (inputs : List ι) :
    (trace next s inputs).map Cycle.input = inputs := by
  induction inputs generalizing s with
  | nil => rfl
  | cons i inputs ih => simp [ih]

@[simp] theorem length_trace (inputs : List ι) :
    (trace next s inputs).length = inputs.length := by
  rw [← List.length_map Cycle.input, map_input_trace]

theorem take_trace (n : ℕ) (inputs : List ι) :
    (trace next s inputs).take n = trace next s (inputs.take n) := by
  induction inputs generalizing s n with
  | nil => simp
  | cons i inputs ih =>
      cases n with
      | zero => rfl
      | succ n => simp [ih]

theorem getElem?_trace (inputs : List ι) (n : ℕ) :
    (trace next s inputs)[n]? =
      inputs[n]?.map fun i => ⟨run next s (inputs.take n), i⟩ := by
  induction inputs generalizing s n with
  | nil => simp
  | cons i inputs ih =>
      cases n with
      | zero => rfl
      | succ n => simp [ih]

theorem trace_mono {before inputs : List ι} (h : before <+: inputs) :
    trace next s before <+: trace next s inputs := by
  obtain ⟨after, rfl⟩ := h
  rw [trace_append]
  exact List.prefix_append _ _

/-- What every input satisfies, the input of every cycle satisfies. -/
theorem forall_trace_input {P : ι → Prop} {inputs : List ι}
    (h : ∀ i ∈ inputs, P i) : ∀ c ∈ trace next s inputs, P c.input := by
  intro c hc
  apply h
  rw [← map_input_trace next s inputs]
  exact List.mem_map_of_mem hc

theorem length_flatMap_snoc (f : Cycle σ ι → List α) (past : List (Cycle σ ι))
    (c : Cycle σ ι) :
    ((past ++ [c]).flatMap f).length = (past.flatMap f).length + (f c).length := by
  rw [List.flatMap_append, List.flatMap_singleton, List.length_append]

theorem countP_snoc (f : Cycle σ ι → Bool) (past : List (Cycle σ ι))
    (c : Cycle σ ι) :
    (past ++ [c]).countP f = past.countP f + (f c).toNat := by
  rw [List.countP_append, List.countP_singleton]
  cases f c <;> rfl

end Basic

/-! ## Invariants -/

section Invariants

variable {next : σ → ι → σ} {s : σ}

/-- A state predicate kept by every edge whose cycle satisfies `ok` holds in
the last state of every run made of such cycles. -/
theorem run_invariant_of (P : σ → Prop) (ok : Cycle σ ι → Prop)
    (hstep : ∀ s i, P s → ok ⟨s, i⟩ → P (next s i))
    (h : P s) (inputs : List ι)
    (hok : ∀ c ∈ trace next s inputs, ok c) :
    P (run next s inputs) := by
  induction inputs generalizing s with
  | nil => exact h
  | cons i inputs ih =>
      rw [trace_cons, List.forall_mem_cons] at hok
      exact ih (hstep s i h hok.1) hok.2

theorem run_invariant (P : σ → Prop)
    (hstep : ∀ s i, P s → P (next s i))
    (h : P s) (inputs : List ι) :
    P (run next s inputs) :=
  run_invariant_of P (fun _ => True) (fun s i hs _ => hstep s i hs)
    h inputs (fun _ _ => trivial)

theorem trace_invariant (P : σ → Prop)
    (hstep : ∀ s i, P s → P (next s i))
    (h : P s) (inputs : List ι) :
    ∀ c ∈ trace next s inputs, P c.state := by
  induction inputs generalizing s with
  | nil => simp
  | cons i inputs ih =>
      rw [trace_cons, List.forall_mem_cons]
      exact ⟨h, ih (hstep s i h)⟩

/-- The invariant rule for predicates that mention the cycles so far, for runs
in which each cycle satisfies `ok` of the cycles before it. -/
theorem trace_induction_past (P : List (Cycle σ ι) → σ → Prop)
    (ok : List (Cycle σ ι) → Cycle σ ι → Prop) (hinit : P [] s)
    (hstep : ∀ past s i, P past s → ok past ⟨s, i⟩ →
      P (past ++ [⟨s, i⟩]) (next s i))
    (inputs : List ι)
    (hok : ∀ past c rest, trace next s inputs = past ++ c :: rest →
      ok past c) :
    P (trace next s inputs) (run next s inputs) := by
  induction inputs using List.reverseRecOn with
  | nil => exact hinit
  | append_singleton inputs i ih =>
      rw [trace_append] at hok ⊢
      rw [run_append]
      refine hstep _ _ i (ih ?_) (hok _ _ [] rfl)
      intro past c rest hpast
      apply hok past c (rest ++ trace next (run next s inputs) [i])
      rw [hpast, List.append_assoc, List.cons_append]

/-- The same for runs made of cycles that satisfy `ok`. -/
theorem trace_induction_of (P : List (Cycle σ ι) → σ → Prop)
    (ok : Cycle σ ι → Prop) (hinit : P [] s)
    (hstep : ∀ past s i, P past s → ok ⟨s, i⟩ →
      P (past ++ [⟨s, i⟩]) (next s i))
    (inputs : List ι) (hok : ∀ c ∈ trace next s inputs, ok c) :
    P (trace next s inputs) (run next s inputs) := by
  apply trace_induction_past P (fun _ c => ok c) hinit hstep inputs
  intro past c rest hpast
  apply hok
  rw [hpast]
  exact List.mem_append_right _ List.mem_cons_self

theorem trace_induction (P : List (Cycle σ ι) → σ → Prop)
    (hinit : P [] s)
    (hstep : ∀ past s i, P past s → P (past ++ [⟨s, i⟩]) (next s i))
    (inputs : List ι) :
    P (trace next s inputs) (run next s inputs) :=
  trace_induction_of P (fun _ => True) hinit
    (fun past s i h _ => hstep past s i h) inputs (fun _ _ => trivial)

/-- A predicate that an edge keeps exactly in the cycles that satisfy `ok` holds
all along a run exactly if every cycle of it does. -/
theorem forall_before_iff (P : List (Cycle σ ι) → σ → Prop)
    (ok : Cycle σ ι → Prop) (hinit : P [] s)
    (hstep : ∀ past s i, P past s →
      (P (past ++ [⟨s, i⟩]) (next s i) ↔ ok ⟨s, i⟩)) (inputs : List ι) :
    (∀ before, before <+: inputs →
        P (trace next s before) (run next s before)) ↔
      ∀ c ∈ trace next s inputs, ok c := by
  induction inputs using List.reverseRecOn with
  | nil => simpa using hinit
  | append_singleton inputs i ih =>
      have hlast := hstep (trace next s inputs) (run next s inputs) i
      rw [trace_append, List.forall_mem_append, ← ih]
      constructor
      · intro h
        have hbefore : ∀ before, before <+: inputs →
            P (trace next s before) (run next s before) := by
          intro before hb
          exact h before (hb.trans (List.prefix_append inputs [i]))
        refine ⟨hbefore, ?_⟩
        have hall := h (inputs ++ [i]) List.prefix_rfl
        rw [trace_append, run_append] at hall
        simpa using (hlast (hbefore inputs List.prefix_rfl)).mp hall
      · rintro ⟨hbefore, hok⟩ before hb
        rcases List.prefix_concat_iff.mp hb with rfl | hb
        · rw [trace_append, run_append]
          exact (hlast (hbefore inputs List.prefix_rfl)).mpr
            (hok _ List.mem_cons_self)
        · exact hbefore before hb

/-- The rule for predicates that mention the inputs, for runs in which each
cycle is related to the one before it. -/
theorem trace_chain (P ok : Cycle σ ι → Prop) (R : Cycle σ ι → Cycle σ ι → Prop)
    (hstep : ∀ s i j, P ⟨s, i⟩ → ok ⟨s, i⟩ → R ⟨s, i⟩ ⟨next s i, j⟩ →
      P ⟨next s i, j⟩)
    {inputs : List ι} (hinit : ∀ c ∈ (trace next s inputs).head?, P c)
    (hok : ∀ c ∈ trace next s inputs, ok c)
    (h : (trace next s inputs).IsChain R) : ∀ c ∈ trace next s inputs, P c := by
  induction inputs generalizing s with
  | nil => simp
  | cons i inputs ih =>
      have hi : P ⟨s, i⟩ := hinit ⟨s, i⟩ rfl
      rw [trace_cons, List.forall_mem_cons] at hok ⊢
      rw [trace_cons] at h
      refine ⟨hi, ih ?_ hok.2 h.of_cons⟩
      intro d hd
      cases inputs with
      | nil => cases hd
      | cons j inputs =>
          obtain rfl := Option.some.inj hd
          exact hstep s i j hi hok.1 (List.isChain_cons_cons.mp h).1

/-- A relation of each cycle to the next that the earlier of the two decides. -/
theorem isChain_trace_iff {H R : Cycle σ ι → Cycle σ ι → Prop}
    {P : Cycle σ ι → Prop}
    (hstep : ∀ s i j, H ⟨s, i⟩ ⟨next s i, j⟩ →
      (R ⟨s, i⟩ ⟨next s i, j⟩ ↔ P ⟨s, i⟩))
    {inputs : List ι} (h : (trace next s inputs).IsChain H) :
    (trace next s inputs).IsChain R ↔
      ∀ c ∈ (trace next s inputs).dropLast, P c := by
  induction inputs generalizing s with
  | nil => simp
  | cons i inputs ih =>
      cases inputs with
      | nil => simp
      | cons j inputs =>
          rw [trace_cons, trace_cons] at h
          obtain ⟨hfirst, hrest⟩ := List.isChain_cons_cons.mp h
          rw [trace_cons, trace_cons, List.isChain_cons_cons,
            List.dropLast_cons_cons, List.forall_mem_cons, hstep s i j hfirst]
          exact and_congr_right' (ih hrest)

end Invariants

/-! ## Conservation

`todo s xs` lists the words a machine in state `s` still has to emit when `xs`
is still to arrive.  If every edge keeps the books, so does every run. -/

section Conservation

variable {next : σ → ι → σ}

/-- The rule for runs made of cycles that satisfy `ok`. -/
theorem run_emits_of (ok : Cycle σ ι → Prop)
    (todo : σ → List α → List β)
    (accepted : Cycle σ ι → List α) (emitted : Cycle σ ι → List β)
    (hstep : ∀ s i, ok ⟨s, i⟩ → ∀ xs,
      todo s (accepted ⟨s, i⟩ ++ xs) = emitted ⟨s, i⟩ ++ todo (next s i) xs)
    {s : σ} (inputs : List ι) (hok : ∀ c ∈ trace next s inputs, ok c)
    (xs : List α) :
    todo s ((trace next s inputs).flatMap accepted ++ xs) =
      (trace next s inputs).flatMap emitted ++
        todo (run next s inputs) xs := by
  induction inputs generalizing s with
  | nil => simp
  | cons i inputs ih =>
      rw [trace_cons, List.forall_mem_cons] at hok
      simp only [trace_cons, List.flatMap_cons, List.append_assoc, run_cons]
      rw [hstep s i hok.1, ih hok.2]

theorem run_emits (P : σ → Prop) (todo : σ → List α → List β)
    (accepted : Cycle σ ι → List α) (emitted : Cycle σ ι → List β)
    (hP : ∀ s i, P s → P (next s i))
    (hstep : ∀ s i, P s → ∀ xs,
      todo s (accepted ⟨s, i⟩ ++ xs) = emitted ⟨s, i⟩ ++ todo (next s i) xs)
    {s : σ} (h : P s) (inputs : List ι) (xs : List α) :
    todo s ((trace next s inputs).flatMap accepted ++ xs) =
      (trace next s inputs).flatMap emitted ++
        todo (run next s inputs) xs :=
  run_emits_of (fun c => P c.state) todo accepted emitted
    (fun s i hs => hstep s i hs) inputs (trace_invariant P hP h inputs) xs

/-- A machine that only stores and starts empty: what it accepts is what it
delivers and then holds. -/
theorem run_conserves_of (P : σ → Prop) (contents : σ → List α)
    (accepted delivered : Cycle σ ι → List α)
    (hP : ∀ s i, P s → P (next s i))
    (hstep : ∀ s i, P s →
      contents s ++ accepted ⟨s, i⟩ =
        delivered ⟨s, i⟩ ++ contents (next s i))
    {s : σ} (h : P s) (hempty : contents s = []) (inputs : List ι) :
    (trace next s inputs).flatMap accepted =
      (trace next s inputs).flatMap delivered ++
        contents (run next s inputs) := by
  have hrun := run_emits P (fun s xs => contents s ++ xs)
    accepted delivered hP
    (fun s i hs xs => by
      rw [← List.append_assoc, hstep s i hs, List.append_assoc])
    h inputs []
  rwa [hempty, List.nil_append, List.append_nil, List.append_nil] at hrun

theorem run_conserves (contents : σ → List α)
    (accepted delivered : Cycle σ ι → List α)
    (hstep : ∀ s i,
      contents s ++ accepted ⟨s, i⟩ =
        delivered ⟨s, i⟩ ++ contents (next s i))
    {s : σ} (hempty : contents s = []) (inputs : List ι) :
    (trace next s inputs).flatMap accepted =
      (trace next s inputs).flatMap delivered ++
        contents (run next s inputs) :=
  run_conserves_of (fun _ => True) contents accepted delivered
    (fun _ _ _ => trivial) (fun s i _ => hstep s i) trivial hempty inputs

/-- The same bookkeeping for a machine that consumes two streams.  `todo s xs
ys` lists the outputs still to come when `xs` and `ys` are still to arrive. -/
theorem run_transduces {γ : Type*}
    (todo : σ → List α → List β → List γ)
    (left : Cycle σ ι → List α) (right : Cycle σ ι → List β)
    (emitted : Cycle σ ι → List γ)
    (hstep : ∀ s i xs ys,
      todo s (left ⟨s, i⟩ ++ xs) (right ⟨s, i⟩ ++ ys) =
        emitted ⟨s, i⟩ ++ todo (next s i) xs ys)
    (s : σ) (inputs : List ι) (xs : List α) (ys : List β) :
    todo s ((trace next s inputs).flatMap left ++ xs)
        ((trace next s inputs).flatMap right ++ ys) =
      (trace next s inputs).flatMap emitted ++
        todo (run next s inputs) xs ys := by
  induction inputs generalizing s with
  | nil => simp
  | cons i inputs ih =>
      simp only [trace_cons, List.flatMap_cons, List.append_assoc, run_cons]
      rw [hstep s i, ih (next s i)]

end Conservation

/-! ## Progress

`todo` counts the words a machine still has to emit and `lag` the cycles in
which it may get ready to emit the first of them.  In a run with enough `go`
cycles, whatever happens in between, every word waiting at the start is
emitted. -/

section Progress

variable {next : σ → ι → σ} (P : σ → Prop)

theorem run_drains (todo lag : σ → ℕ) (emitted : Cycle σ ι → List α)
    (go : ι → Bool)
    (hP : ∀ s i, P s → P (next s i))
    (htodo : ∀ s i, P s →
      todo s ≤ (emitted ⟨s, i⟩).length + todo (next s i))
    (hlag : ∀ s i, P s → (emitted ⟨s, i⟩).length < todo s →
      lag (next s i) ≤ lag s)
    (hgo : ∀ s i, P s → go i = true → 0 < todo s →
      0 < (emitted ⟨s, i⟩).length ∨ lag (next s i) < lag s)
    {s : σ} (h : P s) (inputs : List ι) {m : ℕ}
    (hm : m ≤ todo s) (hcount : m + lag s ≤ inputs.countP go) :
    m ≤ ((trace next s inputs).flatMap emitted).length := by
  induction inputs generalizing s m with
  | nil =>
      rw [List.countP_nil] at hcount
      omega
  | cons i inputs ih =>
      have hstep := htodo s i h
      rw [trace_cons, List.flatMap_cons, List.length_append]
      rw [List.countP_cons] at hcount
      by_cases hdone : m ≤ (emitted ⟨s, i⟩).length
      · omega
      · have hlag' := hlag s i h (by omega)
        have hrest : m - (emitted ⟨s, i⟩).length ≤
            ((trace next (next s i) inputs).flatMap emitted).length := by
          apply ih (hP s i h)
          · omega
          · cases hi : go i with
            | false =>
                rw [hi] at hcount
                simp only [Bool.false_eq_true, if_false] at hcount
                omega
            | true =>
                rw [hi] at hcount
                simp only [if_true] at hcount
                rcases hgo s i h hi (by omega) with hemit | hready <;> omega
        omega

/-- Enough `go` cycles for two phases are enough cycles for each in turn. -/
theorem exists_split_countP (go : ι → Bool) {m n : ℕ} {inputs : List ι}
    (h : m + n ≤ inputs.countP go) :
    ∃ xs ys, inputs = xs ++ ys ∧ m ≤ xs.countP go ∧ n ≤ ys.countP go := by
  induction inputs generalizing m with
  | nil =>
      rw [List.countP_nil] at h
      exact ⟨[], [], rfl, by omega, by omega⟩
  | cons i inputs ih =>
      cases m with
      | zero =>
          rw [Nat.zero_add] at h
          exact ⟨[], i :: inputs, rfl, Nat.zero_le _, h⟩
      | succ m =>
          cases hi : go i with
          | false =>
              rw [List.countP_cons_of_neg (by simp [hi])] at h
              obtain ⟨xs, ys, rfl, hxs, hys⟩ := ih h
              refine ⟨i :: xs, ys, rfl, ?_, hys⟩
              rwa [List.countP_cons_of_neg (by simp [hi])]
          | true =>
              rw [List.countP_cons_of_pos hi] at h
              obtain ⟨xs, ys, rfl, hxs, hys⟩ := ih (m := m) (by omega)
              refine ⟨i :: xs, ys, rfl, ?_, hys⟩
              rw [List.countP_cons_of_pos hi]
              omega

end Progress

/-! ## Stuttering

A machine that acts only in some of its cycles runs, in those cycles, like a
machine that acts in all of them. -/

section Stuttering

variable {τ : Type*} {δ : Type*}

def Cycle.map (view : σ → τ) (data : ι → δ) (c : Cycle σ ι) : Cycle τ δ :=
  ⟨view c.state, data c.input⟩

theorem trace_accepted {next : σ → ι → σ} {sample : τ → δ → τ}
    (view : σ → τ) (data : ι → δ) (accepted : Cycle σ ι → Bool)
    (hhold : ∀ s i, accepted ⟨s, i⟩ = false → view (next s i) = view s)
    (hact : ∀ s i, accepted ⟨s, i⟩ = true →
      view (next s i) = sample (view s) (data i))
    (s : σ) (inputs : List ι) :
    ((trace next s inputs).filter accepted).map (Cycle.map view data) =
      trace sample (view s)
        (((trace next s inputs).filter accepted).map
          fun c => data c.input) := by
  induction inputs generalizing s with
  | nil => rfl
  | cons i inputs ih =>
      have hrest := ih (next s i)
      cases hi : accepted ⟨s, i⟩ with
      | false =>
          rw [hhold s i hi] at hrest
          rwa [trace_cons, List.filter_cons_of_neg (by simp [hi])]
      | true =>
          rw [hact s i hi] at hrest
          rw [trace_cons, List.filter_cons_of_pos hi, List.map_cons,
            List.map_cons, trace_cons, hrest]
          rfl

/-- A machine of which a part runs like another machine, with inputs taken from
its cycles. -/
theorem trace_view {next : σ → ι → σ} {sample : τ → δ → τ}
    (view : σ → τ) (data : Cycle σ ι → δ) (ok : ι → Prop)
    (hstep : ∀ s i, ok i → view (next s i) = sample (view s) (data ⟨s, i⟩))
    (s : σ) {inputs : List ι} (hok : ∀ i ∈ inputs, ok i) :
    (trace next s inputs).map (fun c => ⟨view c.state, data c⟩) =
        trace sample (view s) ((trace next s inputs).map data) ∧
      view (run next s inputs) =
        run sample (view s) ((trace next s inputs).map data) := by
  induction inputs generalizing s with
  | nil => exact ⟨rfl, rfl⟩
  | cons i inputs ih =>
      rw [List.forall_mem_cons] at hok
      obtain ⟨htrace, hrun⟩ := ih (next s i) hok.2
      rw [trace_cons, List.map_cons, List.map_cons, trace_cons, run_cons,
        run_cons, ← hstep s i hok.1]
      exact ⟨congrArg _ htrace, hrun⟩

/-- A machine of which each step is, in the view, some steps of another. -/
theorem run_refines {next : σ → ι → σ} {step : τ → δ → τ} (P : σ → Prop)
    (view : σ → τ) (data : Cycle σ ι → List δ)
    (hP : ∀ s i, P s → P (next s i))
    (hstep : ∀ s i, P s → view (next s i) = run step (view s) (data ⟨s, i⟩))
    {s : σ} (h : P s) (inputs : List ι) :
    view (run next s inputs) =
      run step (view s) ((trace next s inputs).flatMap data) := by
  induction inputs generalizing s with
  | nil => rfl
  | cons i inputs ih =>
      rw [run_cons, ih (hP s i h), trace_cons, List.flatMap_cons, run_append,
        hstep s i h]

variable {next : σ → ι → σ} {s : σ} {inputs : List ι}

/-- What follows a cycle of a run is the run from the state it leaves. -/
theorem trace_after {before after : List (Cycle σ ι)} {c : Cycle σ ι}
    (h : trace next s inputs = before ++ c :: after) :
    after = trace next (next c.state c.input) (after.map Cycle.input) := by
  induction before generalizing s inputs with
  | nil =>
      cases inputs with
      | nil => cases h
      | cons i inputs =>
          obtain ⟨rfl, rfl⟩ := List.cons.inj h
          rw [map_input_trace]
  | cons b before ih =>
      cases inputs with
      | nil => cases h
      | cons i inputs => exact ih (List.cons.inj h).2

/-- What precedes a cycle of a run is a run to the state it finds. -/
theorem exists_before {past rest : List (Cycle σ ι)} {c : Cycle σ ι}
    (h : trace next s inputs = past ++ c :: rest) :
    ∃ before after, inputs = before ++ c.input :: after ∧
      past = trace next s before ∧ c.state = run next s before := by
  induction past generalizing s inputs with
  | nil =>
      cases inputs with
      | nil => cases h
      | cons i inputs =>
          obtain ⟨rfl, rfl⟩ := List.cons.inj h
          exact ⟨[], inputs, rfl, rfl, rfl⟩
  | cons b past ih =>
      cases inputs with
      | nil => cases h
      | cons i inputs =>
          obtain ⟨rfl, htail⟩ := List.cons.inj h
          obtain ⟨before, after, rfl, rfl, hstate⟩ := ih htail
          exact ⟨i :: before, after, rfl, rfl, hstate⟩

/-- Both sides of a cycle of a run. -/
theorem exists_split {past rest : List (Cycle σ ι)} {c : Cycle σ ι}
    (h : trace next s inputs = past ++ c :: rest) :
    ∃ before after, inputs = before ++ c.input :: after ∧
      past = trace next s before ∧ c.state = run next s before ∧
      rest = trace next (next c.state c.input) after ∧
      run next s inputs = run next (next c.state c.input) after := by
  obtain ⟨before, after, rfl, rfl, hstate⟩ := exists_before h
  rw [trace_append, List.append_cancel_left_eq, trace_cons, ← hstate] at h
  refine ⟨before, after, rfl, rfl, hstate, (List.cons.inj h).2.symm, ?_⟩
  rw [run_append, run_cons, ← hstate]

theorem exists_before_of_mem {c : Cycle σ ι} (h : c ∈ trace next s inputs) :
    ∃ before after, inputs = before ++ c.input :: after ∧
      c.state = run next s before := by
  obtain ⟨past, rest, hsplit⟩ := List.append_of_mem h
  obtain ⟨before, after, hinputs, -, hstate⟩ := exists_before hsplit
  exact ⟨before, after, hinputs, hstate⟩

/-- The invariant rule for predicates that mention the number of the cycle. -/
theorem trace_counts (P : ℕ → σ → Prop) (ok : Cycle σ ι → Prop)
    (hinit : P 0 s)
    (hstep : ∀ n s i, P n s → ok ⟨s, i⟩ → P (n + 1) (next s i))
    {n : ℕ} {c : Cycle σ ι} (hc : (trace next s inputs)[n]? = some c)
    (hok : ∀ d ∈ (trace next s inputs).take n, ok d) :
    P n c.state := by
  induction n generalizing s inputs P with
  | zero =>
      cases inputs with
      | nil => simp at hc
      | cons i inputs =>
          rw [trace_cons, List.getElem?_cons_zero] at hc
          obtain rfl := Option.some.inj hc
          exact hinit
  | succ n ih =>
      cases inputs with
      | nil => simp at hc
      | cons i inputs =>
          rw [trace_cons, List.getElem?_cons_succ] at hc
          rw [trace_cons, List.take_succ_cons, List.forall_mem_cons] at hok
          apply ih (fun m => P (m + 1)) (hstep 0 s i hinit hok.1)
          · exact fun m => hstep (m + 1)
          · exact hc
          · exact hok.2

/-- A predicate that counts the edges since a cycle of the run. -/
theorem trace_since (P : ℕ → σ → Prop)
    (hstep : ∀ k s i, P k s → P (k + 1) (next s i))
    {n k : ℕ} {c d : Cycle σ ι} (hc : (trace next s inputs)[n]? = some c)
    (hd : (trace next s inputs)[n + k]? = some d) (h : P 0 c.state) :
    P k d.state := by
  induction n generalizing s inputs with
  | zero =>
      cases inputs with
      | nil => simp at hc
      | cons i inputs =>
          rw [trace_cons, List.getElem?_cons_zero] at hc
          obtain rfl := Option.some.inj hc
          rw [Nat.zero_add] at hd
          exact trace_counts P (fun _ => True) h
            (fun k s i hs _ => hstep k s i hs) hd (fun _ _ => trivial)
  | succ n ih =>
      cases inputs with
      | nil => simp at hc
      | cons i inputs =>
          rw [trace_cons, List.getElem?_cons_succ] at hc
          rw [Nat.add_right_comm, trace_cons, List.getElem?_cons_succ] at hd
          exact ih hc hd

end Stuttering

/-! ## History -/

section History

variable {γ : Type*}

/-- What had happened before the last marked event. -/
def untilLast (mark : γ → Bool) (past : List γ) : List γ :=
  (past.reverse.dropWhile fun c => !mark c).tail.reverse

theorem untilLast_snoc (mark : γ → Bool) (past : List γ) (c : γ) :
    untilLast mark (past ++ [c]) = if mark c then past else untilLast mark past := by
  rw [untilLast, List.reverse_append, List.reverse_singleton, List.singleton_append,
    List.dropWhile_cons]
  cases mark c with
  | false => rfl
  | true => exact List.reverse_reverse past

/-- What has happened since the last marked event, that event first. -/
def sinceLast (mark : γ → Bool) (past : List γ) : List γ :=
  past.foldl (fun recent c => if mark c then [c] else recent ++ [c]) []

theorem sinceLast_snoc (mark : γ → Bool) (past : List γ) (c : γ) :
    sinceLast mark (past ++ [c]) =
      if mark c then [c] else sinceLast mark past ++ [c] := by
  rw [sinceLast, List.foldl_append]
  rfl

/-- A property of every event and its past, event by event. -/
theorem forall_split_iff {P : List γ → γ → Prop} {events : List γ} :
    (∀ past c rest, events = past ++ c :: rest → P past c) ↔
      ∀ n, ∀ h : n < events.length, P (events.take n) (events[n]) := by
  constructor
  · intro h n hn
    apply h (events.take n) events[n] (events.drop (n + 1))
    rw [List.cons_getElem_drop_succ, List.take_append_drop]
  · rintro h past c rest rfl
    simpa using h past.length (by simp)

end History

end Clocked
