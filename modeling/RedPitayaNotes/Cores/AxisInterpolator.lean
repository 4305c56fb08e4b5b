import RedPitayaNotes.Support.Clocked
import RedPitayaNotes.Support.Counters
import RedPitayaNotes.Support.Elastic

/-!
# The axis_interpolator core

`cores/axis_interpolator.v` sends each word `cfg_data + 1` times.  A word is
captured in the cycle before the one in which it is accepted, and the next one
may be captured with the last repetition.
-/

namespace RedPitayaNotes.AxisInterpolator

open Clocked Elastic Counters

structure Params where
  axisTdataWidth : ℕ := 32
  cntrWidth : ℕ := 32

structure State (p : Params) where
  intTdataReg : BitVec p.axisTdataWidth
  intCntrReg : BitVec p.cntrWidth
  intTvalidReg : Bool
  intTreadyReg : Bool

structure Input (p : Params) where
  cfgData : BitVec p.cntrWidth
  sAxisTdata : BitVec p.axisTdataWidth
  sAxisTvalid : Bool
  mAxisTready : Bool

variable {p : Params}

/-- The condition of the first `if`. -/
def captures (s : State p) (i : Input p) : Bool :=
  i.sAxisTvalid && !s.intTvalidReg

/-- The condition of the inner `else`. -/
def repeated (s : State p) (i : Input p) : Bool :=
  i.mAxisTready && s.intTvalidReg && !decide (s.intCntrReg < i.cfgData)

/-- Of two assignments to a register the later one counts. -/
def step (aresetn : Bool) (s : State p) (i : Input p) : State p where
  intTdataReg :=
    if !aresetn then 0
    else if repeated s i then i.sAxisTdata
    else if captures s i then i.sAxisTdata
    else s.intTdataReg
  intCntrReg :=
    if !aresetn then 0
    else if i.mAxisTready && s.intTvalidReg then
      if s.intCntrReg < i.cfgData then s.intCntrReg + 1 else 0
    else s.intCntrReg
  intTvalidReg :=
    if !aresetn then false
    else if repeated s i then i.sAxisTvalid
    else if captures s i then true
    else s.intTvalidReg
  intTreadyReg :=
    if !aresetn then false
    else if i.sAxisTvalid && s.intTreadyReg then false
    else if repeated s i then i.sAxisTvalid
    else if captures s i then true
    else s.intTreadyReg

def next (s : State p) (i : Input p) : State p := step true s i

/-- The registers after an edge in reset. -/
def reset (p : Params) : State p := ⟨0, 0, false, false⟩

theorem step_reset (s : State p) (i : Input p) : step false s i = reset p := rfl

section Events

variable (c : Cycle (State p) (Input p))

/-- The words accepted on `s_axis`. -/
def accepted : List (BitVec p.axisTdataWidth) :=
  transfer c.input.sAxisTvalid c.state.intTreadyReg c.input.sAxisTdata

/-- The words transferred on `m_axis`. -/
def transferred : List (BitVec p.axisTdataWidth) :=
  transfer c.state.intTvalidReg c.input.mAxisTready c.state.intTdataReg

end Events

/-- A source that obeys the protocol. -/
def SourceHolds (inputs : List (Input p)) : Prop :=
  (trace next (reset p) inputs).IsChain
    (Holds (fun c => c.input.sAxisTvalid) (fun c => c.state.intTreadyReg)
      fun c => c.input.sAxisTdata)

instance (inputs : List (Input p)) : Decidable (SourceHolds inputs) :=
  inferInstanceAs (Decidable (List.IsChain _ _))

/-- The repetitions still to come of the words accepted. -/
def pending (cfg : BitVec p.cntrWidth) (s : State p) :
    List (BitVec p.axisTdataWidth) :=
  if s.intTvalidReg && !s.intTreadyReg then
    List.replicate (cfg.toNat + 1 - s.intCntrReg.toNat) s.intTdataReg
  else []

/-- Each word accepted is sent `cfg_data + 1` times. -/
def Repeats (cfg : BitVec p.cntrWidth) (inputs : List (Input p)) : Prop :=
  (trace next (reset p) inputs).flatMap transferred ++
      pending cfg (run next (reset p) inputs) =
    ((trace next (reset p) inputs).flatMap accepted).flatMap
      (List.replicate (cfg.toNat + 1))

instance (cfg : BitVec p.cntrWidth) (inputs : List (Input p)) :
    Decidable (Repeats cfg inputs) :=
  inferInstanceAs (Decidable (_ = _))

/-! ## One cycle -/

/-- A word is accepted while its predecessor counts as sent, so that what is
captured is captured again. -/
def collides (c : Cycle (State p) (Input p)) : Bool :=
  c.input.sAxisTvalid && c.state.intTreadyReg && repeated c.state c.input

/-- What holds in every cycle. -/
structure Settled (cfg : BitVec p.cntrWidth) (c : Cycle (State p) (Input p)) :
    Prop where
  cntr : c.state.intCntrReg.toNat ≤ cfg.toNat
  empty : c.state.intTvalidReg = false →
    c.state.intCntrReg = 0 ∧ c.state.intTreadyReg = false
  captured : c.state.intTreadyReg = true →
    c.state.intTvalidReg = true ∧ c.state.intCntrReg = 0 ∧
      c.input.sAxisTvalid = true ∧ c.input.sAxisTdata = c.state.intTdataReg

section Cycles

variable {cfg : BitVec p.cntrWidth} {s : State p} {i : Input p}

theorem settled_reset (cfg : BitVec p.cntrWidth) (i : Input p) :
    Settled cfg ⟨reset p, i⟩ :=
  ⟨Nat.le_trans (Nat.le_of_eq (Nat.zero_mod _)) (Nat.zero_le _), fun _ => ⟨rfl, rfl⟩,
    fun h => Bool.noConfusion h⟩

/-- No word is offered. -/
theorem next_of_empty (hvalid : s.intTvalidReg = false) (hready : s.intTreadyReg = false) :
    next s i =
      if i.sAxisTvalid then ⟨i.sAxisTdata, s.intCntrReg, true, true⟩
      else ⟨s.intTdataReg, s.intCntrReg, false, false⟩ := by
  cases h : i.sAxisTvalid <;>
    simp [next, step, repeated, captures, hvalid, hready, h]

/-- A word is offered and not taken. -/
theorem next_of_stall (hvalid : s.intTvalidReg = true) (h : i.mAxisTready = false) :
    next s i =
      ⟨s.intTdataReg, s.intCntrReg, true, !i.sAxisTvalid && s.intTreadyReg⟩ := by
  cases hs : i.sAxisTvalid <;>
    simp [next, step, repeated, captures, hvalid, h, hs]

/-- A word is taken and comes again. -/
theorem next_of_again (hvalid : s.intTvalidReg = true) (h : i.mAxisTready = true)
    (hlt : s.intCntrReg < i.cfgData) :
    next s i =
      ⟨s.intTdataReg, s.intCntrReg + 1, true, !i.sAxisTvalid && s.intTreadyReg⟩ := by
  cases hs : i.sAxisTvalid <;>
    simp [next, step, repeated, captures, hvalid, h, hs, hlt]

/-- A word is taken for the last time. -/
theorem next_of_last (hvalid : s.intTvalidReg = true) (h : i.mAxisTready = true)
    (hlt : ¬s.intCntrReg < i.cfgData) :
    next s i =
      ⟨i.sAxisTdata, 0, i.sAxisTvalid, i.sAxisTvalid && !s.intTreadyReg⟩ := by
  cases hs : i.sAxisTvalid <;> cases ht : s.intTreadyReg <;>
    simp [next, step, repeated, hvalid, h, hs, ht, hlt]

theorem Settled.next {j : Input p} (h : Settled cfg ⟨s, i⟩) (hcfg : i.cfgData = cfg)
    (hholds : i.sAxisTvalid = true → s.intTreadyReg = false →
      j.sAxisTvalid = true ∧ j.sAxisTdata = i.sAxisTdata) :
    Settled cfg ⟨AxisInterpolator.next s i, j⟩ := by
  subst hcfg
  obtain ⟨hcntr, hempty, hcaptured⟩ := h
  dsimp only at hcntr hempty hcaptured
  cases hvalid : s.intTvalidReg with
  | false =>
      obtain ⟨hzero, hready⟩ := hempty hvalid
      rw [next_of_empty hvalid hready]
      cases hs : i.sAxisTvalid with
      | false => exact ⟨hcntr, fun _ => ⟨hzero, rfl⟩, fun h => Bool.noConfusion h⟩
      | true =>
          exact ⟨hcntr, fun h => Bool.noConfusion h,
            fun _ => ⟨rfl, hzero, hholds hs hready⟩⟩
  | true =>
      have haccept : (!i.sAxisTvalid && s.intTreadyReg) = false := by
        cases hready : s.intTreadyReg with
        | false => exact Bool.and_false _
        | true =>
            rw [(hcaptured hready).2.2.1]
            rfl
      cases hm : i.mAxisTready with
      | false =>
          rw [next_of_stall hvalid hm, haccept]
          exact ⟨hcntr, fun h => Bool.noConfusion h, fun h => Bool.noConfusion h⟩
      | true =>
          by_cases hlt : s.intCntrReg < i.cfgData
          · rw [next_of_again hvalid hm hlt, haccept]
            refine ⟨?_, fun h => Bool.noConfusion h, fun h => Bool.noConfusion h⟩
            have hlt' : s.intCntrReg.toNat < i.cfgData.toNat := hlt
            dsimp only
            rw [toNat_add_one_of_lt hlt']
            exact hlt'
          · rw [next_of_last hvalid hm hlt]
            refine ⟨?_, fun hs => ⟨rfl, ?_⟩, fun hs => ?_⟩
            · exact Nat.le_trans (Nat.le_of_eq (Nat.zero_mod _)) (Nat.zero_le _)
            · dsimp only at hs ⊢
              rw [hs, Bool.false_and]
            · rw [Bool.and_eq_true, Bool.not_eq_true'] at hs
              exact ⟨hs.1, rfl, hholds hs.1 hs.2⟩

/-- What a cycle adds to the words to be sent. -/
def due (cfg : BitVec p.cntrWidth) (c : Cycle (State p) (Input p)) :
    List (BitVec p.axisTdataWidth) :=
  (accepted c).flatMap (List.replicate (cfg.toNat + 1)) ++
    if collides c then [c.input.sAxisTdata] else []

theorem pending_append_of_empty (hvalid : s.intTvalidReg = false)
    (hready : s.intTreadyReg = false) :
    pending cfg s ++ due cfg ⟨s, i⟩ =
      transferred ⟨s, i⟩ ++ pending cfg (next s i) := by
  rw [next_of_empty hvalid hready]
  cases hs : i.sAxisTvalid <;>
    simp [pending, due, accepted, collides, transferred, hvalid, hready]

/-- The cycle in which a word is accepted. -/
theorem pending_append_of_captured (hcfg : i.cfgData = cfg) (hvalid : s.intTvalidReg = true)
    (hready : s.intTreadyReg = true) (hzero : s.intCntrReg = 0)
    (hs : i.sAxisTvalid = true) (hdata : i.sAxisTdata = s.intTdataReg) :
    pending cfg s ++ due cfg ⟨s, i⟩ =
      transferred ⟨s, i⟩ ++ pending cfg (next s i) := by
  subst hcfg
  cases hm : i.mAxisTready with
  | false =>
      rw [next_of_stall hvalid hm]
      simp [pending, due, accepted, collides, transferred, repeated, hready, hzero,
        hs, hdata, hm]
  | true =>
      by_cases hlt : s.intCntrReg < i.cfgData
      · have hone : (s.intCntrReg.toNat + 1) % 2 ^ p.cntrWidth = 1 := by
          rw [succ_mod_of_lt hlt, hzero]
          exact congrArg (· + 1) BitVec.toNat_zero
        rw [next_of_again hvalid hm hlt]
        simp [pending, due, accepted, collides, transferred, repeated, hvalid, hready,
          hs, hdata, hm, hlt, hone, List.replicate_succ]
      · have hnone : i.cfgData.toNat = 0 := by
          rw [BitVec.not_lt, hzero] at hlt
          exact Nat.le_zero.mp (Nat.le_trans hlt (Nat.le_of_eq BitVec.toNat_zero))
        rw [next_of_last hvalid hm hlt]
        simp [pending, due, accepted, collides, transferred, repeated, hvalid, hready,
          hs, hdata, hm, hlt, hnone]

/-- The cycles after that. -/
theorem pending_append_of_waiting (hcfg : i.cfgData = cfg) (hvalid : s.intTvalidReg = true)
    (hready : s.intTreadyReg = false) (hcntr : s.intCntrReg.toNat ≤ cfg.toNat) :
    pending cfg s ++ due cfg ⟨s, i⟩ =
      transferred ⟨s, i⟩ ++ pending cfg (next s i) := by
  subst hcfg
  cases hm : i.mAxisTready with
  | false =>
      rw [next_of_stall hvalid hm]
      simp [pending, due, accepted, collides, transferred, hvalid, hready, hm]
  | true =>
      by_cases hlt : s.intCntrReg < i.cfgData
      · have hmore : i.cfgData.toNat + 1 - s.intCntrReg.toNat =
            i.cfgData.toNat - s.intCntrReg.toNat + 1 := Nat.succ_sub hcntr
        rw [next_of_again hvalid hm hlt]
        simp [pending, due, accepted, collides, transferred, hvalid, hready, hm,
          succ_mod_of_lt hlt, hmore, List.replicate_succ]
      · have hlast : s.intCntrReg.toNat = i.cfgData.toNat :=
          Nat.le_antisymm hcntr (Nat.not_lt.mp hlt)
        rw [next_of_last hvalid hm hlt]
        cases hs : i.sAxisTvalid <;>
          simp [pending, due, accepted, collides, transferred, hvalid, hready, hm, hlast]

theorem Settled.pending_append (h : Settled cfg ⟨s, i⟩) (hcfg : i.cfgData = cfg) :
    pending cfg s ++ due cfg ⟨s, i⟩ =
      transferred ⟨s, i⟩ ++ pending cfg (AxisInterpolator.next s i) := by
  cases hready : s.intTreadyReg with
  | true =>
      obtain ⟨hvalid, hzero, hs, hdata⟩ := h.captured hready
      exact pending_append_of_captured hcfg hvalid hready hzero hs hdata
  | false =>
      cases hvalid : s.intTvalidReg with
      | false => exact pending_append_of_empty hvalid hready
      | true => exact pending_append_of_waiting hcfg hvalid hready h.cntr

theorem Settled.collides_iff (h : Settled cfg ⟨s, i⟩) (hcfg : i.cfgData = cfg) :
    collides ⟨s, i⟩ = true ↔
      cfg = 0 ∧ (i.sAxisTvalid && s.intTreadyReg && i.mAxisTready) = true := by
  subst hcfg
  unfold collides repeated
  cases hready : s.intTreadyReg with
  | false => simp
  | true =>
      obtain ⟨hvalid, hzero, hs, -⟩ := h.captured hready
      dsimp only at hvalid hzero hs
      rw [hvalid, hzero, hs]
      simp [and_comm]

end Cycles

section Runs

variable {cfg : BitVec p.cntrWidth} {inputs : List (Input p)}

theorem settled_trace (hports : ∀ i ∈ inputs, i.cfgData = cfg)
    (hsource : SourceHolds inputs) :
    ∀ c ∈ trace next (reset p) inputs, Settled cfg c := by
  refine trace_chain (Settled cfg) (fun c => c.input.cfgData = cfg) _ ?_ ?_
    (forall_trace_input next (reset p) hports) hsource
  · intro s i j h hcfg hholds
    exact h.next hcfg hholds
  · intro c hc
    cases inputs with
    | nil => cases hc
    | cons i inputs =>
        obtain rfl := Option.some.inj hc
        exact settled_reset cfg i

/-- What has been sent and what is still to be sent, with the words that
collisions add. -/
theorem transferred_eq (hports : ∀ i ∈ inputs, i.cfgData = cfg)
    (hsource : SourceHolds inputs) :
    (trace next (reset p) inputs).flatMap transferred ++
        pending cfg (run next (reset p) inputs) =
      (trace next (reset p) inputs).flatMap (due cfg) := by
  have hsettled := settled_trace hports hsource
  have hcfg := forall_trace_input next (reset p) hports
  have hrun := run_emits_of (fun c => Settled cfg c ∧ c.input.cfgData = cfg)
    (fun s xs => pending cfg s ++ xs) (due cfg) transferred
    (fun s i h xs => by
      rw [← List.append_assoc, h.1.pending_append h.2, List.append_assoc])
    inputs (fun c hc => ⟨hsettled c hc, hcfg c hc⟩) []
  rw [List.append_nil, List.append_nil] at hrun
  exact hrun.symm

theorem due_eq_iff (c : Cycle (State p) (Input p)) :
    (accepted c).flatMap (List.replicate (cfg.toNat + 1)) = due cfg c ↔
      collides c = false := by
  rw [due, List.self_eq_append_right]
  cases collides c <;> simp

/-- The law holds if the words are repeated at all, and otherwise if none is
accepted in a cycle in which the consumer is ready. -/
theorem repeats_iff (hports : ∀ i ∈ inputs, i.cfgData = cfg)
    (hsource : SourceHolds inputs) :
    Repeats cfg inputs ↔
      1 ≤ cfg.toNat ∨
        ∀ c ∈ trace next (reset p) inputs,
          (c.input.sAxisTvalid && c.state.intTreadyReg) = true →
            c.input.mAxisTready = false := by
  have hsettled := settled_trace hports hsource
  have hcfg := forall_trace_input next (reset p) hports
  have hsublist : ∀ c : Cycle (State p) (Input p),
      ((accepted c).flatMap (List.replicate (cfg.toNat + 1))).Sublist (due cfg c) :=
    fun c => List.sublist_append_left _ _
  rw [Repeats, transferred_eq hports hsource, List.flatMap_assoc, eq_comm,
    flatMap_eq_iff_of_sublist hsublist]
  have hiff : ∀ c ∈ trace next (reset p) inputs,
      ((accepted c).flatMap (List.replicate (cfg.toNat + 1)) = due cfg c ↔
        (1 ≤ cfg.toNat ∨ ((c.input.sAxisTvalid && c.state.intTreadyReg) = true →
          c.input.mAxisTready = false))) := by
    intro c hc
    have hcollides := (hsettled c hc).collides_iff (hcfg c hc)
    have hzero : cfg = 0 ↔ ¬1 ≤ cfg.toNat := by
      rw [← BitVec.toNat_inj]
      change cfg.toNat = (0#p.cntrWidth).toNat ↔ _
      rw [BitVec.toNat_zero]
      omega
    rw [due_eq_iff, ← Bool.not_eq_true, hcollides, hzero, not_and_or, not_not,
      Bool.and_eq_true, not_and, Bool.not_eq_true]
  constructor
  · intro h
    by_cases hcfg' : 1 ≤ cfg.toNat
    · exact Or.inl hcfg'
    · exact Or.inr fun c hc => ((hiff c hc).mp (h c hc)).resolve_left hcfg'
  · rintro h c hc
    exact (hiff c hc).mpr (h.imp_right fun hall => hall c hc)

end Runs

/-- A source of the words 5 and 6 and a consumer that is always ready. -/
def fiveSix (cfg : BitVec 4) : List (Input ⟨8, 4⟩) :=
  [⟨cfg, 5, true, true⟩, ⟨cfg, 5, true, true⟩, ⟨cfg, 6, true, true⟩,
    ⟨cfg, 6, true, true⟩]

theorem repeats_twice : Repeats 1 (fiveSix 1) :=
  (repeats_iff (by decide) (by decide)).mpr (Or.inl (by decide))

/-- Without repetitions, a word taken in the cycle of its acceptance is sent
twice. -/
theorem not_repeats_once :
    ¬∀ (p : Params) (cfg : BitVec p.cntrWidth) (inputs : List (Input p)),
      (∀ i ∈ inputs, i.cfgData = cfg) → SourceHolds inputs →
      Repeats cfg inputs := by
  intro h
  have hrepeats := h ⟨8, 4⟩ 0 (fiveSix 0) (by decide) (by decide)
  revert hrepeats
  decide

end RedPitayaNotes.AxisInterpolator
