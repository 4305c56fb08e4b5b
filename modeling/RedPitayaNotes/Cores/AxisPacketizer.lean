import RedPitayaNotes.Support.Clocked
import RedPitayaNotes.Support.Counters
import RedPitayaNotes.Support.Elastic

/-!
# The axis_packetizer core

`cores/axis_packetizer.v` passes words on and marks the last one of each
`cfg_data + 1`.  With `CONTINUOUS` the packets follow each other; without it the
core stops after the first.  The limit is registered, so that the core is enabled
in the third cycle.
-/

namespace RedPitayaNotes.AxisPacketizer

open Clocked Elastic Counters

structure Params where
  axisTdataWidth : ℕ := 32
  cntrWidth : ℕ := 32
  continuous : Bool := false
  alwaysReady : Bool := false

structure State (p : Params) where
  intCntrReg : BitVec p.cntrWidth
  intDataReg : BitVec p.cntrWidth
  intEnblReg : Bool

structure Input (p : Params) where
  cfgData : BitVec p.cntrWidth
  sAxisTdata : BitVec p.axisTdataWidth
  sAxisTvalid : Bool
  mAxisTready : Bool

variable {p : Params}

section Wires

variable (s : State p) (i : Input p)

def intCompWire : Bool := decide (s.intCntrReg < s.intDataReg)

def intTvalidWire : Bool := s.intEnblReg && i.sAxisTvalid

def intTlastWire : Bool := !intCompWire s

def sAxisTready : Bool := if p.alwaysReady then true else s.intEnblReg && i.mAxisTready

def mAxisTdata : BitVec p.axisTdataWidth := i.sAxisTdata

def mAxisTvalid : Bool := intTvalidWire s i

def mAxisTlast : Bool := s.intEnblReg && intTlastWire s

/-- The blocks `CONTINUE` and `STOP`.  Of two assignments the later one
counts. -/
def intCntrNext : BitVec p.cntrWidth :=
  if p.continuous && (i.mAxisTready && intTvalidWire s i && intTlastWire s) then 0
  else if i.mAxisTready && intTvalidWire s i && intCompWire s then
    s.intCntrReg + 1
  else s.intCntrReg

def intEnblNext : Bool :=
  if !p.continuous && (i.mAxisTready && intTvalidWire s i && intTlastWire s) then
    false
  else if !s.intEnblReg && intCompWire s then true
  else s.intEnblReg

end Wires

def step (aresetn : Bool) (s : State p) (i : Input p) : State p where
  intCntrReg := if !aresetn then 0 else intCntrNext s i
  intDataReg := if !aresetn then 0 else i.cfgData
  intEnblReg := if !aresetn then false else intEnblNext s i

def next (s : State p) (i : Input p) : State p := step true s i

/-- The registers after an edge in reset. -/
def reset (p : Params) : State p := ⟨0, 0, false⟩

theorem step_reset (s : State p) (i : Input p) : step false s i = reset p := rfl

/-- A word on `m_axis` with its flag. -/
structure Beat (p : Params) where
  tdata : BitVec p.axisTdataWidth
  tlast : Bool
deriving DecidableEq

section Events

variable (c : Cycle (State p) (Input p))

/-- The words accepted on `s_axis`. -/
def accepted : List (BitVec p.axisTdataWidth) :=
  transfer c.input.sAxisTvalid (sAxisTready c.state c.input) c.input.sAxisTdata

/-- The words transferred on `m_axis`. -/
def transferred : List (Beat p) :=
  transfer (mAxisTvalid c.state c.input) c.input.mAxisTready
    ⟨mAxisTdata c.input, mAxisTlast c.state⟩

/-- The words that both sides are ready for. -/
def passing : List (BitVec p.axisTdataWidth) :=
  transfer c.input.sAxisTvalid c.input.mAxisTready c.input.sAxisTdata

end Events

/-! ## Counting -/

/-- Word `n` ends a packet of `last + 1` words. -/
def isLast (p : Params) (last n : ℕ) : Bool :=
  if p.continuous then (n + 1) % (last + 1) = 0 else n = last

theorem accepted_eq (hready : p.alwaysReady = false) (s : State p) (i : Input p) :
    accepted ⟨s, i⟩ = if s.intEnblReg then passing ⟨s, i⟩ else [] := by
  unfold accepted passing sAxisTready
  rw [hready]
  cases s.intEnblReg <;> simp

/-- The enabled core after `n` words. -/
structure Counted (last n : ℕ) (s : State p) : Prop where
  data : s.intDataReg.toNat = last
  cntr : s.intCntrReg.toNat =
    if p.continuous then n % (last + 1) else min n last
  enbl : s.intEnblReg = (p.continuous || decide (n ≤ last))

namespace Counted

variable {last n : ℕ} {s : State p} {i : Input p}

theorem cntr_le (h : Counted last n s) : s.intCntrReg.toNat ≤ last := by
  rw [h.cntr]
  split
  · exact Nat.le_of_lt_succ (Nat.mod_lt n (Nat.succ_pos last))
  · exact Nat.min_le_right n last

theorem intCompWire_eq (h : Counted last n s) :
    intCompWire s = decide (s.intCntrReg.toNat < last) := by
  rw [intCompWire, ← h.data]
  rfl

/-- The flag is that of the word to come. -/
theorem intTlastWire_eq (h : Counted last n s) (henbl : s.intEnblReg = true) :
    intTlastWire s = isLast p last n := by
  have hcntr := h.cntr
  have hdone := h.enbl
  rw [intTlastWire, h.intCompWire_eq, isLast, ← decide_not]
  cases hcontinuous : p.continuous with
  | true =>
      rw [hcontinuous, if_pos rfl] at hcntr
      rw [if_pos rfl, hcntr, decide_eq_decide, succ_mod_succ]
      split
      next hlt => exact iff_of_false (fun hle => hle hlt) (Nat.succ_ne_zero _)
      next hle => exact iff_of_true hle rfl
  | false =>
      rw [hcontinuous, if_neg Bool.false_ne_true] at hcntr
      rw [henbl, hcontinuous, Bool.false_or, eq_comm, decide_eq_true_eq] at hdone
      rw [if_neg Bool.false_ne_true, hcntr, decide_eq_decide]
      omega

/-- The word accepted is the word transferred. -/
theorem transferred_eq (h : Counted last n s) (hready : p.alwaysReady = false)
    (i : Input p) :
    transferred ⟨s, i⟩ =
      ((accepted ⟨s, i⟩).zipIdx n).map fun x => ⟨x.1, isLast p last x.2⟩ := by
  rw [accepted_eq hready]
  unfold transferred mAxisTvalid intTvalidWire mAxisTlast
  cases henbl : s.intEnblReg with
  | false => simp
  | true =>
      rw [h.intTlastWire_eq henbl, passing]
      cases i.sAxisTvalid <;> cases i.mAxisTready <;> simp [mAxisTdata]

theorem next_of_idle (h : Counted last n s) (hcfg : i.cfgData.toNat = last)
    (hidle : (i.mAxisTready && intTvalidWire s i) = false) :
    Counted last n (next s i) := by
  have hcntr : intCntrNext s i = s.intCntrReg := by
    simp [intCntrNext, hidle]
  have henbl : intEnblNext s i = s.intEnblReg := by
    have hstopped : (!s.intEnblReg && intCompWire s) = false := by
      rw [h.intCompWire_eq, h.enbl]
      have hcntr := h.cntr
      cases hcontinuous : p.continuous with
      | true => rfl
      | false =>
          rw [hcontinuous, if_neg Bool.false_ne_true] at hcntr
          rw [Bool.false_or, ← decide_not, ← Bool.decide_and, decide_eq_false_iff_not]
          omega
    simp [intEnblNext, hidle, hstopped]
  refine ⟨hcfg, ?_, ?_⟩
  · change (intCntrNext s i).toNat = _
    rw [hcntr]
    exact h.cntr
  · change intEnblNext s i = _
    rw [henbl]
    exact h.enbl

/-- A word that passes counts, up to the last one. -/
theorem intCntrNext_of_fire (h : Counted last n s)
    (hfire : (i.mAxisTready && intTvalidWire s i) = true) :
    (intCntrNext s i).toNat =
      if s.intCntrReg.toNat < last then s.intCntrReg.toNat + 1
      else if p.continuous then 0
      else last := by
  have hle := h.cntr_le
  have hlast : intTlastWire s = !decide (s.intCntrReg.toNat < last) := by
    rw [intTlastWire, h.intCompWire_eq]
  by_cases hlt : s.intCntrReg.toNat < last
  · have hadd : intCntrNext s i = s.intCntrReg + 1 := by
      simp [intCntrNext, hfire, h.intCompWire_eq, hlast, hlt]
    rw [hadd, if_pos hlt]
    exact toNat_add_one_of_lt (h.data ▸ hlt)
  · have hat : s.intCntrReg.toNat = last := by omega
    cases hcontinuous : p.continuous <;>
      simp [intCntrNext, hfire, h.intCompWire_eq, hlast, hat, hcontinuous]

/-- A core that stops does so with the last word. -/
theorem intEnblNext_of_fire (h : Counted last n s) (henbl : s.intEnblReg = true)
    (hfire : (i.mAxisTready && intTvalidWire s i) = true) :
    intEnblNext s i = (p.continuous || decide (s.intCntrReg.toNat < last)) := by
  rw [intEnblNext, hfire, intTlastWire, h.intCompWire_eq, henbl]
  cases p.continuous <;> cases decide (s.intCntrReg.toNat < last) <;> rfl

theorem next_of_fire (h : Counted last n s) (hcfg : i.cfgData.toNat = last)
    (hfire : (i.mAxisTready && intTvalidWire s i) = true) :
    Counted last (n + 1) (next s i) := by
  have henbl : s.intEnblReg = true :=
    (Bool.and_eq_true_iff.mp (Bool.and_eq_true_iff.mp hfire).2).1
  have hcntr := h.cntr
  have hdone := h.enbl
  refine ⟨hcfg, ?_, ?_⟩
  · change (intCntrNext s i).toNat = _
    rw [h.intCntrNext_of_fire hfire, succ_mod_succ]
    cases hcontinuous : p.continuous with
    | true =>
        rw [hcontinuous, if_pos rfl] at hcntr
        rw [hcntr]
        rfl
    | false =>
        rw [hcontinuous, if_neg Bool.false_ne_true] at hcntr
        simp only [Bool.false_eq_true, if_false]
        split <;> omega
  · change intEnblNext s i = _
    rw [h.intEnblNext_of_fire henbl hfire]
    cases hcontinuous : p.continuous with
    | true => rfl
    | false =>
        rw [hcontinuous, if_neg Bool.false_ne_true] at hcntr
        rw [henbl, hcontinuous, Bool.false_or, eq_comm, decide_eq_true_eq] at hdone
        rw [Bool.false_or, Bool.false_or, decide_eq_decide]
        omega

theorem next (h : Counted last n s) (hready : p.alwaysReady = false)
    (hcfg : i.cfgData.toNat = last) :
    Counted last (n + (accepted ⟨s, i⟩).length) (next s i) := by
  have hlength : (accepted ⟨s, i⟩).length =
      (i.mAxisTready && intTvalidWire s i).toNat := by
    unfold accepted sAxisTready intTvalidWire
    rw [hready, length_transfer]
    cases s.intEnblReg <;> cases i.sAxisTvalid <;> cases i.mAxisTready <;> rfl
  rw [hlength]
  cases hfire : i.mAxisTready && intTvalidWire s i with
  | false => exact h.next_of_idle hcfg hfire
  | true => exact h.next_of_fire hcfg hfire

end Counted

/-! ## Runs -/

section Runs

variable {last n : ℕ} {s : State p} {inputs : List (Input p)}

/-- What an enabled core does after `n` words. -/
theorem run_counted (h : Counted last n s) (hready : p.alwaysReady = false)
    (hcfg : ∀ i ∈ inputs, i.cfgData.toNat = last) :
    let words := (trace next s inputs).flatMap accepted
    Counted last (n + words.length) (run next s inputs) ∧
      (trace next s inputs).flatMap transferred =
        (words.zipIdx n).map fun x => ⟨x.1, isLast p last x.2⟩ := by
  induction inputs generalizing n s with
  | nil => exact ⟨h, rfl⟩
  | cons i inputs ih =>
      rw [List.forall_mem_cons] at hcfg
      obtain ⟨hrun, hbeats⟩ := ih (h.next hready hcfg.1) hcfg.2
      dsimp only at hrun hbeats ⊢
      rw [trace_cons, List.flatMap_cons, List.flatMap_cons, run_cons,
        List.length_append, ← Nat.add_assoc]
      refine ⟨hrun, ?_⟩
      rw [List.zipIdx_append, List.map_append, h.transferred_eq hready, hbeats]

/-- Of the words that both sides are ready for, a core that stops takes the
first ones. -/
theorem accepted_run (h : Counted last n s) (hready : p.alwaysReady = false)
    (hstop : p.continuous = false) (hn : n ≤ last + 1)
    (hcfg : ∀ i ∈ inputs, i.cfgData.toNat = last) :
    (trace next s inputs).flatMap accepted =
      ((trace next s inputs).flatMap passing).take (last + 1 - n) := by
  induction inputs generalizing n s with
  | nil => rw [trace_nil, List.flatMap_nil, List.flatMap_nil, List.take_nil]
  | cons i inputs ih =>
      rw [List.forall_mem_cons] at hcfg
      have hdone := h.enbl
      rw [hstop, Bool.false_or] at hdone
      have hnext := h.next hready hcfg.1
      have hone : (passing ⟨s, i⟩).length ≤ 1 := by
        rw [passing, length_transfer]
        exact Bool.toNat_le _
      rw [trace_cons, List.flatMap_cons, List.flatMap_cons, List.take_append]
      rw [accepted_eq hready] at hnext ⊢
      by_cases hlt : n ≤ last
      · have htake : (passing ⟨s, i⟩).take (last + 1 - n) = passing ⟨s, i⟩ :=
          List.take_of_length_le (by omega)
        rw [hdone, decide_eq_true hlt, if_pos rfl] at hnext ⊢
        rw [ih hnext (by omega) hcfg.2, htake, Nat.sub_sub]
      · obtain rfl : n = last + 1 := by omega
        rw [hdone, decide_eq_false hlt, if_neg Bool.false_ne_true] at hnext ⊢
        rw [ih hnext (Nat.le_refl _) hcfg.2]
        simp

/-- A core that has passed its packet on is not ready. -/
theorem sAxisTready_of_counted (h : Counted last n s) (hn : last < n)
    (hstop : p.continuous = false) (hready : p.alwaysReady = false) (i : Input p) :
    sAxisTready s i = false := by
  have hdone := h.enbl
  rw [hstop, Bool.false_or, decide_eq_false (Nat.not_le.mpr hn)] at hdone
  rw [sAxisTready, hready, hdone]
  rfl

theorem next_reset (i : Input p) : next (reset p) i = ⟨0, i.cfgData, false⟩ := by
  have hidle : intCompWire (reset p) = false :=
    decide_eq_false (Nat.lt_irrefl _)
  have hcntr : intCntrNext (reset p) i = 0 := by
    rw [intCntrNext, hidle, Bool.and_false, if_neg Bool.false_ne_true]
    exact ite_self _
  have henbl : intEnblNext (reset p) i = false := by
    rw [intEnblNext, hidle, Bool.and_false, if_neg Bool.false_ne_true]
    exact ite_self _
  change (⟨intCntrNext (reset p) i, i.cfgData, intEnblNext (reset p) i⟩ : State p) = _
  rw [hcntr, henbl]

/-- The core is enabled after two cycles. -/
theorem counted_start {i j : Input p} (hi : 1 ≤ i.cfgData.toNat)
    (hj : j.cfgData = i.cfgData) :
    Counted i.cfgData.toNat 0 (next (next (reset p) i) j) := by
  have hcomp : intCompWire (⟨0, i.cfgData, false⟩ : State p) = true := by
    apply decide_eq_true
    change (BitVec.ofNat p.cntrWidth 0).toNat < i.cfgData.toNat
    rw [BitVec.toNat_ofNat, Nat.zero_mod]
    exact hi
  have hcntr : intCntrNext (⟨0, i.cfgData, false⟩ : State p) j = 0 := by
    simp [intCntrNext, intTvalidWire]
  have henbl : intEnblNext (⟨0, i.cfgData, false⟩ : State p) j = true := by
    rw [intEnblNext, hcomp]
    simp [intTvalidWire]
  rw [next_reset]
  refine ⟨congrArg BitVec.toNat hj, ?_, ?_⟩
  · change (intCntrNext _ j).toNat = _
    rw [hcntr]
    simp
  · change intEnblNext _ j = _
    rw [henbl]
    simp

/-- Before that it moves no word. -/
theorem quiet_of_not_enbl (hready : p.alwaysReady = false) (h : s.intEnblReg = false)
    (i : Input p) : accepted ⟨s, i⟩ = [] ∧ transferred ⟨s, i⟩ = [] := by
  constructor
  · rw [accepted_eq hready, h]
    rfl
  · rw [transferred, mAxisTvalid, intTvalidWire, h, Bool.false_and,
      transfer_false_left]

theorem flatMap_start {β : Type} {f : Cycle (State p) (Input p) → List β}
    (hquiet : ∀ s i, s.intEnblReg = false → f ⟨s, i⟩ = []) (i j : Input p)
    (rest : List (Input p)) :
    (trace next (reset p) (i :: j :: rest)).flatMap f =
      (trace next (next (next (reset p) i) j) rest).flatMap f := by
  have hfirst : f ⟨reset p, i⟩ = [] := hquiet _ _ rfl
  have hsecond : f ⟨next (reset p) i, j⟩ = [] := by
    apply hquiet
    rw [next_reset]
  rw [trace_cons, trace_cons, List.flatMap_cons, List.flatMap_cons, hfirst,
    hsecond, List.nil_append, List.nil_append]

end Runs

/-- Words pass through unchanged, in order, and each packet has `last + 1` of
them.  Without `CONTINUOUS` there is one packet, of the first words that both
sides are ready for from the third cycle on. -/
structure Frames (last : ℕ) (inputs : List (Input p)) : Prop where
  continuous : p.continuous = true →
    (trace next (reset p) inputs).flatMap transferred =
      ((trace next (reset p) inputs).flatMap accepted).zipIdx.map
        fun x => ⟨x.1, decide ((x.2 + 1) % (last + 1) = 0)⟩
  stop : p.continuous = false →
    (trace next (reset p) inputs).flatMap transferred =
      ((trace next (reset p) inputs).flatMap accepted).zipIdx.map
        fun x => ⟨x.1, decide (x.2 = last)⟩
  taken : p.continuous = false →
    (trace next (reset p) inputs).flatMap accepted =
      (((trace next (reset p) inputs).drop 2).flatMap passing).take (last + 1)
  stopped : p.continuous = false →
    ((trace next (reset p) inputs).flatMap accepted).length = last + 1 →
      ∀ later i, (∀ j ∈ later, j.cfgData.toNat = last) →
        sAxisTready (run next (reset p) (inputs ++ later)) i = false

theorem frames (hready : p.alwaysReady = false) {cfg : BitVec p.cntrWidth}
    (hcfg : 1 ≤ cfg.toNat) {inputs : List (Input p)}
    (hports : ∀ i ∈ inputs, i.cfgData = cfg) : Frames cfg.toNat inputs := by
  have haccepted : ∀ (s : State p) i, s.intEnblReg = false → accepted ⟨s, i⟩ = [] :=
    fun s i h => (quiet_of_not_enbl hready h i).1
  have htransferred : ∀ (s : State p) i, s.intEnblReg = false →
      transferred ⟨s, i⟩ = [] :=
    fun s i h => (quiet_of_not_enbl hready h i).2
  match inputs with
  | [] => exact ⟨fun _ => rfl, fun _ => rfl, fun _ => rfl, fun _ h => by cases h⟩
  | [i] =>
      have hnone : (trace next (reset p) [i]).flatMap accepted = [] :=
        (List.append_nil _).trans (haccepted _ i rfl)
      have hnone' : (trace next (reset p) [i]).flatMap transferred = [] :=
        (List.append_nil _).trans (htransferred _ i rfl)
      refine ⟨fun _ => ?_, fun _ => ?_, fun _ => ?_, fun _ h => ?_⟩
      · rw [hnone, hnone']
        rfl
      · rw [hnone, hnone']
        rfl
      · rw [hnone]
        rfl
      · rw [hnone] at h
        cases h
  | i :: j :: rest =>
      rw [List.forall_mem_cons, List.forall_mem_cons] at hports
      obtain ⟨rfl, hj, hrest⟩ := hports
      have hstart := counted_start hcfg hj
      have hports' : ∀ k ∈ rest, k.cfgData.toNat = i.cfgData.toNat :=
        fun k hk => congrArg BitVec.toNat (hrest k hk)
      obtain ⟨hrun, hbeats⟩ := run_counted hstart hready hports'
      rw [Nat.zero_add] at hrun
      refine ⟨fun hgo => ?_, fun hstop => ?_, fun hstop => ?_,
        fun hstop hall later k hlater => ?_⟩
      · rw [flatMap_start haccepted, flatMap_start htransferred, hbeats]
        simp only [isLast, hgo, if_true]
      · rw [flatMap_start haccepted, flatMap_start htransferred, hbeats]
        simp only [isLast, hstop, Bool.false_eq_true, if_false]
      · rw [flatMap_start haccepted,
          accepted_run hstart hready hstop (Nat.zero_le _) hports']
        rfl
      · rw [flatMap_start haccepted] at hall
        rw [hall] at hrun
        obtain ⟨hlast, -⟩ := run_counted hrun hready hlater
        rw [run_append]
        exact sAxisTready_of_counted hlast (by omega) hstop hready k

/-- Five words for a packet of two. -/
theorem frames_five :
    Frames (p := ⟨8, 4, false, false⟩) 1
      [⟨1, 10, true, true⟩, ⟨1, 10, true, true⟩, ⟨1, 10, true, false⟩,
        ⟨1, 10, true, true⟩, ⟨1, 0, false, true⟩, ⟨1, 11, true, true⟩,
        ⟨1, 12, true, true⟩] :=
  @frames ⟨8, 4, false, false⟩ rfl 1#4 (by decide) _ (by simp)

end RedPitayaNotes.AxisPacketizer
