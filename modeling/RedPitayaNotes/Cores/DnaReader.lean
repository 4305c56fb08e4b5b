import RedPitayaNotes.Support.Bits
import RedPitayaNotes.Support.Clocked
import RedPitayaNotes.Support.Counters

/-!
# The dna_reader core

`cores/dna_reader.v` reads the identifier of the device out of a shift register
whose clock is a bit of a counter.  The register moves in the middle of a period
of 64 cycles, and the core takes its output at the end of the period.
-/

namespace RedPitayaNotes.DnaReader

open Clocked Bits Counters

/-- `CNTR_WIDTH` -/
abbrev cntrWidth : ℕ := 16

/-- `DATA_WIDTH` -/
abbrev dataWidth : ℕ := 57

/-- The registers of the core, and the one in `DNA_PORT`. -/
structure State where
  intEnblReg : Bool
  intReadReg : Bool
  intShiftReg : Bool
  intCntrReg : BitVec cntrWidth
  intDataReg : BitVec dataWidth
  port : BitVec dataWidth

section Wires

variable (s : State)

/-- `int_comp_wire` -/
def intCompWire : Bool := decide (s.intCntrReg < BitVec.ofNat _ (64 * dataWidth))

/-- `int_data_wire`, the output of the port. -/
def intDataWire : Bool := s.port.getLsbD (dataWidth - 1)

/-- `&int_cntr_reg[5:0]` -/
def captures : Bool := s.intCntrReg.extractLsb' 0 6 == BitVec.allOnes 6

def dnaData : BitVec dataWidth := s.intDataReg

/-! Of several assignments the last one counts. -/

def intEnblNext : Bool :=
  if !intCompWire s then false
  else if !s.intEnblReg && intCompWire s then true
  else s.intEnblReg

def intReadNext : Bool :=
  if captures s then false
  else if !s.intEnblReg && intCompWire s then true
  else s.intReadReg

def intShiftNext : Bool :=
  if !intCompWire s then false
  else if captures s then true
  else s.intShiftReg

def intCntrNext : BitVec cntrWidth :=
  if s.intEnblReg then s.intCntrReg + 1 else s.intCntrReg

def intDataNext : BitVec dataWidth :=
  if captures s then shiftIn s.intDataReg (intDataWire s) else s.intDataReg

end Wires

/-- `DNA_PORT` at a rising edge of its clock, with `DIN` low. -/
def portNext (dna : BitVec dataWidth) (read shift : Bool)
    (port : BitVec dataWidth) : BitVec dataWidth :=
  if read then dna else if shift then port <<< 1 else port

/-- The clock of the port is `int_cntr_reg[5]`.  It rises when the counter goes
from the first register contents to the second. -/
def rises (before after : BitVec cntrWidth) : Bool :=
  !before.getLsbD 5 && after.getLsbD 5

/-- The registers at a clock edge.  The clock of the port follows the counter. -/
def step (aresetn : Bool) (dna : BitVec dataWidth) (s : State) : State :=
  let intReadReg := aresetn && intReadNext s
  let intShiftReg := aresetn && intShiftNext s
  let intCntrReg := if !aresetn then 0 else intCntrNext s
  { intEnblReg := aresetn && intEnblNext s
    intReadReg := intReadReg
    intShiftReg := intShiftReg
    intCntrReg := intCntrReg
    intDataReg := if !aresetn then 0 else intDataNext s
    port :=
      if rises s.intCntrReg intCntrReg then
        portNext dna intReadReg intShiftReg s.port
      else s.port }

/-- An edge out of reset. -/
def next (dna : BitVec dataWidth) (s : State) (_ : Unit) : State :=
  step true dna s

/-- The registers when reset is released; the port may hold anything. -/
def released (port : BitVec dataWidth) : State :=
  ⟨false, false, false, 0, 0, port⟩

theorem step_reset (dna : BitVec dataWidth) (s : State) :
    step false dna s = released s.port := by
  simp [step, rises, released]

/-! ## The phases of a period -/

theorem captures_iff (s : State) :
    captures s = true ↔ s.intCntrReg.toNat % 64 = 63 := by
  rw [captures, beq_iff_eq, ← BitVec.toNat_inj, BitVec.extractLsb'_toNat,
    BitVec.toNat_allOnes, Nat.shiftRight_zero]

theorem getLsbD_five (x : BitVec cntrWidth) :
    x.getLsbD 5 = decide (x.toNat / 32 % 2 = 1) := by
  rw [BitVec.getLsbD, Nat.testBit_eq_decide_div_mod_eq]

/-- The counter goes on, and its clock bit goes up in the middle of a period. -/
theorem rises_succ_iff {x y : BitVec cntrWidth} (h : y.toNat = x.toNat + 1) :
    rises x y = true ↔ x.toNat % 64 = 31 := by
  rw [rises, getLsbD_five, getLsbD_five, h]
  simp only [Bool.and_eq_true, Bool.not_eq_true', decide_eq_false_iff_not,
    decide_eq_true_eq]
  omega

/-- In the cycle of a capture the port does not move. -/
theorem port_of_captures (dna : BitVec dataWidth) {s : State}
    (h : captures s = true) : (next dna s ()).port = s.port := by
  have hhigh : s.intCntrReg.getLsbD 5 = true := by
    rw [getLsbD_five, decide_eq_true_eq]
    have := (captures_iff s).mp h
    omega
  simp [next, step, rises, hhigh]

/-! ## The bits of the identifier -/

variable (dna : BitVec dataWidth)

/-- The register of the core with the first `k` bits. -/
def taken (k : ℕ) : BitVec dataWidth := dna >>> (dataWidth - k)

theorem taken_zero : taken dna 0 = 0 := by
  apply BitVec.eq_of_getLsbD_eq
  intro j hj
  rw [taken, BitVec.getLsbD_ushiftRight, BitVec.getLsbD_of_ge _ _ (by omega)]
  simp

theorem taken_all : taken dna dataWidth = dna := by
  rw [taken, Nat.sub_self, BitVec.ushiftRight_zero]

/-- Bit `k`, from the most significant one. -/
theorem taken_succ {k : ℕ} (hk : k < dataWidth) :
    taken dna (k + 1) = shiftIn (taken dna k) (dna.getMsbD k) := by
  apply BitVec.eq_of_getLsbD_eq
  intro j hj
  rw [getLsbD_shiftIn _ _ hj, taken, taken, BitVec.getLsbD_ushiftRight,
    BitVec.getLsbD_ushiftRight, BitVec.getMsbD]
  cases j with
  | zero =>
      have hsub : dataWidth - (k + 1) = dataWidth - 1 - k := by omega
      simp [hk, hsub]
  | succ j =>
      rw [if_neg (Nat.succ_ne_zero j)]
      congr 1
      omega

/-- The output of the port when it has moved `k` times. -/
theorem getLsbD_shiftLeft_last {k : ℕ} (hk : k < dataWidth) :
    (dna <<< k).getLsbD (dataWidth - 1) = dna.getMsbD k := by
  have hle : ¬ dataWidth - 1 < k := Nat.not_lt.mpr (Nat.le_pred_of_lt hk)
  rw [BitVec.getLsbD_shiftLeft, BitVec.getMsbD, decide_eq_true hk,
    decide_eq_false hle]
  rfl

/-! ## The run -/

variable {dna}

/-- While the core is enabled and the counter is at `n`, the register of the
core has a bit for every full period, and the port has been loaded in the first
period and moved in every other one, from the middle of it on. -/
structure Running (dna : BitVec dataWidth) (n : ℕ) (s : State) : Prop where
  enbl : s.intEnblReg = true
  cntr : s.intCntrReg.toNat = n
  read : s.intReadReg = decide (n < 64)
  shift : s.intShiftReg = decide (64 ≤ n)
  data : s.intDataReg = taken dna (n / 64)
  port : 32 ≤ n → s.port = dna <<< ((n - 32) / 64)

/-- The core has read the identifier and does nothing more. -/
structure Stopped (dna : BitVec dataWidth) (s : State) : Prop where
  enbl : s.intEnblReg = false
  cntr : s.intCntrReg = 3649
  data : s.intDataReg = dna

theorem running_start (port : BitVec dataWidth) :
    Running dna 0 (next dna (released port) ()) where
  enbl := rfl
  cntr := rfl
  read := rfl
  shift := rfl
  data := (taken_zero dna).symm
  port h := absurd h (by decide)

section Period

variable {n : ℕ} {s : State}

theorem intCompWire_of_running (h : Running dna n s) (hn : n < 3648) :
    intCompWire s = true := by
  rw [intCompWire, decide_eq_true_eq, BitVec.lt_def, h.cntr]
  exact hn

theorem cntr_next_of_running (h : Running dna n s) (hn : n ≤ 3648) :
    (next dna s ()).intCntrReg.toNat = n + 1 := by
  have hsucc : (next dna s ()).intCntrReg = s.intCntrReg + 1 := by
    simp [next, step, intCntrNext, h.enbl]
  rw [hsucc, toNat_add_one, h.cntr]
  exact Nat.mod_eq_of_lt (show n + 1 < 65536 by omega)

theorem captures_of_running (h : Running dna n s) :
    captures s = decide (n % 64 = 63) := by
  rw [Bool.eq_iff_iff, captures_iff, decide_eq_true_eq, h.cntr]

theorem rises_of_running (h : Running dna n s) (hn : n ≤ 3648) :
    rises s.intCntrReg (next dna s ()).intCntrReg = decide (n % 64 = 31) := by
  have hcntr := cntr_next_of_running h hn
  rw [← h.cntr] at hcntr
  rw [Bool.eq_iff_iff, rises_succ_iff hcntr, decide_eq_true_eq, h.cntr]

/-- The output of the port is the bit that is to be taken next. -/
theorem intDataWire_of_running (h : Running dna n s) (hn : n < 3648)
    (hlast : n % 64 = 63) : intDataWire s = dna.getMsbD (n / 64) := by
  have hmoved : (n - 32) / 64 = n / 64 := by omega
  rw [intDataWire, h.port (by omega), hmoved]
  exact getLsbD_shiftLeft_last dna (show n / 64 < 57 by omega)

theorem data_next_of_running (h : Running dna n s) (hn : n < 3648) :
    (next dna s ()).intDataReg = taken dna ((n + 1) / 64) := by
  change intDataNext s = _
  rw [intDataNext, captures_of_running h]
  by_cases hlast : n % 64 = 63
  · have hcount : (n + 1) / 64 = n / 64 + 1 := by omega
    rw [if_pos (decide_eq_true hlast), intDataWire_of_running h hn hlast, h.data,
      hcount]
    exact (taken_succ dna (show n / 64 < 57 by omega)).symm
  · have hcount : (n + 1) / 64 = n / 64 := by omega
    rw [if_neg (by simpa using hlast), h.data, hcount]

/-- The read flag falls and the shift flag rises with the first capture, at
which the clock of the port falls. -/
theorem flags_next_of_running (h : Running dna n s) (hn : n < 3648) :
    (next dna s ()).intReadReg = decide (n + 1 < 64) ∧
      (next dna s ()).intShiftReg = decide (64 ≤ n + 1) := by
  have hcomp := intCompWire_of_running h hn
  change intReadNext s = _ ∧ intShiftNext s = _
  rw [intReadNext, intShiftNext, captures_of_running h, h.enbl, hcomp, h.read,
    h.shift]
  by_cases hlast : n % 64 = 63
  · have hlow : ¬ n + 1 < 64 := by omega
    simp [hlast, hlow, Nat.not_lt.mp hlow]
  · have hlow : n < 64 ↔ n + 1 < 64 := by omega
    have hhigh : 64 ≤ n ↔ 64 ≤ n + 1 := by omega
    simp [hlast, hlow, hhigh]

theorem port_next_of_running (h : Running dna n s) (hn : n < 3648)
    (hmid : 32 ≤ n + 1) :
    (next dna s ()).port = dna <<< ((n + 1 - 32) / 64) := by
  obtain ⟨hread, hshift⟩ := flags_next_of_running h hn
  have hport : (next dna s ()).port =
      if rises s.intCntrReg (next dna s ()).intCntrReg then
        portNext dna (next dna s ()).intReadReg (next dna s ()).intShiftReg
          s.port
      else s.port := rfl
  rw [hport, rises_of_running h (Nat.le_of_lt hn), hread, hshift, portNext]
  by_cases hrise : n % 64 = 31
  · rw [if_pos (decide_eq_true hrise)]
    by_cases hfirst : n + 1 < 64
    · have hzero : (n + 1 - 32) / 64 = 0 := by omega
      rw [if_pos (decide_eq_true hfirst), hzero, BitVec.shiftLeft_zero]
    · have hcount : (n + 1 - 32) / 64 = (n - 32) / 64 + 1 := by omega
      rw [if_neg (by simpa using hfirst),
        if_pos (decide_eq_true (Nat.not_lt.mp hfirst)), h.port (by omega),
        hcount, BitVec.shiftLeft_add]
  · have hcount : (n + 1 - 32) / 64 = (n - 32) / 64 := by omega
    rw [if_neg (by simpa using hrise), h.port (by omega), hcount]

/-- One cycle of a period. -/
theorem running_next (h : Running dna n s) (hn : n < 3648) :
    Running dna (n + 1) (next dna s ()) where
  enbl := by
    change intEnblNext s = true
    simp [intEnblNext, intCompWire_of_running h hn, h.enbl]
  cntr := cntr_next_of_running h (Nat.le_of_lt hn)
  read := (flags_next_of_running h hn).1
  shift := (flags_next_of_running h hn).2
  data := data_next_of_running h hn
  port := port_next_of_running h hn

/-- The cycle after the last period ends the run of the counter. -/
theorem stopped_of_running (h : Running dna 3648 s) :
    Stopped dna (next dna s ()) where
  enbl := by
    have hcomp : intCompWire s = false := by
      rw [intCompWire, decide_eq_false_iff_not, BitVec.lt_def, h.cntr]
      decide
    change intEnblNext s = false
    simp [intEnblNext, hcomp]
  cntr := BitVec.eq_of_toNat_eq (cntr_next_of_running h (Nat.le_refl _))
  data := by
    change intDataNext s = dna
    rw [intDataNext, captures_of_running h, h.data]
    exact taken_all dna

theorem captures_of_stopped (h : Stopped dna s) : captures s = false := by
  rw [captures, h.cntr]
  rfl

theorem stopped_next (h : Stopped dna s) : Stopped dna (next dna s ()) where
  enbl := by
    have hcomp : intCompWire s = false := by
      rw [intCompWire, h.cntr]
      rfl
    change intEnblNext s = false
    simp [intEnblNext, hcomp]
  cntr := by
    change intCntrNext s = 3649
    simp [intCntrNext, h.enbl, h.cntr]
  data := by
    change intDataNext s = dna
    simp [intDataNext, captures_of_stopped h, h.data]

end Period

/-- The state so many cycles after the release. -/
inductive Phase (dna : BitVec dataWidth) : ℕ → State → Prop
  | released (port : BitVec dataWidth) : Phase dna 0 (released port)
  | running {n : ℕ} {s : State} (hn : n ≤ 3648) (h : Running dna n s) :
      Phase dna (n + 1) s
  | stopped {n : ℕ} {s : State} (hn : 3650 ≤ n) (h : Stopped dna s) :
      Phase dna n s

theorem phase_next {n : ℕ} {s : State} (h : Phase dna n s) :
    Phase dna (n + 1) (next dna s ()) := by
  cases h with
  | released port => exact .running (Nat.zero_le _) (running_start port)
  | @running n _ hn h =>
      by_cases hlast : n < 3648
      · exact .running hlast (running_next h hlast)
      · obtain rfl : n = 3648 := by omega
        exact .stopped (Nat.le_refl _) (stopped_of_running h)
  | stopped hn h => exact .stopped (Nat.le_succ_of_le hn) (stopped_next h)

/-! ## The captures -/

/-- The bit taken in the cycle. -/
def captured (c : Cycle State Unit) : List Bool :=
  if captures c.state then [intDataWire c.state] else []

/-- The bits taken in so many cycles. -/
def capturedBits (n : ℕ) : ℕ := min ((n - 1) / 64) dataWidth

theorem captured_of_phase {n : ℕ} {s : State} (h : Phase dna n s) :
    (List.range (capturedBits n)).map dna.getMsbD ++ captured ⟨s, ()⟩ =
      (List.range (capturedBits (n + 1))).map dna.getMsbD := by
  cases h with
  | released port => rfl
  | @running n _ hn h =>
      have hbefore : capturedBits (n + 1) = n / 64 :=
        Nat.min_eq_left (show n / 64 ≤ 57 by omega)
      rw [captured, captures_of_running h, hbefore]
      by_cases hlast : n % 64 = 63
      · have hafter : capturedBits (n + 1 + 1) = n / 64 + 1 := by
          rw [capturedBits, Nat.add_sub_cancel]
          exact (Nat.min_eq_left (show (n + 1) / 64 ≤ 57 by omega)).trans
            (by omega)
        rw [if_pos (decide_eq_true hlast), hafter,
          intDataWire_of_running h (by omega) hlast, List.range_succ,
          List.map_append, List.map_singleton]
      · have hafter : capturedBits (n + 1 + 1) = n / 64 := by
          rw [capturedBits, Nat.add_sub_cancel]
          exact (Nat.min_eq_left (show (n + 1) / 64 ≤ 57 by omega)).trans
            (by omega)
        rw [if_neg (by simpa using hlast), hafter, List.append_nil]
  | stopped hn h =>
      have hall {m : ℕ} (hm : 3650 ≤ m) : capturedBits m = dataWidth :=
        Nat.min_eq_right (show 57 ≤ (m - 1) / 64 by omega)
      rw [captured, captures_of_stopped h, hall hn, hall (Nat.le_succ_of_le hn)]
      rfl

/-- Where the clock of the port rises, what the port looks at does not move. -/
theorem flags_of_rises {n : ℕ} {s : State} (h : Phase dna n s)
    (hrises : rises s.intCntrReg (next dna s ()).intCntrReg = true) :
    (next dna s ()).intReadReg = s.intReadReg ∧
      (next dna s ()).intShiftReg = s.intShiftReg := by
  cases h with
  | released port =>
      have hcntr : (next dna (released port) ()).intCntrReg = 0 := rfl
      rw [hcntr] at hrises
      simp [rises, released] at hrises
  | @running n _ hn h =>
      rw [rises_of_running h hn, decide_eq_true_eq] at hrises
      obtain ⟨hread, hshift⟩ := flags_next_of_running h (by omega)
      rw [hread, hshift, h.read, h.shift, decide_eq_decide, decide_eq_decide]
      omega
  | stopped _ h =>
      rw [(stopped_next h).cntr, h.cntr] at hrises
      cases hrises

/-- The counter does not move any more. -/
def hasStopped (s : State) : Bool := !s.intEnblReg && !intCompWire s

theorem hasStopped_of_phase {n : ℕ} {s : State} (h : Phase dna n s) :
    hasStopped s = decide (3650 ≤ n) := by
  cases h with
  | released port => rfl
  | running hn h =>
      rw [hasStopped, h.enbl]
      exact (decide_eq_false (by omega)).symm
  | stopped hn h =>
      rw [hasStopped, h.enbl, intCompWire, h.cntr, decide_eq_true hn]
      rfl

/-! ## The core reads the identifier -/

section Run

variable (dna port : BitVec dataWidth) (n : ℕ)

/-- The cycles since the release. -/
def cycles : List (Cycle State Unit) :=
  trace (next dna) (released port) (List.replicate n ())

/-- The state so many cycles after the release. -/
def after : State := run (next dna) (released port) (List.replicate n ())

theorem phase_after :
    Phase dna n (after dna port n) ∧
      (cycles dna port n).flatMap captured =
        (List.range (capturedBits n)).map dna.getMsbD := by
  induction n with
  | zero => exact ⟨.released port, rfl⟩
  | succ n ih =>
      obtain ⟨hphase, hcaptured⟩ := ih
      rw [after, cycles, List.replicate_succ', run_append, trace_append]
      refine ⟨phase_next hphase, ?_⟩
      rw [List.flatMap_append, trace_cons, trace_nil, List.flatMap_singleton]
      change (cycles dna port n).flatMap captured ++
        captured ⟨after dna port n, ()⟩ = _
      rw [hcaptured, captured_of_phase hphase]

theorem phase_of_mem_cycles {c : Cycle State Unit} (hc : c ∈ cycles dna port n) :
    ∃ m, Phase dna m c.state := by
  obtain ⟨before, -, -, hstate⟩ := exists_before_of_mem hc
  have hbefore : before = List.replicate before.length () :=
    List.eq_replicate_of_mem fun _ _ => rfl
  rw [hbefore] at hstate
  refine ⟨before.length, ?_⟩
  rw [hstate]
  exact (phase_after dna port _).1

end Run

/-- The core stops after 57 periods and then shows the identifier for good.  It
has taken the bits of it one by one from the most significant one, never in a
cycle in which the port moves, and what the port looks at as it moves is
stable. -/
theorem reads_dna (dna port : BitVec dataWidth) (n : ℕ) :
    hasStopped (after dna port n) = decide (3650 ≤ n) ∧
      (hasStopped (after dna port n) = true →
        dnaData (after dna port n) = dna ∧
          (cycles dna port n).flatMap captured =
            (List.range dataWidth).map dna.getMsbD) ∧
      ∀ c ∈ cycles dna port n,
        (captures c.state = true → (next dna c.state ()).port = c.state.port) ∧
        (rises c.state.intCntrReg (next dna c.state ()).intCntrReg = true →
          (next dna c.state ()).intReadReg = c.state.intReadReg ∧
            (next dna c.state ()).intShiftReg = c.state.intShiftReg) := by
  obtain ⟨hphase, hcaptured⟩ := phase_after dna port n
  have hstop := hasStopped_of_phase hphase
  refine ⟨hstop, ?_, ?_⟩
  · intro h
    have hn : 3650 ≤ n := of_decide_eq_true (hstop.symm.trans h)
    have hall : capturedBits n = dataWidth :=
      Nat.min_eq_right (show 57 ≤ (n - 1) / 64 by omega)
    refine ⟨?_, by rw [hcaptured, hall]⟩
    cases hphase with
    | released => cases hn
    | running hle _ => omega
    | stopped _ hstopped => exact hstopped.data
  · intro c hc
    obtain ⟨m, hm⟩ := phase_of_mem_cycles dna port n hc
    exact ⟨port_of_captures dna, flags_of_rises hm⟩

end RedPitayaNotes.DnaReader
