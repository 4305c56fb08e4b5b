import RedPitayaNotes.Cores.AxisMiscReader.Uart
import RedPitayaNotes.Support.Counters
import RedPitayaNotes.Support.MarkedWords
import RedPitayaNotes.Support.Occurrences

/-!
# The fast reflection of the axis_misc_reader core

Every pulse loads its number into a buffer, and the accepted samples after it
carry the number out, bit by bit on one wire, while another is low with the
first bit only.
-/

namespace RedPitayaNotes.AxisMiscReader

open Clocked Bits Counters MarkedWords Occurrences

variable {p : Params}

/-! ## One number -/

theorem miscNext_one (r : Regs p) (sAxisTdata : BitVec p.sAxisTdataWidth) :
    (r.miscNext sAxisTdata).getLsbD 1 =
      r.reflectBuffer.getLsbD r.reflectPos.toNat := by
  have hpos : 1 < p.miscWidth := Nat.lt_trans (by decide) p.misc_gt
  rw [BitVec.getLsbD_eq_getElem hpos]
  simp [Regs.miscNext, getElem_assign]

theorem miscNext_two (r : Regs p) (sAxisTdata : BitVec p.sAxisTdataWidth) :
    (r.miscNext sAxisTdata).getLsbD 2 = (r.reflectPos != 0) := by
  have hpos : 2 < p.miscWidth := Nat.lt_trans (by decide) p.misc_gt
  rw [BitVec.getLsbD_eq_getElem hpos]
  simp [Regs.miscNext, getElem_assign]

/-- The registers so many samples after a pulse that has loaded `number`. -/
structure Reflecting (number : BitVec 40) (n : ℕ) (r : Regs p) : Prop where
  buffer : r.reflectBuffer = number
  pos : r.reflectPos.toNat = min n 39

theorem reflecting_start {r : Regs p} {sAxisTdata : BitVec p.sAxisTdataWidth}
    (h : r.pulse sAxisTdata = true) :
    Reflecting r.pulseCounter 0 (r.sample sAxisTdata) where
  buffer := by simp [Regs.sample, h]
  pos := by simp [Regs.sample, h]

theorem reflecting_sample {number : BitVec 40} {n : ℕ} {r : Regs p}
    {sAxisTdata : BitVec p.sAxisTdataWidth} (hr : Reflecting number n r)
    (h : r.pulse sAxisTdata = false) :
    Reflecting number (n + 1) (r.sample sAxisTdata) where
  buffer := by simp [Regs.sample, h, hr.buffer]
  pos := by
    have hpos := hr.pos
    have hroom : r.reflectPos < 39 ↔ n < 39 := by
      rw [BitVec.lt_def, hpos]
      change min n 39 < 39 ↔ n < 39
      omega
    simp only [Regs.sample, h, hroom, Bool.false_eq_true, if_false]
    split_ifs with hlt
    · rw [toNat_add_one, hpos, Nat.mod_eq_of_lt] <;> omega
    · omega

/-- What a sample leaves on the two wires: the marker and the bit. -/
def Regs.reflected (r : Regs p) (sAxisTdata : BitVec p.sAxisTdataWidth) :
    Bool × Bool :=
  ((r.sample sAxisTdata).intMiscReg.getLsbD 2,
    (r.sample sAxisTdata).intMiscReg.getLsbD 1)

theorem reflected_of_reflecting {number : BitVec 40} {n : ℕ} {r : Regs p}
    (hr : Reflecting number n r) (sAxisTdata : BitVec p.sAxisTdataWidth) :
    r.reflected sAxisTdata =
      (decide (n ≠ 0), number.getLsbD (min n 39)) := by
  have hmark : (r.reflectPos != 0) = decide (n ≠ 0) := by
    have hzero : r.reflectPos = 0 ↔ n = 0 := by
      rw [← BitVec.toNat_inj, hr.pos]
      change min n 39 = 0 ↔ n = 0
      omega
    rw [Bool.eq_iff_iff, bne_iff_ne, decide_eq_true_eq, Ne, hzero]
  change ((r.miscNext sAxisTdata).getLsbD 2, (r.miscNext sAxisTdata).getLsbD 1) = _
  rw [miscNext_one, miscNext_two, hmark, hr.buffer, hr.pos]

/-! ## The numbers of a run -/

/-- A sample and the registers it meets. -/
abbrev Sampled (p : Params) := Cycle (Regs p) (BitVec p.sAxisTdataWidth)

namespace Sampled

def pulse (d : Sampled p) : Bool := d.state.pulse d.input

/-- The marker and the bit after the sample. -/
def reflected (d : Sampled p) : Bool × Bool := d.state.reflected d.input

/-- Up to the next pulse the samples carry the number out. -/
theorem reflected_at {number : BitVec 40} {n : ℕ} {r : Regs p}
    (hr : Reflecting number n r) {xs : List (BitVec p.sAxisTdataWidth)} {i : ℕ}
    {d : Sampled p} (hd : (trace Regs.sample r xs)[i]? = some d)
    (hquiet : ∀ e ∈ (trace Regs.sample r xs).take i, pulse e = false) :
    reflected d =
      (decide (n + i ≠ 0), number.getLsbD (min (n + i) 39)) := by
  have hstate := trace_counts (fun m r => Reflecting number (n + m) r)
    (fun e => pulse e = false) hr (fun _ _ _ => reflecting_sample) hd hquiet
  exact reflected_of_reflecting hstate d.input

/-- A number that goes out as a whole is what a receiver takes. -/
theorem word_of_quiet {number : BitVec 40} {r : Regs p}
    (hr : Reflecting number 0 r) {xs : List (BitVec p.sAxisTdataWidth)}
    (hlen : 40 ≤ xs.length)
    (hquiet : ∀ e ∈ (trace Regs.sample r xs).take 40, pulse e = false) :
    word 40 ((trace Regs.sample r xs).map reflected) = number := by
  apply word_eq
  intro j hj
  have hx : xs[j]? = some xs[j] := List.getElem?_eq_getElem (by omega)
  have hcycle := getElem?_trace Regs.sample r xs j
  rw [hx, Option.map_some] at hcycle
  have hout := reflected_at hr hcycle fun e he =>
    hquiet e (List.take_subset_take_left _ (Nat.le_of_lt hj) he)
  rw [List.getD_eq_getElem?_getD, List.getElem?_map, hcycle, Option.map_some,
    Option.getD_some, hout, Nat.zero_add, Nat.min_eq_left (by omega)]

theorem pulseCounter_sample_of_pulse {k : ℕ} {r : Regs p}
    {x : BitVec p.sAxisTdataWidth} (h : r.pulse x = true)
    (hcounter : r.pulseCounter = BitVec.ofNat 40 k) :
    (r.sample x).pulseCounter = BitVec.ofNat 40 (k + 1) := by
  rw [Regs.sample, if_pos h, hcounter]
  change _ + BitVec.ofNat 40 1 = _
  rw [← BitVec.ofNat_add]

theorem pulseCounter_sample_of_not_pulse {r : Regs p}
    {x : BitVec p.sAxisTdataWidth} (h : r.pulse x = false) :
    (r.sample x).pulseCounter = r.pulseCounter := by
  rw [Regs.sample, if_neg (Bool.not_eq_true _ ▸ h)]

/-- The numbers of the pulses that go out as a whole, counted from `k`. -/
def numbers (k : ℕ) (cycles : List (Sampled p)) : List (BitVec 40) :=
  (List.range' k (followed 40 pulse cycles)).map (BitVec.ofNat 40)

theorem numbers_cons_of_pulse (k : ℕ) {d : Sampled p}
    {cycles : List (Sampled p)} (hd : pulse d = true) :
    numbers k (d :: cycles) =
      (if 40 ≤ cycles.length then [BitVec.ofNat 40 k] else []) ++
        numbers (k + 1) cycles := by
  rw [numbers, numbers, followed_cons]
  by_cases hlen : 40 ≤ cycles.length
  · simp [hd, hlen, Nat.add_comm 1, List.range'_succ]
  · have hnone : followed 40 pulse cycles = 0 :=
      followed_of_length_le (Nat.le_of_not_le hlen)
    simp [hlen, hnone]

theorem numbers_cons_of_not_pulse (k : ℕ) {d : Sampled p}
    {cycles : List (Sampled p)} (hd : pulse d = false) :
    numbers k (d :: cycles) = numbers k cycles := by
  rw [numbers, numbers, followed_cons]
  simp [hd]

/-- A receiver takes the number in hand if it is at its first bit, and goes on
with the next sample. -/
theorem receive_cons {number : BitVec 40} {n : ℕ} {r : Regs p}
    (hr : Reflecting number n r) {x : BitVec p.sAxisTdataWidth}
    {xs : List (BitVec p.sAxisTdataWidth)}
    (hquiet : ∀ e ∈ (trace Regs.sample r (x :: xs)).take (40 - n),
      pulse e = false) :
    receive 40 ((trace Regs.sample r (x :: xs)).map reflected) =
      (if n = 0 ∧ 40 ≤ (x :: xs).length then [number] else []) ++
        receive 40 ((trace Regs.sample (r.sample x) xs).map reflected) := by
  have hhead : reflected ⟨r, x⟩ =
      (decide (n ≠ 0), number.getLsbD (min n 39)) :=
    reflected_of_reflecting hr x
  cases n with
  | zero =>
      have hword : 40 ≤ (x :: xs).length →
          word 40 ((trace Regs.sample r (x :: xs)).map reflected) = number :=
        fun hlen => word_of_quiet hr hlen hquiet
      rw [trace_cons, List.map_cons, hhead] at hword ⊢
      refine (receive_low _ _).trans ?_
      rw [List.length_map, length_trace]
      by_cases hlen : 40 ≤ xs.length + 1
      · rw [if_pos hlen, if_pos ⟨rfl, hlen⟩]
        exact congrArg (fun w => [w] ++ _) (hword hlen)
      · rw [if_neg hlen, if_neg fun h => hlen h.2]
  | succ n =>
      rw [trace_cons, List.map_cons, hhead, if_neg fun h => Nat.succ_ne_zero n h.1]
      rfl

theorem quiet_tail {d : Sampled p} {cycles : List (Sampled p)} {n : ℕ}
    (h : ∀ e ∈ (d :: cycles).take (40 - n), pulse e = false) :
    ∀ e ∈ cycles.take (40 - (n + 1)), pulse e = false := by
  intro e he
  by_cases hn : n < 40
  · have hsucc : 40 - n = 40 - (n + 1) + 1 := by omega
    rw [hsucc, List.take_succ_cons] at h
    exact h e (List.mem_cons_of_mem _ he)
  · have hzero : 40 - (n + 1) = 0 := by omega
    rw [hzero] at he
    cases he

/-- The receiver takes the number in hand, if it is at its first bit, and then
the numbers of the pulses to come. -/
theorem receive_reflected {k n : ℕ} {r : Regs p}
    (hr : Reflecting (BitVec.ofNat 40 k) n r)
    (hcounter : r.pulseCounter = BitVec.ofNat 40 (k + 1))
    {xs : List (BitVec p.sAxisTdataWidth)}
    (hquiet : ∀ e ∈ (trace Regs.sample r xs).take (40 - n), pulse e = false)
    (hapart : Apart 41 pulse (trace Regs.sample r xs)) :
    receive 40 ((trace Regs.sample r xs).map reflected) =
      (if n = 0 ∧ 40 ≤ xs.length then [BitVec.ofNat 40 k] else []) ++
        numbers (k + 1) (trace Regs.sample r xs) := by
  induction xs generalizing r k n with
  | nil => simp [receive, numbers]
  | cons x xs ih =>
      rw [receive_cons hr hquiet, List.append_cancel_left_eq]
      cases hp : r.pulse x with
      | false =>
          have hno : pulse ⟨r, x⟩ = false := hp
          have hcounter' : (r.sample x).pulseCounter = BitVec.ofNat 40 (k + 1) :=
            (pulseCounter_sample_of_not_pulse hp).trans hcounter
          rw [trace_cons, numbers_cons_of_not_pulse _ hno,
            ih (reflecting_sample hr hp) hcounter' (quiet_tail hquiet)
              hapart.tail, if_neg fun h => Nat.succ_ne_zero n h.1]
          rfl
      | true =>
          have hyes : pulse ⟨r, x⟩ = true := hp
          have hstart := reflecting_start hp
          rw [hcounter] at hstart
          rw [trace_cons, numbers_cons_of_pulse _ hyes, length_trace,
            ih hstart (pulseCounter_sample_of_pulse hp hcounter)
              (hapart [] ⟨r, x⟩ _ rfl hp) hapart.tail]
          simp

/-! ## From the first pulse on -/

/-- The counter is the number of pulses so far. -/
theorem pulseCounter_run {r : Regs p} (hcounter : r.pulseCounter = 0)
    (xs : List (BitVec p.sAxisTdataWidth)) :
    (run Regs.sample r xs).pulseCounter =
      BitVec.ofNat 40 ((trace Regs.sample r xs).countP pulse) := by
  apply trace_induction (fun past (r : Regs p) =>
    r.pulseCounter = BitVec.ofNat 40 (past.countP pulse))
  · exact hcounter
  · intro past r x h
    rw [countP_snoc]
    cases hp : r.pulse x with
    | false =>
        rw [pulseCounter_sample_of_not_pulse hp, h]
        simp [pulse, hp]
    | true =>
        rw [pulseCounter_sample_of_pulse hp h]
        simp [pulse, hp]

/-- After a pulse the samples carry its number out, up to the next pulse. -/
theorem reflected_after_pulse {r : Regs p} (hcounter : r.pulseCounter = 0)
    {xs : List (BitVec p.sAxisTdataWidth)} {before after : List (Sampled p)}
    {c d : Sampled p} (hsplit : trace Regs.sample r xs = before ++ c :: after)
    (hc : pulse c = true) {n : ℕ} (hd : after[n]? = some d)
    (hquiet : ∀ e ∈ after.take n, pulse e = false) :
    reflected d =
      (decide (n ≠ 0), (before.countP pulse).testBit (min n 39)) := by
  obtain ⟨past, rest, -, rfl, hstate, rfl, -⟩ := exists_split hsplit
  have hnumber := pulseCounter_run hcounter past
  rw [← hstate] at hnumber
  have hout := reflected_at (reflecting_start hc) hd hquiet
  have hlow : min n 39 < 40 := by omega
  rw [hout, hnumber, Nat.zero_add, BitVec.getLsbD_ofNat, decide_eq_true hlow,
    Bool.true_and]

/-- From the first pulse on a receiver takes the numbers of the pulses, in
order. -/
theorem receive_afterFirst {r : Regs p} (hcounter : r.pulseCounter = 0)
    {xs : List (BitVec p.sAxisTdataWidth)}
    (hapart : Apart 41 pulse (trace Regs.sample r xs)) :
    receive 40
        ((afterFirst pulse (trace Regs.sample r xs)).map reflected) =
      numbers 0 (trace Regs.sample r xs) := by
  induction xs generalizing r with
  | nil => simp [afterFirst, receive, numbers]
  | cons x xs ih =>
      rw [trace_cons, afterFirst_cons]
      cases hp : r.pulse x with
      | false =>
          have hcounter' : (r.sample x).pulseCounter = 0 :=
            (pulseCounter_sample_of_not_pulse hp).trans hcounter
          have hno : pulse ⟨r, x⟩ = false := hp
          rw [numbers_cons_of_not_pulse _ hno, ← ih hcounter' hapart.tail, hno]
          rfl
      | true =>
          have hyes : pulse ⟨r, x⟩ = true := hp
          have hstart := reflecting_start hp
          rw [hcounter] at hstart
          rw [numbers_cons_of_pulse _ hyes, hyes, if_pos rfl, length_trace,
            receive_reflected (k := 0) hstart
              (pulseCounter_sample_of_pulse hp hcounter)
              (hapart [] ⟨r, x⟩ _ rfl hp) hapart.tail]
          simp

end Sampled

/-! ## The core -/

/-- An accepted sample that is a pulse. -/
def isPulse (c : Cycle (State p) (Input p)) : Bool :=
  c.state.pulse c.input.sAxisTdata

/-- `misc_data[2]` and `misc_data[1]` after the accepted sample. -/
def reflectedData (c : Cycle (State p) (Input p)) : Bool × Bool :=
  ((miscData (next c.state c.input)).getLsbD 2,
    (miscData (next c.state c.input)).getLsbD 1)

theorem reflectedData_of_accepted {c : Cycle (State p) (Input p)}
    (h : accepted c = true) :
    reflectedData c = Sampled.reflected (sampled c) := by
  have hregs := toRegs_next_of_accepted h
  rw [reflectedData, miscData, hregs]
  rfl

/-- What a pulse leaves on the wires, and what a receiver makes of the wires
from the first pulse on. -/
structure Reflects (samples : List (Cycle (State p) (Input p))) : Prop where
  bits : ∀ before c after, samples = before ++ c :: after → isPulse c = true →
    ∀ n d, after[n]? = some d → (∀ e ∈ after.take n, isPulse e = false) →
    reflectedData d =
      (decide (n ≠ 0), (before.countP isPulse).testBit (min n 39))
  received : receive 40 ((afterFirst isPulse samples).map reflectedData) =
    (List.range (followed 40 isPulse samples)).map (BitVec.ofNat 40)

section Run

variable {s₀ : State p} {inputs : List (Input p)}

theorem bits_run (h₀ : s₀.IsReset)
    {before after : List (Cycle (State p) (Input p))}
    {c d : Cycle (State p) (Input p)}
    (hsplit : (trace next s₀ inputs).filter accepted = before ++ c :: after)
    (hc : isPulse c = true) {n : ℕ} (hd : after[n]? = some d)
    (hquiet : ∀ e ∈ after.take n, isPulse e = false) :
    reflectedData d =
      (decide (n ≠ 0), (before.countP isPulse).testBit (min n 39)) := by
  have hrun := map_sampled_eq_trace s₀ inputs
  rw [hsplit, List.map_append, List.map_cons] at hrun
  have haccepted : accepted d = true := by
    have hmem : d ∈ (trace next s₀ inputs).filter accepted := by
      rw [hsplit]
      simp [List.mem_of_getElem? hd]
    exact (List.mem_filter.mp hmem).2
  have hd' : (after.map sampled)[n]? = some (sampled d) := by
    rw [List.getElem?_map, hd]
    rfl
  have hquiet' : ∀ e ∈ (after.map sampled).take n, Sampled.pulse e = false := by
    intro e he
    rw [← List.map_take] at he
    obtain ⟨a, ha, rfl⟩ := List.mem_map.mp he
    exact hquiet a ha
  have hout := Sampled.reflected_after_pulse h₀.pulseCounter hrun.symm hc hd'
    hquiet'
  rw [List.countP_map] at hout
  rw [reflectedData_of_accepted haccepted]
  exact hout

theorem received_run (h₀ : s₀.IsReset)
    (hapart : Apart 41 isPulse ((trace next s₀ inputs).filter accepted)) :
    receive 40 ((afterFirst isPulse
        ((trace next s₀ inputs).filter accepted)).map reflectedData) =
      (List.range (followed 40 isPulse
        ((trace next s₀ inputs).filter accepted))).map (BitVec.ofNat 40) := by
  have hrun := map_sampled_eq_trace s₀ inputs
  have hapart' : Apart 41 Sampled.pulse
      (((trace next s₀ inputs).filter accepted).map sampled) :=
    Apart.map hapart
  rw [hrun] at hapart'
  have hreceived := Sampled.receive_afterFirst h₀.pulseCounter hapart'
  rw [← hrun, afterFirst_map, List.map_map, Sampled.numbers, followed_map,
    ← List.range_eq_range'] at hreceived
  have hwires : (afterFirst isPulse
        ((trace next s₀ inputs).filter accepted)).map reflectedData =
      (afterFirst isPulse ((trace next s₀ inputs).filter accepted)).map
        (Sampled.reflected ∘ sampled) := by
    apply List.map_congr_left
    intro c hc
    exact reflectedData_of_accepted
      (List.mem_filter.mp (afterFirst_subset _ _ hc)).2
  rw [hwires]
  exact hreceived

end Run

/-- Pulses at least 41 accepted samples apart: the k-th of them is reflected bit
by bit, and a receiver takes their numbers in order. -/
theorem reflects_pulses {s₀ : State p} (h₀ : s₀.IsReset)
    (inputs : List (Input p))
    (hapart : Apart 41 isPulse ((trace next s₀ inputs).filter accepted)) :
    Reflects ((trace next s₀ inputs).filter accepted) where
  bits _ _ _ hsplit hc _ _ hd hquiet := bits_run h₀ hsplit hc hd hquiet
  received := received_run h₀ hapart

theorem isPulse_trainCycle (n : ℕ) :
    (isPulse ∘ trainCycle) n = decide (n % frameSamples = 0) :=
  pulse_train n

theorem apart_train (n : ℕ) :
    Apart 41 isPulse ((trace next reset (train n)).filter accepted) := by
  rw [filter_train]
  apply Apart.map
  intro past c rest hsplit hc d hd
  have hindex {i m : ℕ} (h : (past ++ c :: rest)[i]? = some m) : m = i := by
    rw [← hsplit] at h
    obtain ⟨hi, hget⟩ := List.getElem?_eq_some_iff.mp h
    exact hget.symm.trans (List.getElem_range hi)
  obtain ⟨k, hk⟩ := List.mem_iff_getElem?.mp hd
  rw [List.getElem?_take] at hk
  split_ifs at hk with hlt
  have hfirst : c = past.length := hindex (by simp)
  have hsecond : d = past.length + (k + 1) := by
    apply hindex
    rwa [List.getElem?_append_right (Nat.le_add_right _ _),
      Nat.add_sub_cancel_left, List.getElem?_cons_succ]
  rw [isPulse_trainCycle, frameSamples, decide_eq_true_eq] at hc
  rw [isPulse_trainCycle, frameSamples, decide_eq_false_iff_not]
  omega

/-- Of a train of 3500 samples the receiver takes the numbers of two pulses. -/
theorem reflects_train :
    receive 40 ((afterFirst isPulse
        ((trace next reset (train 3500)).filter accepted)).map reflectedData) =
      [0, 1] := by
  refine (reflects_pulses isReset_reset (train 3500)
    (apart_train 3500)).received.trans ?_
  have hcount : followed 40 (isPulse ∘ trainCycle) (List.range 3500) = 2 := by
    rw [funext isPulse_trainCycle]
    decide +kernel
  rw [filter_train, followed_map, hcount]
  rfl

end RedPitayaNotes.AxisMiscReader
