import RedPitayaNotes.Cores.AxisMiscReader.Frame

/-!
# The UART of the axis_misc_reader core

Every sixteenth pulse starts a group: the buffer is loaded, and the line
carries a bit of it for 63 accepted samples each.  When no other group starts
before the frame is over, a receiver gets what was loaded.
-/

namespace RedPitayaNotes.AxisMiscReader

open Clocked Bits Serial

/-! ## Sending -/

variable {p : Params}

/-- The accepted samples that a group takes: 54 bit times of 63. -/
def frameSamples : ℕ := 54 * 63

theorem miscNext_zero (r : Regs p) (sAxisTdata : BitVec p.sAxisTdataWidth) :
    (r.miscNext sAxisTdata).getLsbD 0 =
      r.uartBuffer.getLsbD r.uartPos.toNat := by
  have hpos : 0 < p.miscWidth := Nat.lt_trans (by decide) p.misc_gt
  rw [BitVec.getLsbD_eq_getElem hpos]
  simp [Regs.miscNext, getElem_assign]

/-- The registers after `n` samples of a group. -/
structure Sending (buffer : BitVec 54) (n : ℕ) (r : Regs p) : Prop where
  buffer : r.uartBuffer = buffer
  pos : n < frameSamples → r.uartPos.toNat = n / 63
  prescaler : n < frameSamples → r.uartPrescaler.toNat = n % 63

theorem sending_start {r : Regs p} {sAxisTdata : BitVec p.sAxisTdataWidth}
    (h : r.groupStart sAxisTdata = true) :
    Sending (loadUart r.uartBuffer r.pulseCounter) 0 (r.sample sAxisTdata) where
  buffer := by simp [Regs.sample, h]
  pos := by simp [Regs.sample, h]
  prescaler := by simp [Regs.sample, h]

theorem sending_sample {buffer : BitVec 54} {n : ℕ} {r : Regs p}
    {sAxisTdata : BitVec p.sAxisTdataWidth} (hr : Sending buffer n r)
    (h : r.groupStart sAxisTdata = false) :
    Sending buffer (n + 1) (r.sample sAxisTdata) where
  buffer := by simp [Regs.sample, h, hr.buffer]
  pos hn := by
    have hpos := hr.pos (by omega)
    have hprescaler := hr.prescaler (by omega)
    rw [frameSamples] at hn
    have hlast : r.uartPrescaler = 62 ↔ n % 63 = 62 := by
      rw [← hprescaler, ← BitVec.toNat_inj]
      rfl
    have hroom : r.uartPos < 53 ↔ n / 63 < 53 := by
      rw [← hpos, BitVec.lt_def]
      rfl
    simp only [Regs.sample, h, hlast, hroom, Bool.false_eq_true, if_false]
    split_ifs with hwrap hlt
    · rw [BitVec.toNat_add, hpos]
      change (n / 63 + 1) % 256 = _
      omega
    · omega
    · omega
  prescaler hn := by
    have hprescaler := hr.prescaler (by omega)
    have hroom : r.uartPrescaler < 62 ↔ n % 63 < 62 := by
      rw [← hprescaler, BitVec.lt_def]
      rfl
    simp only [Regs.sample, h, hroom, Bool.false_eq_true, if_false]
    split_ifs with hlt
    · rw [BitVec.toNat_add, hprescaler]
      change (n % 63 + 1) % 64 = _
      omega
    · change 0 = _
      omega

/-- No group start reaches the bits left out of the frame. -/
theorem unassigned_sample {r : Regs p}
    (sAxisTdata : BitVec p.sAxisTdataWidth)
    (h : ∀ k ∈ unassigned, r.uartBuffer.getLsbD k = false) :
    ∀ k ∈ unassigned, (r.sample sAxisTdata).uartBuffer.getLsbD k = false := by
  intro k hk
  simp only [Regs.sample]
  split_ifs with hstart
  · rw [loadUart_unassigned _ _ k hk]
    exact h k hk
  · exact h k hk

/-! ## Groups of a run -/

/-- `misc_data[0]` after the accepted cycle `n` of `cycles`. -/
def line (cycles : List (Cycle (State p) (Input p))) (n : ℕ) : Bool :=
  match cycles[n]? with
  | some c => (miscData (next c.state c.input)).getLsbD 0
  | none => true

/-- The bits an 8N1 receiver takes: bit `k` of the frame is sampled after any
one of the 63 accepted samples of its bit time. -/
def sampledBits (cycles : List (Cycle (State p) (Input p)))
    (phase : ℕ → Fin 63) : List Bool :=
  (List.range 54).map fun k => line cycles (63 * k + (phase k).val)

def startsGroup (c : Cycle (State p) (Input p)) : Bool :=
  c.state.groupStart c.input.sAxisTdata

/-- Successive group starts are at least a frame of accepted samples apart. -/
def Spaced (cycles : List (Cycle (State p) (Input p))) : Prop :=
  ∀ i j ci cj, (cycles.filter accepted)[i]? = some ci →
    (cycles.filter accepted)[j]? = some cj →
    startsGroup ci = true → startsGroup cj = true → i < j →
    i + frameSamples ≤ j

/-- `c` starts a group among the accepted cycles of a run, and `after`, the
accepted cycles that follow, has room for a frame. -/
structure IsGroup (cycles before : List (Cycle (State p) (Input p)))
    (c : Cycle (State p) (Input p))
    (after : List (Cycle (State p) (Input p))) : Prop where
  split : cycles.filter accepted = before ++ c :: after
  start : startsGroup c = true
  complete : frameSamples ≤ after.length
  alone : ∀ d ∈ after.take (frameSamples - 1), startsGroup d = false

section Group

variable {s₀ : State p} {inputs : List (Input p)}
  {before after cycles : List (Cycle (State p) (Input p))}
  {c d : Cycle (State p) (Input p)}

/-- In a spaced stream every group start is alone. -/
theorem alone_of_spaced (h : Spaced cycles)
    (hsplit : cycles.filter accepted = before ++ c :: after)
    (hstart : startsGroup c = true) :
    ∀ d ∈ after.take (frameSamples - 1), startsGroup d = false := by
  intro d hd
  obtain ⟨k, hk⟩ := List.mem_iff_getElem?.mp hd
  rw [List.getElem?_take] at hk
  split_ifs at hk with hlt
  cases hnext : startsGroup d with
  | false => rfl
  | true =>
      have hj : (before ++ c :: after)[before.length + (k + 1)]? = some d := by
        rwa [List.getElem?_append_right (Nat.le_add_right _ _),
          Nat.add_sub_cancel_left, List.getElem?_cons_succ]
      rw [← hsplit] at hj
      have hgap := h before.length _ c d (by simp [hsplit]) hj hstart hnext
        (by omega)
      omega

/-- Through a group the registers send what its start has loaded. -/
theorem sending_of_isGroup (h : IsGroup (trace next s₀ inputs) before c after)
    {n : ℕ} (hn : n < frameSamples) (hd : after[n]? = some d) :
    Sending (loadUart c.state.uartBuffer c.state.pulseCounter) n
      d.state.toRegs := by
  have hrun := map_sampled_eq_trace s₀ inputs
  rw [h.split, List.map_append, List.map_cons] at hrun
  have htail := trace_after hrun.symm
  obtain ⟨xs, hxs⟩ : ∃ xs, after.map sampled =
      trace Regs.sample (c.state.sample c.input.sAxisTdata) xs :=
    ⟨_, htail⟩
  have hcycle : (after.map sampled)[n]? = some (sampled d) := by
    rw [List.getElem?_map, hd]
    rfl
  have halone : ∀ e ∈ (after.map sampled).take n,
      e.state.groupStart e.input = false := by
    intro e he
    rw [← List.map_take] at he
    obtain ⟨a, ha, rfl⟩ := List.mem_map.mp he
    exact h.alone a (List.take_subset_take_left _ (by omega) ha)
  rw [hxs] at hcycle halone
  have hstart := sending_start (r := c.state.toRegs) h.start
  exact trace_counts _ (fun e => e.state.groupStart e.input = false)
    hstart (fun _ _ _ => sending_sample) hcycle halone

/-- Through a group the line carries the buffer loaded at its start. -/
theorem line_of_isGroup (h : IsGroup (trace next s₀ inputs) before c after)
    {n : ℕ} (hn : n < frameSamples) :
    line after n =
      (loadUart c.state.uartBuffer c.state.pulseCounter).getLsbD (n / 63) := by
  have hlen := Nat.lt_of_lt_of_le hn h.complete
  obtain ⟨d, hd⟩ : ∃ d, after[n]? = some d :=
    ⟨_, List.getElem?_eq_getElem hlen⟩
  have hsending := sending_of_isGroup h hn hd
  have haccepted : accepted d = true := by
    have hmem : d ∈ (trace next s₀ inputs).filter accepted := by
      rw [h.split]
      simp [List.mem_of_getElem? hd]
    exact (List.mem_filter.mp hmem).2
  have hmisc := congrArg Regs.intMiscReg (toRegs_next_of_accepted haccepted)
  rw [line, hd]
  change (next d.state d.input).intMiscReg.getLsbD 0 = _
  rw [hmisc]
  change (d.state.miscNext _).getLsbD 0 = _
  rw [miscNext_zero, hsending.buffer, hsending.pos hn]

/-- From reset, the bits left out of the frame are low at every group. -/
theorem unassigned_of_isGroup (h₀ : s₀.IsReset)
    (h : IsGroup (trace next s₀ inputs) before c after) :
    ∀ k ∈ unassigned, c.state.uartBuffer.getLsbD k = false := by
  have hrun := map_sampled_eq_trace s₀ inputs
  have hmem : sampled c ∈
      ((trace next s₀ inputs).filter accepted).map sampled := by
    rw [h.split]
    simp
  rw [hrun] at hmem
  refine trace_invariant
    (fun r : Regs p => ∀ k ∈ unassigned, r.uartBuffer.getLsbD k = false)
    (fun r x => unassigned_sample x) ?_ _ _ hmem
  intro k hk
  rw [h₀.uartBuffer]
  simp

/-- What the receiver makes of the bits it samples in a group. -/
theorem decode_group (h₀ : s₀.IsReset)
    (h : IsGroup (trace next s₀ inputs) before c after)
    (phase : ℕ → Fin 63) :
    decode (sampledBits after phase) =
      some (arriving c.state.pulseCounter) := by
  have hbits : sampledBits after phase =
      transmit (groupBytes c.state.pulseCounter) := by
    rw [← bits_loadUart (unassigned_of_isGroup h₀ h)]
    apply List.map_congr_left
    intro k hk
    have hphase := (phase k).isLt
    rw [List.mem_range] at hk
    rw [line_of_isGroup h (by rw [frameSamples]; omega)]
    congr 1
    omega
  rw [hbits, decode_groupBytes]

end Group

/-! ## A pulse train -/

def defaults : Params where
  mAxisTdata_pos := by decide
  mAxisTdata_le := by decide
  misc_gt := by decide
  misc_le := by decide

def reset : State defaults where
  intMiscReg := 0
  pulseCounter := 0
  keyLatch := false
  uartBuffer := 0
  uartPos := 0
  uartPrescaler := 0
  reflectBuffer := 0
  reflectPos := 0
  intEnblReg := false

theorem isReset_reset : reset.IsReset := ⟨rfl, rfl, rfl, rfl, rfl, rfl, rfl⟩

def beat (high : Bool) : Input defaults where
  sAxisTdata := if high then 1#40 <<< 39 else 0#40
  sAxisTvalid := true
  mAxisTready := true

/-- The input of sample `n`: a pulse at every multiple of `frameSamples`. -/
def trainBeat (n : ℕ) : Input defaults :=
  beat (decide (n % frameSamples = 0))

/-- A train of `n` samples, after the edge that raises `int_enbl_reg`. -/
def train (n : ℕ) : List (Input defaults) :=
  beat false :: (List.range n).map trainBeat

/-- The state that sample `n` of a train meets. -/
def trainState (n : ℕ) : State defaults :=
  run next { reset with intEnblReg := true } ((List.range n).map trainBeat)

theorem trainState_succ (n : ℕ) :
    trainState (n + 1) = next (trainState n) (trainBeat n) := by
  rw [trainState, List.range_succ, List.map_append, run_append]
  rfl

theorem topBit_trainBeat (n : ℕ) :
    (trainBeat n).sAxisTdata.getLsbD (defaults.sAxisTdataWidth - 1) =
      decide (n % frameSamples = 0) := by
  rw [trainBeat]
  cases decide (n % frameSamples = 0) <;> rfl

theorem intEnblReg_trainState (n : ℕ) : (trainState n).intEnblReg = true := by
  cases n with
  | zero => rfl
  | succ n =>
      rw [trainState_succ]
      rfl

theorem accepted_train (n : ℕ) : accepted ⟨trainState n, trainBeat n⟩ = true := by
  simp [accepted, sAxisTready, intEnblReg_trainState, trainBeat, beat]

theorem toRegs_trainState_succ (n : ℕ) :
    (trainState (n + 1)).toRegs =
      (trainState n).sample (trainBeat n).sAxisTdata := by
  rw [trainState_succ]
  exact toRegs_next_of_accepted (accepted_train n)

theorem keyLatch_trainState (n : ℕ) :
    (trainState n).keyLatch = decide (n % frameSamples = 1) := by
  cases n with
  | zero => rfl
  | succ n =>
      have htop := topBit_trainBeat n
      rw [toRegs_trainState_succ]
      change (trainBeat n).sAxisTdata.getLsbD _ = _
      rw [htop, frameSamples, decide_eq_decide]
      omega

theorem pulse_train (n : ℕ) :
    (trainState n).pulse (trainBeat n).sAxisTdata =
      decide (n % frameSamples = 0) := by
  rw [Regs.pulse, topBit_trainBeat, keyLatch_trainState]
  by_cases hn : n % frameSamples = 0 <;> simp [hn]

theorem pulseCounter_trainState (n : ℕ) :
    (trainState n).pulseCounter =
      BitVec.ofNat 40 ((n + (frameSamples - 1)) / frameSamples) := by
  induction n with
  | zero => rfl
  | succ n ih =>
      rw [toRegs_trainState_succ]
      change (if _ then _ else _) = _
      rw [pulse_train, ih, frameSamples]
      by_cases hn : n % (54 * 63) = 0
      · rw [if_pos (decide_eq_true hn)]
        change _ + BitVec.ofNat 40 1 = _
        rw [← BitVec.ofNat_add]
        congr 1
        omega
      · rw [if_neg (by simp [hn])]
        congr 1
        omega

def trainCycle (n : ℕ) : Cycle (State defaults) (Input defaults) :=
  ⟨trainState n, trainBeat n⟩

theorem trace_train (n : ℕ) :
    trace next { reset with intEnblReg := true }
        ((List.range n).map trainBeat) =
      (List.range n).map trainCycle := by
  induction n with
  | zero => rfl
  | succ n ih =>
      rw [List.range_succ, List.map_append, List.map_append, trace_append, ih]
      rfl

theorem filter_train (n : ℕ) :
    (trace next reset (train n)).filter accepted =
      (List.range n).map trainCycle := by
  have hfirst : accepted ⟨reset, beat false⟩ ≠ true := by decide
  rw [train, trace_cons, List.filter_cons_of_neg hfirst]
  change (trace next { reset with intEnblReg := true } _).filter accepted = _
  rw [trace_train, List.filter_eq_self]
  intro c hc
  obtain ⟨k, -, rfl⟩ := List.mem_map.mp hc
  exact accepted_train k

theorem startsGroup_train {n : ℕ} (h : startsGroup (trainCycle n) = true) :
    n % frameSamples = 0 := by
  have hpulse := pulse_train n
  rw [startsGroup, Regs.groupStart, Bool.and_eq_true] at h
  exact of_decide_eq_true (hpulse.symm.trans h.1)

theorem spaced_train (n : ℕ) : Spaced (trace next reset (train n)) := by
  intro i j ci cj hi hj hci hcj hlt
  rw [filter_train, List.getElem?_map] at hi hj
  obtain ⟨k, hk, rfl⟩ := Option.map_eq_some_iff.mp hi
  obtain ⟨l, hl, rfl⟩ := Option.map_eq_some_iff.mp hj
  have hindex {a b : ℕ} (h : (List.range n)[a]? = some b) : a = b := by
    obtain ⟨ha, hget⟩ := List.getElem?_eq_some_iff.mp h
    exact (List.getElem_range ha).symm.trans hget
  obtain rfl := hindex hk
  obtain rfl := hindex hl
  have hfirst := startsGroup_train hci
  have hsecond := startsGroup_train hcj
  rw [frameSamples] at hfirst hsecond ⊢
  omega

/-- A train of enough samples has a group at every sixteenth pulse. -/
theorem isGroup_train {m : ℕ} (hm : m % 16 = 0) :
    ∃ before c after,
      IsGroup (trace next reset (train (frameSamples * (m + 1) + 1)))
        before c after ∧
      c.state.pulseCounter = BitVec.ofNat 40 m := by
  have hcounter : (trainState (frameSamples * m)).pulseCounter =
      BitVec.ofNat 40 m := by
    rw [pulseCounter_trainState, frameSamples]
    congr 1
    omega
  have hstart : startsGroup (trainCycle (frameSamples * m)) = true := by
    rw [startsGroup, Regs.groupStart, Bool.and_eq_true]
    constructor
    · exact (pulse_train _).trans (by simp)
    · change ((trainState _).pulseCounter.extractLsb' 0 4 == 0) = true
      rw [hcounter, beq_iff_eq, ← BitVec.toNat_inj, BitVec.extractLsb'_toNat,
        BitVec.toNat_ofNat]
      change m % 2 ^ 40 % 16 = 0
      omega
  have hsplit : (trace next reset
        (train (frameSamples * (m + 1) + 1))).filter accepted =
      (List.range (frameSamples * m)).map trainCycle ++
        trainCycle (frameSamples * m) :: (List.range frameSamples).map
          fun k => trainCycle (frameSamples * m + (k + 1)) := by
    rw [filter_train, Nat.mul_succ, Nat.add_assoc, List.range_add,
      List.map_append, List.range_succ_eq_map]
    simp [Function.comp_def]
  refine ⟨_, _, _, ⟨hsplit, hstart, ?_, ?_⟩, hcounter⟩
  · rw [List.length_map, List.length_range]
  · exact alone_of_spaced (spaced_train _) hsplit hstart

/-! ## The receiver recovers the count -/

/-- The receiver recovers the count of a group, if and only if bit 32 of it is
low. -/
theorem decode_group_iff {s₀ : State p} (h₀ : s₀.IsReset)
    {inputs : List (Input p)}
    {before after : List (Cycle (State p) (Input p))}
    {c : Cycle (State p) (Input p)}
    (h : IsGroup (trace next s₀ inputs) before c after)
    (phase : ℕ → Fin 63) :
    decode (sampledBits after phase) =
        some (c.state.pulseCounter.extractLsb' 4 36) ↔
      c.state.pulseCounter.getLsbD 32 = false := by
  rw [decode_group h₀ h, Option.some_inj, arriving_eq_iff]

/-- The group of pulse 4096 in a train. -/
theorem decode_group_iff_train :
    ∃ before c after,
      IsGroup (trace next reset (train (frameSamples * 4097 + 1)))
        before c after ∧
      decode (sampledBits after fun _ => 31) =
        some ((4096#40).extractLsb' 4 36) := by
  obtain ⟨before, c, after, hgroup, hcounter⟩ :=
    isGroup_train (m := 4096) (by decide)
  refine ⟨before, c, after, hgroup, ?_⟩
  have hiff := decode_group_iff isReset_reset hgroup fun _ => 31
  rw [hcounter] at hiff
  exact hiff.mpr (by decide)

/-- Pulse 2 ^ 32 of a spaced train starts a group that no receiver reads
right. -/
theorem not_decode_group_train :
    Spaced (trace next reset (train (frameSamples * (2 ^ 32 + 1) + 1))) ∧
      ∃ before c after,
        IsGroup (trace next reset (train (frameSamples * (2 ^ 32 + 1) + 1)))
          before c after ∧
        c.state.pulseCounter = BitVec.ofNat 40 (2 ^ 32) ∧
        ∀ phase, decode (sampledBits after phase) ≠
          some (c.state.pulseCounter.extractLsb' 4 36) := by
  obtain ⟨before, c, after, hgroup, hcounter⟩ :=
    isGroup_train (m := 2 ^ 32) (by decide)
  refine ⟨spaced_train _, before, c, after, hgroup, hcounter, ?_⟩
  intro phase h
  rw [decode_group isReset_reset hgroup, Option.some_inj, arriving_eq_iff,
    hcounter] at h
  revert h
  decide

end RedPitayaNotes.AxisMiscReader
