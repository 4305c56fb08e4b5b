import Mathlib.Data.List.Count
import RedPitayaNotes.Cores.AxisRamReader.Model
import RedPitayaNotes.Support.BurstRing

/-!
# Flow control of axis_ram_reader

A burst is requested when the FIFO has room for 16 words and no burst is in
flight, so the room is there when its beats come.  The flag that says that a
burst is in flight falls with RLAST, also with an RLAST that no RVALID makes
meaningful.  As long as no such RLAST comes during a burst, no beat meets a full
FIFO, and the bursts go round the ring.
-/

namespace RedPitayaNotes.AxisRamReader

open Clocked Elastic BurstRing

universe u v w

variable {α : Type u} {β : Type v} {p : Params}
  {fifo0 : CountedFifo.{u, v, w} α β}

/-- The address of burst `k`: burst `k mod (C + 1)` of the ring. -/
def burstAddr (p : Params) (minAddr : BitVec p.axiAddrWidth)
    (cfgData : BitVec p.addrWidth) (k : ℕ) : BitVec p.axiAddrWidth :=
  BitVec.ofNat _ (minAddr.toNat +
    k % (cfgData.toNat + 1) * (16 * (p.axiDataWidth / 8)))

/-- The address requests not yet sent: in `buf_0` or still to enter it. -/
def pending (s : State p fifo0) : ℕ :=
  s.buf0.contents.length + s.intArvalidReg.toNat

/-- A beat belongs to one of the bursts requested, and the 16th beat of each
burst has RLAST.  While RVALID is low RLAST may be anything. -/
def Answers (past : List (Cycle (State p fifo0) (Input p α)))
    (c : Cycle (State p fifo0) (Input p α)) : Prop :=
  c.input.mAxiRvalid = true →
    (past.flatMap beat).length < 16 * ((past ++ [c]).flatMap arSent).length ∧
      (c.input.mAxiRlast = true ↔ (past.flatMap beat).length % 16 = 15)

def LegalSlave (cycles : List (Cycle (State p fifo0) (Input p α))) : Prop :=
  ∀ past c rest, cycles = past ++ c :: rest → Answers past c

/-- What the core makes of a run. -/
structure FlowControlled (minAddr : BitVec p.axiAddrWidth)
    (cfgData : BitVec p.addrWidth) (s₀ : State p fifo0)
    (inputs : List (Input p α)) : Prop where
  /-- No beat comes while the FIFO is full. -/
  noOverflow : ∀ c ∈ trace next s₀ inputs, c.input.mAxiRvalid = true →
    fifo0.full c.state.fifo = false
  /-- The `k`-th AR transfer carries the address of burst `k`. -/
  addresses : (trace next s₀ inputs).flatMap arSent =
    (List.range ((trace next s₀ inputs).flatMap arSent).length).map
      (burstAddr p minAddr cfgData)
  /-- Every burst started has its address request, sent or pending. -/
  requests : ∀ before, before <+: inputs →
    (trace next s₀ before).countP started =
      ((trace next s₀ before).flatMap arSent).length +
        pending (run next s₀ before)
  /-- With words of one width on both sides, the beats are the words delivered,
  in order, and after them the words in the FIFO. -/
  words : ∀ (word : α → β) (ideal : fifo0.Ideal word) (before),
    before <+: inputs →
      ((trace next s₀ before).flatMap beat).map word =
        (trace next s₀ before).flatMap delivered ++
          ideal.contents (run next s₀ before).fifo

/-! ## Addresses -/

theorem buf0InData_eq {s : State p fifo0} {i : Input p α}
    {cfgData : BitVec p.addrWidth} {k : ℕ}
    (haddr : s.intAddrReg.toNat = k % (cfgData.toNat + 1)) :
    buf0InData s i = burstAddr p i.minAddr cfgData k := by
  rw [buf0InData, base_add_scaled, burstAddr, haddr, Params.addrSize,
    two_pow_clog_lanes p.axi_lanes]

theorem intAddrReg_next {s : State p fifo0} {i : Input p α} {k : ℕ}
    (haddr : s.intAddrReg.toNat = k % (i.cfgData.toNat + 1)) :
    (next s i).intAddrReg.toNat =
      (k + (requested ⟨s, i⟩).length) % (i.cfgData.toNat + 1) := by
  change (if intArvalidWire s && intArreadyWire s i then
      if s.intAddrReg < i.cfgData then s.intAddrReg + 1 else 0
    else s.intAddrReg).toNat = _
  rw [requested, transfer]
  split
  · rw [List.length_singleton]
    exact toNat_advance haddr
  · exact haddr

/-- The state of the address side after the cycles `past`. -/
structure RequestBooks (minAddr : BitVec p.axiAddrWidth)
    (cfgData : BitVec p.addrWidth)
    (past : List (Cycle (State p fifo0) (Input p α))) (s : State p fifo0) :
    Prop where
  addr : s.intAddrReg.toNat =
    (past.flatMap requested).length % (cfgData.toNat + 1)
  addresses : past.flatMap requested =
    (List.range (past.flatMap requested).length).map
      (burstAddr p minAddr cfgData)

theorem RequestBooks.snoc {minAddr : BitVec p.axiAddrWidth}
    {cfgData : BitVec p.addrWidth}
    {past : List (Cycle (State p fifo0) (Input p α))} {s : State p fifo0}
    (h : RequestBooks minAddr cfgData past s) {i : Input p α}
    (hi : i.minAddr = minAddr ∧ i.cfgData = cfgData) :
    RequestBooks minAddr cfgData (past ++ [⟨s, i⟩]) (next s i) := by
  obtain ⟨rfl, rfl⟩ := hi
  refine ⟨?_, ?_⟩
  · rw [length_flatMap_snoc]
    exact intAddrReg_next h.addr
  · rw [List.flatMap_append, List.flatMap_singleton]
    apply map_range_snoc h.addresses
    rw [requested, transfer, buf0InData_eq h.addr]
    split
    · exact Or.inr rfl
    · exact Or.inl rfl

/-! ## Room for the burst in flight -/

/-- The state of the flow control after the cycles `past`. -/
structure FlowBooks (space : fifo0.Space p.fifoWriteDepth)
    (past : List (Cycle (State p fifo0) (Input p α))) (s : State p fifo0) :
    Prop where
  starts : past.countP started =
    (past.flatMap requested).length + s.intArvalidReg.toNat
  sent : (past.flatMap requested).length =
    (past.flatMap arSent).length + s.buf0.contents.length
  answered : (past.flatMap beat).length ≤ 16 * (past.flatMap arSent).length
  idle : s.intRvalidReg = false →
    (past.flatMap beat).length = 16 * past.countP started
  busy : s.intRvalidReg = true →
    (past.flatMap beat).length < 16 * past.countP started ∧
      16 * past.countP started ≤ (past.flatMap beat).length + 16
  /-- The words in the FIFO and those still to come of the burst in flight fit
  into the FIFO. -/
  room : space.used s.fifo + 16 * past.countP started ≤
    p.fifoWriteDepth + (past.flatMap beat).length

section Step

variable {space : fifo0.Space p.fifoWriteDepth}
  {past : List (Cycle (State p fifo0) (Input p α))} {s : State p fifo0}
  {i : Input p α}

theorem started_iff : intValidWire s = true ↔
    fifo0.wrDataCount s.fifo < p.fifoWriteDepth - 15 ∧
      s.intRvalidReg = false := by
  rw [intValidWire, Bool.and_eq_true, decide_eq_true_eq,
    Bool.not_eq_true']

theorem length_arSent_le (c : Cycle (State p fifo0) (Input p α)) :
    (arSent c).length ≤ c.state.buf0.contents.length := by
  rw [arSent]
  cases hvalid : c.state.buf0.outValid with
  | false => simp
  | true =>
      rw [OutputBuffer.contents_eq_singleton hvalid, length_transfer]
      exact Bool.toNat_le _

/-- A beat belongs to a burst that has started. -/
theorem FlowBooks.beat_lt (h : FlowBooks space past s)
    (hslave : Answers past ⟨s, i⟩) (hvalid : i.mAxiRvalid = true) :
    (past.flatMap beat).length < 16 * past.countP started := by
  have hbeat := (hslave hvalid).1
  have hsent := h.sent
  have hstarts := h.starts
  have hnow : (arSent ⟨s, i⟩).length ≤ s.buf0.contents.length :=
    length_arSent_le ⟨s, i⟩
  rw [length_flatMap_snoc] at hbeat
  omega

theorem FlowBooks.busy_of_beat (h : FlowBooks space past s)
    (hslave : Answers past ⟨s, i⟩) (hvalid : i.mAxiRvalid = true) :
    s.intRvalidReg = true := by
  have hlt := h.beat_lt hslave hvalid
  by_contra hidle
  have heq := h.idle (eq_false_of_ne_true hidle)
  omega

theorem FlowBooks.not_full (h : FlowBooks space past s)
    (hslave : Answers past ⟨s, i⟩) (hvalid : i.mAxiRvalid = true) :
    fifo0.full s.fifo = false := by
  have hlt := h.beat_lt hslave hvalid
  have hroom := h.room
  rw [← Bool.not_eq_true, space.full_iff]
  omega

/-- A burst starts after the address of the burst before it was sent. -/
theorem FlowBooks.not_merged (h : FlowBooks space past s)
    (hstart : intValidWire s = true) : s.intArvalidReg = false := by
  have hidle := h.idle (started_iff.mp hstart).2
  have hanswered := h.answered
  have hsent := h.sent
  have hstarts := h.starts
  have hnone : s.intArvalidReg.toNat = 0 := by omega
  exact Bool.toNat_eq_zero.mp hnone

theorem intArvalidReg_next
    (hpending : intValidWire s = true → s.intArvalidReg = false) :
    s.intArvalidReg.toNat + (started ⟨s, i⟩).toNat =
      (requested ⟨s, i⟩).length + (next s i).intArvalidReg.toNat := by
  have hbalance := pulse_balance (intValidWire s) s.intArvalidReg
    (intArreadyWire s i) (buf0InData s i)
  have hnone : (intValidWire s && s.intArvalidReg) = false := by
    cases hstart : intValidWire s with
    | false => rfl
    | true => rw [hpending hstart, Bool.and_false]
  rw [hnone] at hbalance
  exact hbalance

theorem length_beat : (beat ⟨s, i⟩).length = i.mAxiRvalid.toNat := by
  rw [beat, length_transfer, mAxiRready, Bool.and_true]

theorem intRvalidReg_next (s : State p fifo0) (i : Input p α) :
    (next s i).intRvalidReg = if i.mAxiRlast then false
      else if intValidWire s then true else s.intRvalidReg := rfl

/-- A beat of the burst in flight: none starts beside it. -/
theorem FlowBooks.flag_next_of_beat (h : FlowBooks space past s)
    (hslave : Answers past ⟨s, i⟩) (hvalid : i.mAxiRvalid = true) :
    intValidWire s = false ∧
    ((next s i).intRvalidReg = false →
      (past.flatMap beat).length + 1 = 16 * past.countP started) ∧
    ((next s i).intRvalidReg = true →
      (past.flatMap beat).length + 1 < 16 * past.countP started ∧
        16 * past.countP started ≤ (past.flatMap beat).length + 1 + 16) := by
  have hbusy := h.busy_of_beat hslave hvalid
  have hstart : intValidWire s = false := by
    by_contra hstart
    have hidle := (started_iff.mp (eq_true_of_ne_false hstart)).2
    exact Bool.false_ne_true (hidle.symm.trans hbusy)
  have hflight := h.busy hbusy
  have hend := (hslave hvalid).2
  refine ⟨hstart, ?_⟩
  rw [intRvalidReg_next, hstart, hbusy]
  cases hrlast : i.mAxiRlast with
  | true =>
      have hmod := hend.mp hrlast
      refine ⟨fun _ => ?_, fun hup => (Bool.false_ne_true hup).elim⟩
      omega
  | false =>
      have hmod : (past.flatMap beat).length % 16 ≠ 15 := fun hmod =>
        Bool.false_ne_true (hrlast.symm.trans (hend.mpr hmod))
      refine ⟨fun hdown => (Bool.false_ne_true hdown.symm).elim,
        fun _ => ⟨?_, ?_⟩⟩ <;> omega

/-- The flag is up exactly while beats of a burst are still to come. -/
theorem FlowBooks.flag_next (h : FlowBooks space past s)
    (hslave : Answers past ⟨s, i⟩) (hlast : spuriousLast ⟨s, i⟩ = false) :
    let beats := (past.flatMap beat).length + (beat ⟨s, i⟩).length
    let starts := past.countP started + (started ⟨s, i⟩).toNat
    ((next s i).intRvalidReg = false → beats = 16 * starts) ∧
      ((next s i).intRvalidReg = true →
        beats < 16 * starts ∧ 16 * starts ≤ beats + 16) := by
  rw [length_beat, started]
  cases hvalid : i.mAxiRvalid with
  | true =>
      obtain ⟨hstart, hflag⟩ := h.flag_next_of_beat hslave hvalid
      rw [hstart]
      exact hflag
  | false =>
      have hquiet : (intValidWire s || s.intRvalidReg) = true →
          i.mAxiRlast = false := by
        rw [spuriousLast, hvalid] at hlast
        intro hflight
        rw [hflight] at hlast
        simpa using hlast
      rw [intRvalidReg_next, Bool.toNat_false, Nat.add_zero]
      cases hstart : intValidWire s with
      | true =>
          rw [hquiet (by rw [hstart]; rfl), Bool.toNat_true]
          have hidle := h.idle (started_iff.mp hstart).2
          refine ⟨fun hdown => (Bool.false_ne_true hdown.symm).elim,
            fun _ => ⟨?_, ?_⟩⟩ <;> omega
      | false =>
          rw [Bool.toNat_false, Nat.add_zero]
          cases hbusy : s.intRvalidReg with
          | true =>
              rw [hquiet (by rw [hbusy, Bool.or_true])]
              exact ⟨fun hdown => (Bool.false_ne_true hdown.symm).elim,
                fun _ => h.busy hbusy⟩
          | false =>
              have hdown : (if i.mAxiRlast = true then false
                  else if false = true then true else false) = false := by
                split <;> rfl
              rw [hdown]
              exact ⟨fun _ => h.idle hbusy,
                fun hup => (Bool.false_ne_true hup).elim⟩

theorem used_next_le (space : fifo0.Space p.fifoWriteDepth) (s : State p fifo0)
    (i : Input p α) :
    space.used (next s i).fifo ≤ space.used s.fifo + (beat ⟨s, i⟩).length := by
  rw [length_beat]
  refine (space.used_step_le s.fifo i.mAxiRvalid i.mAxiRdata
    i.mAxisTready).trans (Nat.add_le_add_left ?_ _)
  cases i.mAxiRvalid <;> cases fifo0.full s.fifo <;> decide

theorem buf0_next (s : State p fifo0) (i : Input p α) :
    s.buf0.contents ++ requested ⟨s, i⟩ =
      arSent ⟨s, i⟩ ++ (next s i).buf0.contents :=
  s.buf0.step_lossless _ _ _

theorem FlowBooks.snoc (h : FlowBooks space past s)
    (hslave : Answers past ⟨s, i⟩) (hlast : spuriousLast ⟨s, i⟩ = false) :
    FlowBooks space (past ++ [⟨s, i⟩]) (next s i) := by
  obtain ⟨hidle, hbusy⟩ := h.flag_next hslave hlast
  have hsent := h.sent
  have hstarts := h.starts
  constructor
  · have hreg := intArvalidReg_next (i := i) h.not_merged
    rw [countP_snoc, length_flatMap_snoc]
    omega
  · have hbuf := congrArg List.length (buf0_next s i)
    rw [List.length_append, List.length_append] at hbuf
    rw [length_flatMap_snoc, length_flatMap_snoc]
    omega
  · have hanswered := h.answered
    rw [length_flatMap_snoc, length_beat]
    cases hvalid : i.mAxiRvalid with
    | true => exact (hslave hvalid).1
    | false =>
        rw [Bool.toNat_false, length_flatMap_snoc]
        omega
  · rw [countP_snoc, length_flatMap_snoc]
    exact hidle
  · rw [countP_snoc, length_flatMap_snoc]
    exact hbusy
  · have hused := used_next_le space s i
    have hroom := h.room
    rw [countP_snoc, length_flatMap_snoc, started]
    cases hstart : intValidWire s with
    | false =>
        rw [Bool.toNat_false]
        omega
    | true =>
        obtain ⟨hcount, hdown⟩ := started_iff.mp hstart
        have hbeats := h.idle hdown
        rw [space.wrDataCount_eq] at hcount
        rw [Bool.toNat_true]
        omega

end Step

/-! ## Runs -/

section Run

variable {minAddr : BitVec p.axiAddrWidth} {cfgData : BitVec p.addrWidth}
  {inputs : List (Input p α)}

theorem LegalSlave.take {s₀ : State p fifo0} {before : List (Input p α)}
    (h : LegalSlave (trace next s₀ inputs)) (hbefore : before <+: inputs) :
    LegalSlave (trace next s₀ before) := by
  obtain ⟨later, hlater⟩ := trace_mono next s₀ hbefore
  intro past c rest hpast
  apply h past c (rest ++ later)
  rw [← hlater, hpast, List.append_assoc, List.cons_append]

theorem requestBooks_run (s : State p fifo0) (i : Input p α)
    (hports : ∀ i ∈ inputs, i.minAddr = minAddr ∧ i.cfgData = cfgData) :
    RequestBooks minAddr cfgData (trace next (step false s i) inputs)
      (run next (step false s i) inputs) := by
  exact trace_induction_of (RequestBooks minAddr cfgData)
    (fun c => c.input.minAddr = minAddr ∧ c.input.cfgData = cfgData)
    ⟨rfl, rfl⟩ (fun _ _ _ hpast hok => hpast.snoc hok) inputs
    (forall_trace_input _ _ hports)

theorem flowBooks_run (space : fifo0.Space p.fifoWriteDepth)
    (s : State p fifo0) (i : Input p α)
    (hslave : LegalSlave (trace next (step false s i) inputs))
    (hlast : ∀ c ∈ trace next (step false s i) inputs,
      spuriousLast c = false) :
    FlowBooks space (trace next (step false s i) inputs)
      (run next (step false s i) inputs) := by
  refine trace_induction_past (FlowBooks space)
    (fun past c => Answers past c ∧ spuriousLast c = false) ?_
    (fun _ _ _ hpast hok => hpast.snoc hok.1 hok.2) inputs ?_
  · refine ⟨rfl, rfl, le_refl _, fun _ => rfl, fun hup => ?_, ?_⟩
    · exact (Bool.false_ne_true hup).elim
    · have hempty : space.used (step false s i).fifo = 0 :=
        space.used_reset _ _ _ _
      rw [hempty]
      exact Nat.zero_le _
  · intro past c rest hpast
    refine ⟨hslave past c rest hpast, hlast c ?_⟩
    rw [hpast]
    exact List.mem_append_right _ List.mem_cons_self

/-- `buf_0` gives the addresses on in order. -/
theorem requested_run (s : State p fifo0) (i : Input p α)
    (inputs : List (Input p α)) :
    (trace next (step false s i) inputs).flatMap requested =
      (trace next (step false s i) inputs).flatMap arSent ++
        (run next (step false s i) inputs).buf0.contents :=
  run_conserves (fun s : State p fifo0 => s.buf0.contents) requested arSent
    buf0_next rfl inputs

/-- The FIFO gives the words on in order. -/
theorem pushed_run {word : α → β} (ideal : fifo0.Ideal word)
    (s : State p fifo0) (i : Input p α) (inputs : List (Input p α)) :
    (trace next (step false s i) inputs).flatMap (fun c =>
        transfer c.input.mAxiRvalid (!fifo0.full c.state.fifo)
          (word c.input.mAxiRdata)) =
      (trace next (step false s i) inputs).flatMap delivered ++
        ideal.contents (run next (step false s i) inputs).fifo := by
  apply run_conserves (fun s : State p fifo0 => ideal.contents s.fifo)
  · intro s i
    rw [delivered, mAxisTvalid, ideal.empty_eq]
    exact ideal.step_lossless s.fifo i.mAxiRvalid i.mAxiRdata i.mAxisTready
  · exact ideal.contents_reset _ _ _ _

/-- Without an RLAST out of place the FIFO never overflows, and the ring is read
in order. -/
theorem flowControlled_of_no_spuriousLast
    (space : fifo0.Space p.fifoWriteDepth) (s : State p fifo0) (i : Input p α)
    (hports : ∀ i ∈ inputs, i.minAddr = minAddr ∧ i.cfgData = cfgData)
    (hslave : LegalSlave (trace next (step false s i) inputs))
    (hlast : ∀ c ∈ trace next (step false s i) inputs,
      spuriousLast c = false) :
    FlowControlled minAddr cfgData (step false s i) inputs := by
  have hbooks : ∀ before, before <+: inputs →
      FlowBooks space (trace next (step false s i) before)
        (run next (step false s i) before) := fun before hbefore =>
    flowBooks_run space s i (hslave.take hbefore) fun c hc =>
      hlast c ((trace_mono next _ hbefore).subset hc)
  have hroom : ∀ c ∈ trace next (step false s i) inputs,
      c.input.mAxiRvalid = true → fifo0.full c.state.fifo = false := by
    intro c hc hvalid
    obtain ⟨past, rest, hpast⟩ := List.append_of_mem hc
    obtain ⟨before, after, hinputs, rfl, hstate⟩ := exists_before hpast
    have hbefore := hbooks before ⟨c.input :: after, hinputs.symm⟩
    rw [← hstate] at hbefore
    exact hbefore.not_full (hslave _ _ _ hpast) hvalid
  refine ⟨hroom, ?_, ?_, ?_⟩
  · have haddresses := (requestBooks_run s i hports).addresses
    rw [requested_run] at haddresses
    exact eq_range_of_append haddresses
  · intro before hbefore
    rw [(hbooks before hbefore).starts, (hbooks before hbefore).sent, pending,
      Nat.add_assoc]
  · intro word ideal before hbefore
    rw [← pushed_run ideal s i before, List.map_flatMap]
    apply List.flatMap_congr
    intro c hc
    have hfree := hroom c ((trace_mono next _ hbefore).subset hc)
    rw [beat, mAxiRready]
    cases hvalid : c.input.mAxiRvalid with
    | false => rfl
    | true =>
        rw [hfree hvalid]
        rfl

end Run

/-! ## A single RLAST out of place -/

instance (past : List (Cycle (State p fifo0) (Input p α)))
    (c : Cycle (State p fifo0) (Input p α)) : Decidable (Answers past c) := by
  unfold Answers
  infer_instance

theorem legalSlave_of_forall {cycles : List (Cycle (State p fifo0) (Input p α))}
    (h : ∀ n (hn : n < cycles.length),
      Answers (cycles.take n) (cycles.get ⟨n, hn⟩)) :
    LegalSlave cycles := by
  rintro past c rest rfl
  have hpast := h past.length (by simp)
  simpa using hpast

/-- The smallest FIFO. -/
def smallParams : Params where
  fifoWriteDepth := 16
  axi_lanes := ⟨3, rfl⟩
  fifo_depth := by decide

def idleState : State smallParams (CountedFifo.words (BitVec 64) 16) where
  intArvalidReg := false
  intRvalidReg := false
  intAddrReg := 0
  fifo := ([] : List (BitVec 64))
  buf0 := ⟨0, false⟩

/-- RLAST and RVALID as given, with ARREADY high and a consumer that is `ready`
or not. -/
def rInput (ready rlast rvalid : Bool) : Input smallParams (BitVec 64) where
  minAddr := 0x1e000000
  cfgData := 0xff
  mAxiArready := true
  mAxiRlast := rlast
  mAxiRdata := 7
  mAxiRvalid := rvalid
  mAxisTready := ready

/-- Two cycles without a beat, with RLAST in the first as given, then the 16
beats of a burst. -/
def stream (ready spurious : Bool) : List (Input smallParams (BitVec 64)) :=
  [rInput ready spurious false, rInput ready false false] ++
    List.replicate 15 (rInput ready false true) ++
    [rInput ready true true]

theorem flowControlled_stream :
    FlowControlled 0x1e000000 0xff
      (step false idleState (rInput true false false)) (stream true false) := by
  refine flowControlled_of_no_spuriousLast
    (CountedFifo.spaceWords (BitVec 64) 16) _ _ ?_ ?_ ?_
  · intro i hi
    have hports : ∀ i ∈ stream true false,
        i.minAddr = 0x1e000000 ∧ i.cfgData = 0xff := by decide
    exact hports i hi
  · exact legalSlave_of_forall (by decide +kernel)
  · decide +kernel

/-- After RLAST in the first cycle two bursts are in flight at once, and the
17th beat finds the FIFO full. -/
theorem not_flowControlled_stream :
    LegalSlave (trace next (step false idleState (rInput false false false))
        (stream false true ++ [rInput false false true])) ∧
      ¬FlowControlled 0x1e000000 0xff
        (step false idleState (rInput false false false))
        (stream false true ++ [rInput false false true]) := by
  refine ⟨legalSlave_of_forall (by decide +kernel), fun hflow => ?_⟩
  have hroom := hflow.noOverflow
  revert hroom
  decide +kernel

end RedPitayaNotes.AxisRamReader
