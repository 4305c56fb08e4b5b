import RedPitayaNotes.Cores.AxisRamWriter.Pairing

/-!
# The data of axis_ram_writer

A burst starts when the FIFO holds 16 words, and its beats are read out whenever
`buf_1` is ready.  The FIFO can only grow in between, so it covers the burst to
the end: no beat is made from an empty FIFO, and every word accepted is sent,
waits in `buf_1`, or waits in the FIFO.
-/

namespace RedPitayaNotes.AxisRamWriter

open Clocked Elastic BurstRing

universe u w

variable {α : Type u} {p : Params} {fifo0 : Fifo.{u, u, w} α α}

/-- The word accepted on the stream. -/
def accepted (c : Cycle (State p fifo0) (Input p α)) : List α :=
  transfer c.input.sAxisTvalid (sAxisTready c.state) c.input.sAxisTdata

/-- What the W channel carries in a run, and where its words come from. -/
structure DataExact (ideal : fifo0.Ideal) (s₀ : State p fifo0)
    (inputs : List (Input p α)) : Prop where
  /-- The words accepted are the words sent, in order, and after them the words
  in `buf_1` and in the FIFO. -/
  words : ∀ before, before <+: inputs →
    (trace next s₀ before).flatMap accepted =
      ((trace next s₀ before).flatMap wSent).map Prod.snd ++
        ((run next s₀ before).buf1.contents.map Prod.snd ++
          ideal.contents (run next s₀ before).fifo)
  /-- No word is offered, let alone read, while the FIFO is empty. -/
  reads : ∀ c ∈ trace next s₀ inputs, intWvalidWire c.state = true →
    ideal.contents c.state.fifo ≠ []
  /-- `m_axi_wlast` comes with every 16th beat and with no other. -/
  lasts : ((trace next s₀ inputs).flatMap wSent).map Prod.fst =
    (List.range ((trace next s₀ inputs).flatMap wSent).length).map
      fun n => decide (n % 16 = 15)
  /-- A burst starts on 16 words. -/
  starts : ∀ c ∈ trace next s₀ inputs, started c = true →
    16 ≤ (ideal.contents c.state.fifo).length
  /-- Until `buf_1` has taken the 16 beats of every burst started, it is offered
  a beat in every cycle. -/
  steady : ∀ before, before <+: inputs →
    ((trace next s₀ before).flatMap beatTaken).length <
        16 * (trace next s₀ before).countP started →
      intWvalidWire (run next s₀ before) = true

/-! ## The FIFO covers the burst -/

/-- The words that a burst in hand has still to read are in the FIFO. -/
structure Covered (ideal : fifo0.Ideal) (s : State p fifo0) : Prop where
  busy : s.intWvalidReg = true →
    16 - s.intCntrReg.toNat ≤ (ideal.contents s.fifo).length
  idle : s.intWvalidReg = false → s.intCntrReg = 0

theorem started_le {ideal : fifo0.Ideal} {s : State p fifo0}
    (h : intValidWire s = true) : 16 ≤ (ideal.contents s.fifo).length := by
  rw [intValidWire, Bool.and_eq_true, decide_eq_true_eq,
    ideal.rdDataCount_eq] at h
  exact h.1

/-- A beat on offer has its word and those after it in the FIFO. -/
theorem Covered.offered {ideal : fifo0.Ideal} {s : State p fifo0}
    (h : Covered ideal s) (hvalid : intWvalidWire s = true) :
    16 - s.intCntrReg.toNat ≤ (ideal.contents s.fifo).length := by
  rw [intWvalidWire, Bool.or_eq_true] at hvalid
  rcases hvalid with hstart | hbusy
  · exact le_trans (Nat.sub_le _ _) (started_le hstart)
  · exact h.busy hbusy

theorem Covered.nonempty {ideal : fifo0.Ideal} {s : State p fifo0}
    (h : Covered ideal s) (hvalid : intWvalidWire s = true) :
    ideal.contents s.fifo ≠ [] := by
  have hcovered := h.offered hvalid
  have hcntr := s.intCntrReg.isLt
  rw [← List.length_pos_iff]
  omega

/-- A read takes one word; nothing else leaves the FIFO. -/
theorem length_contents_next (ideal : fifo0.Ideal) (s : State p fifo0)
    (i : Input p α) :
    (ideal.contents s.fifo).length ≤
      (ideal.contents (next s i).fifo).length + (intRdenWire s i).toNat := by
  change _ ≤ (ideal.contents (fifo0.step false s.fifo i.sAxisTvalid
    i.sAxisTdata (intRdenWire s i))).length + _
  rw [ideal.contents_step, List.length_append]
  cases intRdenWire s i with
  | false => simp
  | true =>
      rw [if_pos rfl, List.length_tail, Bool.toNat_true]
      omega

theorem toNat_add_one_of_not_last {cntr : BitVec 4}
    (h : cntr ≠ BitVec.allOnes 4) : (cntr + 1).toNat = cntr.toNat + 1 := by
  have hne : cntr.toNat ≠ 15 := fun heq => h (BitVec.eq_of_toNat_eq heq)
  have hlt := cntr.isLt
  rw [BitVec.toNat_add]
  exact Nat.mod_eq_of_lt (by change cntr.toNat + 1 < 16; omega)

section Covered

variable {ideal : fifo0.Ideal} {s : State p fifo0}

/-- No burst is in hand, and none starts. -/
theorem Covered.next_of_idle (h : Covered ideal s) (i : Input p α)
    (hvalid : intWvalidWire s = false) :
    Covered ideal (AxisRamWriter.next s i) := by
  have hrden : intRdenWire s i = false := by rw [intRdenWire, hvalid]; rfl
  rw [intWvalidWire, Bool.or_eq_false_iff] at hvalid
  obtain ⟨hstart, hidle⟩ := hvalid
  have hcntr : (AxisRamWriter.next s i).intCntrReg = s.intCntrReg := by
    change (if intRdenWire s i then s.intCntrReg + 1 else s.intCntrReg) = _
    rw [hrden]
    rfl
  have hreg : (AxisRamWriter.next s i).intWvalidReg = false := by
    change (if intWreadyWire s i && intWlastWire s then false
      else if intValidWire s then true else s.intWvalidReg) = _
    rw [hstart, hidle]
    split <;> rfl
  refine ⟨fun hbusy => ?_, fun _ => ?_⟩
  · rw [hreg] at hbusy
    exact absurd hbusy (by decide)
  · rw [hcntr]
    exact h.idle hidle

/-- The valid flag of a burst in hand falls with its last beat. -/
theorem intWvalidReg_of_valid (i : Input p α) (hvalid : intWvalidWire s = true) :
    (AxisRamWriter.next s i).intWvalidReg =
      !(intWreadyWire s i && intWlastWire s) := by
  have hheld : (if intValidWire s then true else s.intWvalidReg) = true := by
    rw [intWvalidWire] at hvalid
    cases hstart : intValidWire s with
    | false => rwa [hstart, Bool.false_or] at hvalid
    | true => rfl
  change (if intWreadyWire s i && intWlastWire s then false
    else if intValidWire s then true else s.intWvalidReg) = _
  rw [hheld]
  cases intWreadyWire s i && intWlastWire s <;> rfl

theorem Covered.next_of_valid (h : Covered ideal s) (i : Input p α)
    (hvalid : intWvalidWire s = true) :
    Covered ideal (AxisRamWriter.next s i) := by
  have hcntr : (AxisRamWriter.next s i).intCntrReg =
      if intRdenWire s i then s.intCntrReg + 1 else s.intCntrReg := rfl
  have hreg := intWvalidReg_of_valid i hvalid
  have hlength := length_contents_next ideal s i
  have hoffered := h.offered hvalid
  have hrden : intRdenWire s i = intWreadyWire s i := by
    rw [intRdenWire, hvalid, Bool.true_and]
  rw [hrden] at hcntr hlength
  cases hready : intWreadyWire s i with
  | false =>
      rw [hready] at hcntr hreg hlength
      rw [Bool.toNat_false] at hlength
      rw [Bool.false_and] at hreg
      refine ⟨fun _ => ?_, fun hidle => ?_⟩
      · rw [hcntr]
        exact le_trans hoffered hlength
      · rw [hreg] at hidle
        exact absurd hidle (by decide)
  | true =>
      rw [hready] at hcntr hreg hlength
      rw [Bool.toNat_true] at hlength
      rw [if_pos rfl] at hcntr
      rw [Bool.true_and] at hreg
      by_cases hlast : s.intCntrReg = BitVec.allOnes 4
      · -- the 16th beat ends the burst and the counter wraps
        have hwlast : intWlastWire s = true := by
          rw [intWlastWire, hlast]
          rfl
        rw [hwlast] at hreg
        rw [hlast] at hcntr
        refine ⟨fun hbusy => ?_, fun _ => hcntr⟩
        rw [hreg] at hbusy
        exact absurd hbusy (by decide)
      · have hwlast : intWlastWire s = false := by
          rw [intWlastWire, beq_eq_false_iff_ne]
          exact hlast
        rw [hwlast] at hreg
        refine ⟨fun _ => ?_, fun hidle => ?_⟩
        · rw [hcntr, toNat_add_one_of_not_last hlast]
          omega
        · rw [hreg] at hidle
          exact absurd hidle (by decide)

theorem Covered.next (h : Covered ideal s) (i : Input p α) :
    Covered ideal (AxisRamWriter.next s i) := by
  cases hvalid : intWvalidWire s with
  | false => exact h.next_of_idle i hvalid
  | true => exact h.next_of_valid i hvalid

end Covered

/-! ## Words -/

/-- The words of the core, the oldest first. -/
def held (ideal : fifo0.Ideal) (s : State p fifo0) : List α :=
  s.buf1.contents.map Prod.snd ++ ideal.contents s.fifo

/-- The FIFO feeds `buf_1`. -/
theorem held_next {ideal : fifo0.Ideal} {s : State p fifo0}
    (h : Covered ideal s) (i : Input p α) :
    Lossless (held ideal s) (accepted ⟨s, i⟩)
      ((wSent ⟨s, i⟩).map Prod.snd) (held ideal (next s i)) := by
  have hfifo := ideal.step_lossless s.fifo i.sAxisTvalid i.sAxisTdata
    (intRdenWire s i)
  have hbuf : Lossless (s.buf1.contents.map Prod.snd)
      ((beatTaken ⟨s, i⟩).map Prod.snd) ((wSent ⟨s, i⟩).map Prod.snd)
      ((next s i).buf1.contents.map Prod.snd) := by
    rw [Lossless, ← List.map_append, buf1_next, List.map_append]
  have hmoved : transfer (!(ideal.contents s.fifo).isEmpty) (intRdenWire s i)
      (fifo0.dout s.fifo) = (beatTaken ⟨s, i⟩).map Prod.snd := by
    rw [beatTaken, buf1InData, intRdenWire]
    cases hvalid : intWvalidWire s with
    | false => simp
    | true =>
        have hne := List.isEmpty_eq_false_iff.mpr (h.nonempty hvalid)
        rw [hne]
        cases intWreadyWire s i <;> rfl
  rw [hmoved] at hfifo
  exact hfifo.comp hbuf

/-! ## Runs -/

theorem covered_reset (ideal : fifo0.Ideal) (s : State p fifo0)
    (i : Input p α) : Covered ideal (step false s i) :=
  ⟨fun hbusy => (Bool.false_ne_true hbusy).elim, fun _ => rfl⟩

/-- Whatever the source, the slave and the configuration do, the beats are the
words accepted, in whole bursts, each made from a word of the FIFO. -/
theorem dataExact (ideal : fifo0.Ideal) (s : State p fifo0) (i : Input p α)
    (inputs : List (Input p α)) : DataExact ideal (step false s i) inputs := by
  have hreset : (step false s i).IsReset := isReset_step s i
  have hcovered := covered_reset ideal s i
  refine ⟨?_, ?_, ?_, ?_, ?_⟩
  · rintro before ⟨after, rfl⟩
    have hempty : held ideal (step false s i) = [] :=
      List.append_eq_nil_iff.mpr ⟨by rfl, ideal.contents_reset _ _ _ _⟩
    have hrun := run_conserves_of (Covered ideal) (held ideal) accepted
      (fun c => (wSent c).map Prod.snd) (fun s i hs => hs.next i)
      (fun s i hs => held_next hs i) hcovered hempty before
    rwa [← List.map_flatMap] at hrun
  · intro c hc hvalid
    have hc' := trace_invariant (Covered ideal) (fun s i hs => hs.next i)
      hcovered inputs c hc
    exact hc'.nonempty hvalid
  · have hlasts := (beatBooks_run hreset inputs).lasts
    rw [beatTaken_run hreset inputs, List.map_append] at hlasts
    have hbursts := eq_range_of_append hlasts
    rwa [List.length_map] at hbursts
  · intro c _ hstart
    exact started_le hstart
  · intro before _ hlt
    have hbooks := (beatBooks_run hreset before).starts
    rw [intWvalidWire, Bool.or_eq_true]
    refine Or.inr ?_
    by_contra hidle
    rw [if_neg hidle] at hbooks
    omega

/-- Cycle `k`: the words 0 to 19 are on offer, and WREADY is low in every third
cycle. -/
def numbered (k : ℕ) : Input defaultParams (BitVec 64) where
  minAddr := 0x1e000000
  cfgData := 0xff
  mAxiAwready := true
  mAxiWready := decide (k % 3 ≠ 0)
  sAxisTdata := BitVec.ofNat 64 k
  sAxisTvalid := decide (k < 20)

/-- After the reset the first 16 words go out as a burst, and the others wait. -/
theorem dataExact_numbered :
    let s := step false resetState (numbered 0)
    let inputs := (List.range 44).map numbered
    DataExact (Fifo.idealWords (BitVec 64) 512) s inputs ∧
      (trace next s inputs).flatMap wSent =
        (List.range 16).map (fun n => (decide (n = 15), BitVec.ofNat 64 n)) ∧
      (Fifo.idealWords (BitVec 64) 512).contents (run next s inputs).fifo =
        [16, 17, 18, 19] :=
  ⟨dataExact _ _ _ _, by decide +kernel, by decide +kernel⟩

end RedPitayaNotes.AxisRamWriter
