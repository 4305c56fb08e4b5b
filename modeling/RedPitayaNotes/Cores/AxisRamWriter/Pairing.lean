import Mathlib.Data.List.Count
import RedPitayaNotes.Cores.AxisRamWriter.Model
import RedPitayaNotes.Support.BurstRing

/-!
# Bursts and addresses of axis_ram_writer

The addresses on the AW channel always follow the ring, and the beats on the W
channel always come in bursts of 16.  A start pulse makes one address request
unless it falls on a cycle in which the request of the burst before it is still
pending; then the two merge into one.
-/

namespace RedPitayaNotes.AxisRamWriter

open Clocked Elastic BurstRing

universe u v w

variable {α : Type u} {β : Type v} {p : Params} {fifo0 : Fifo.{u, v, w} α β}

/-- The address of burst `k`: burst `k mod (C + 1)` of the ring. -/
def burstAddr (p : Params) (minAddr : BitVec p.axiAddrWidth)
    (cfgData : BitVec p.addrWidth) (k : ℕ) : BitVec p.axiAddrWidth :=
  BitVec.ofNat _ (minAddr.toNat +
    k % (cfgData.toNat + 1) * (16 * (p.axiDataWidth / 8)))

/-- The address requests not yet sent: in `buf_0` or still to enter it. -/
def pending (s : State p fifo0) : ℕ :=
  s.buf0.contents.length + s.intAwvalidReg.toNat

/-- What the two channels carry in a run, and how far they are apart in every
cycle of it. -/
structure Paired (minAddr : BitVec p.axiAddrWidth)
    (cfgData : BitVec p.addrWidth) (s₀ : State p fifo0)
    (inputs : List (Input p α)) : Prop where
  /-- The `k`-th AW transfer carries the address of burst `k`. -/
  addresses : (trace next s₀ inputs).flatMap awSent =
    (List.range ((trace next s₀ inputs).flatMap awSent).length).map
      (burstAddr p minAddr cfgData)
  /-- The `k`-th W burst is beats `16 * k` to `16 * k + 15`. -/
  bursts : ((trace next s₀ inputs).flatMap wSent).map Prod.fst =
    (List.range ((trace next s₀ inputs).flatMap wSent).length).map
      fun n => decide (n % 16 = 15)
  /-- Beats are sent of bursts that have started. -/
  beats : ∀ before, before <+: inputs →
    ((trace next s₀ before).flatMap wSent).length ≤
      16 * (trace next s₀ before).countP started
  /-- Every burst started has its address, issued or pending. -/
  requests : ∀ before, before <+: inputs →
    (trace next s₀ before).countP started =
      ((trace next s₀ before).flatMap awSent).length +
        pending (run next s₀ before)

/-! ## Addresses -/

theorem buf0InData_eq {s : State p fifo0} {i : Input p α}
    {cfgData : BitVec p.addrWidth} {k : ℕ}
    (haddr : s.intAddrReg.toNat = k % (cfgData.toNat + 1)) :
    buf0InData s i = burstAddr p i.minAddr cfgData k := by
  rw [buf0InData, base_add_scaled, burstAddr, haddr, Params.addrSize,
    two_pow_clog_lanes p.axi_lanes]

/-- The state of the address side after the cycles `past`. -/
structure RequestBooks (minAddr : BitVec p.axiAddrWidth)
    (cfgData : BitVec p.addrWidth)
    (past : List (Cycle (State p fifo0) (Input p α))) (s : State p fifo0) :
    Prop where
  addr : s.intAddrReg.toNat =
    (past.flatMap requested).length % (cfgData.toNat + 1)
  addresses : past.flatMap requested =
    (List.range (past.flatMap requested).length).map
      (burstAddr p minAddr cfgData)
  starts : past.countP started =
    (past.flatMap requested).length + s.intAwvalidReg.toNat +
      past.countP merged

theorem intAddrReg_next {s : State p fifo0} {i : Input p α} {k : ℕ}
    (haddr : s.intAddrReg.toNat = k % (i.cfgData.toNat + 1)) :
    (next s i).intAddrReg.toNat =
      (k + (requested ⟨s, i⟩).length) % (i.cfgData.toNat + 1) := by
  change (if intAwvalidWire s && intAwreadyWire s i then
      if s.intAddrReg < i.cfgData then s.intAddrReg + 1 else 0
    else s.intAddrReg).toNat = _
  cases htaken : intAwvalidWire s && intAwreadyWire s i with
  | false => simp [requested, transfer, htaken, haddr]
  | true =>
      simp only [requested, transfer, htaken, if_true, List.length_singleton]
      exact toNat_advance haddr

/-- A pulse makes a request, one in all with a pending one. -/
theorem intAwvalidReg_next (s : State p fifo0) (i : Input p α) :
    s.intAwvalidReg.toNat + (started ⟨s, i⟩).toNat =
      (requested ⟨s, i⟩).length + (next s i).intAwvalidReg.toNat +
        (merged ⟨s, i⟩).toNat :=
  pulse_balance (intValidWire s) s.intAwvalidReg (intAwreadyWire s i)
    (buf0InData s i)

theorem RequestBooks.snoc {minAddr : BitVec p.axiAddrWidth}
    {cfgData : BitVec p.addrWidth}
    {past : List (Cycle (State p fifo0) (Input p α))} {s : State p fifo0}
    (h : RequestBooks minAddr cfgData past s) {i : Input p α}
    (hi : i.minAddr = minAddr ∧ i.cfgData = cfgData) :
    RequestBooks minAddr cfgData (past ++ [⟨s, i⟩]) (next s i) := by
  obtain ⟨rfl, rfl⟩ := hi
  have hreg := intAwvalidReg_next s i
  have hstarts := h.starts
  refine ⟨?_, ?_, ?_⟩
  · rw [length_flatMap_snoc]
    exact intAddrReg_next h.addr
  · rw [List.flatMap_append, List.flatMap_singleton]
    apply map_range_snoc h.addresses
    rw [requested, transfer, buf0InData_eq h.addr]
    split
    · exact Or.inr rfl
    · exact Or.inl rfl
  · rw [length_flatMap_snoc, countP_snoc, countP_snoc]
    omega

/-! ## Beats -/

/-- The state of the data side after the cycles `past`. -/
structure BeatBooks (past : List (Cycle (State p fifo0) (Input p α)))
    (s : State p fifo0) : Prop where
  cntr : s.intCntrReg = BitVec.ofNat 4 (past.flatMap beatTaken).length
  lasts : (past.flatMap beatTaken).map Prod.fst =
    (List.range ((past.flatMap beatTaken).map Prod.fst).length).map
      fun n => decide (n % 16 = 15)
  idle : s.intWvalidReg = false → (past.flatMap beatTaken).length % 16 = 0
  starts : (past.flatMap beatTaken).length +
      (if s.intWvalidReg then 16 - (past.flatMap beatTaken).length % 16
        else 0) =
    16 * past.countP started

theorem intWlastWire_eq {s : State p fifo0} {n : ℕ}
    (h : s.intCntrReg = BitVec.ofNat 4 n) :
    intWlastWire s = decide (n % 16 = 15) := by
  rw [intWlastWire, h, beq_eq_decide, decide_eq_decide,
    ← BitVec.toNat_inj, BitVec.toNat_ofNat]
  rfl

theorem intCntrReg_next {s : State p fifo0} {n : ℕ}
    (h : s.intCntrReg = BitVec.ofNat 4 n) (i : Input p α) :
    (next s i).intCntrReg =
      BitVec.ofNat 4 (n + (beatTaken ⟨s, i⟩).length) := by
  change (if intRdenWire s i then s.intCntrReg + 1 else s.intCntrReg) = _
  rw [beatTaken, transfer, ← intRdenWire, h]
  split
  · rw [List.length_singleton, BitVec.ofNat_add]
    rfl
  · rfl

/-- The beats still to come of the burst in hand. -/
theorem intWvalidReg_next {s : State p fifo0} {n : ℕ}
    (h : s.intCntrReg = BitVec.ofNat 4 n)
    (hidle : s.intWvalidReg = false → n % 16 = 0) (i : Input p α) :
    let n' := n + (beatTaken ⟨s, i⟩).length
    ((next s i).intWvalidReg = false → n' % 16 = 0) ∧
      n' + (if (next s i).intWvalidReg then 16 - n' % 16 else 0) =
        n + (if s.intWvalidReg then 16 - n % 16 else 0) +
          16 * (started ⟨s, i⟩).toNat := by
  have hreg : (next s i).intWvalidReg =
      if intWreadyWire s i && intWlastWire s then false
      else if intValidWire s then true else s.intWvalidReg := rfl
  have hpulse : intValidWire s = true → s.intWvalidReg = false := by
    unfold intValidWire
    cases s.intWvalidReg <;> simp
  rw [intWlastWire_eq h] at hreg
  rw [hreg, started, beatTaken, intWvalidWire]
  cases hvalid : s.intWvalidReg with
  | true =>
      have hnone : intValidWire s = false := by
        by_contra hsome
        have := hpulse (eq_true_of_ne_false hsome)
        rw [hvalid] at this
        exact absurd this (by decide)
      rw [hnone]
      cases intWreadyWire s i with
      | false => simp
      | true =>
          by_cases hlast : n % 16 = 15
          · simp [hlast]
            omega
          · simp [hlast]
            omega
  | false =>
      have hzero := hidle hvalid
      have hlast : ¬n % 16 = 15 := by omega
      cases intValidWire s with
      | false => simp [hzero]
      | true =>
          cases intWreadyWire s i with
          | false => simp [hzero]
          | true =>
              simp [hlast]
              omega

theorem BeatBooks.snoc {past : List (Cycle (State p fifo0) (Input p α))}
    {s : State p fifo0} (h : BeatBooks past s) (i : Input p α) :
    BeatBooks (past ++ [⟨s, i⟩]) (next s i) := by
  obtain ⟨hidle, hstarts⟩ := intWvalidReg_next h.cntr h.idle i
  refine ⟨?_, ?_, ?_, ?_⟩
  · rw [length_flatMap_snoc]
    exact intCntrReg_next h.cntr i
  · rw [List.flatMap_append, List.flatMap_singleton, List.map_append]
    apply map_range_snoc h.lasts
    rw [beatTaken, transfer, buf1InData, intWlastWire_eq h.cntr,
      List.length_map]
    split
    · exact Or.inr rfl
    · exact Or.inl rfl
  · rw [length_flatMap_snoc]
    exact hidle
  · rw [length_flatMap_snoc, countP_snoc]
    refine hstarts.trans ?_
    rw [h.starts, Nat.mul_add]

/-! ## Runs -/

section Run

variable {s₀ : State p fifo0} {minAddr : BitVec p.axiAddrWidth}
  {cfgData : BitVec p.addrWidth} {inputs : List (Input p α)}

theorem requestBooks_run (h : s₀.IsReset)
    (hports : ∀ i ∈ inputs, i.minAddr = minAddr ∧ i.cfgData = cfgData) :
    RequestBooks minAddr cfgData (trace next s₀ inputs)
      (run next s₀ inputs) := by
  refine trace_induction_of (RequestBooks minAddr cfgData)
    (fun c => c.input.minAddr = minAddr ∧ c.input.cfgData = cfgData)
    ⟨?_, rfl, ?_⟩ (fun _ _ _ hpast hok => hpast.snoc hok) inputs
    (forall_trace_input _ _ hports)
  · rw [h.intAddrReg]
    rfl
  · rw [h.intAwvalidReg]
    rfl

theorem beatBooks_run (h : s₀.IsReset) (inputs : List (Input p α)) :
    BeatBooks (trace next s₀ inputs) (run next s₀ inputs) := by
  refine trace_induction BeatBooks ⟨h.intCntrReg, rfl, fun _ => rfl, ?_⟩
    (fun _ _ i hpast => hpast.snoc i) inputs
  rw [h.intWvalidReg]
  rfl

theorem buf0_next (s : State p fifo0) (i : Input p α) :
    s.buf0.contents ++ requested ⟨s, i⟩ =
      awSent ⟨s, i⟩ ++ (next s i).buf0.contents :=
  s.buf0.step_lossless _ _ _

theorem buf1_next (s : State p fifo0) (i : Input p α) :
    s.buf1.contents ++ beatTaken ⟨s, i⟩ =
      wSent ⟨s, i⟩ ++ (next s i).buf1.contents :=
  s.buf1.step_lossless _ _ _

/-- `buf_0` gives the addresses on in order. -/
theorem requested_run (h : s₀.IsReset) (inputs : List (Input p α)) :
    (trace next s₀ inputs).flatMap requested =
      (trace next s₀ inputs).flatMap awSent ++
        (run next s₀ inputs).buf0.contents :=
  run_conserves (fun s : State p fifo0 => s.buf0.contents) requested awSent
    buf0_next (OutputBuffer.contents_eq_nil_iff.mpr h.buf0) inputs

/-- `buf_1` gives the beats on in order. -/
theorem beatTaken_run (h : s₀.IsReset) (inputs : List (Input p α)) :
    (trace next s₀ inputs).flatMap beatTaken =
      (trace next s₀ inputs).flatMap wSent ++
        (run next s₀ inputs).buf1.contents :=
  run_conserves (fun s : State p fifo0 => s.buf1.contents) beatTaken wSent
    buf1_next (OutputBuffer.contents_eq_nil_iff.mpr h.buf1) inputs

/-- A pulse is paired with an address, or has merged. -/
theorem starts_run (h : s₀.IsReset)
    (hports : ∀ i ∈ inputs, i.minAddr = minAddr ∧ i.cfgData = cfgData) :
    (trace next s₀ inputs).countP started =
      ((trace next s₀ inputs).flatMap awSent).length +
        pending (run next s₀ inputs) +
        (trace next s₀ inputs).countP merged := by
  have hbooks := (requestBooks_run h hports).starts
  rw [requested_run h inputs, List.length_append] at hbooks
  rw [hbooks, pending]
  omega

theorem beats_run (h : s₀.IsReset) (inputs : List (Input p α)) :
    ((trace next s₀ inputs).flatMap wSent).length ≤
      16 * (trace next s₀ inputs).countP started := by
  have hbooks := (beatBooks_run h inputs).starts
  rw [beatTaken_run h inputs, List.length_append] at hbooks
  omega

/-- Bursts and addresses stay paired exactly in the runs in which no burst
starts while the address of the burst before it waits for `buf_0`. -/
theorem paired_iff (h : s₀.IsReset)
    (hports : ∀ i ∈ inputs, i.minAddr = minAddr ∧ i.cfgData = cfgData) :
    Paired minAddr cfgData s₀ inputs ↔
      ∀ c ∈ trace next s₀ inputs,
        ¬(intValidWire c.state = true ∧ c.state.intAwvalidReg = true) := by
  have hmerged : (∀ c ∈ trace next s₀ inputs,
      ¬(intValidWire c.state = true ∧ c.state.intAwvalidReg = true)) ↔
        (trace next s₀ inputs).countP merged = 0 := by
    rw [List.countP_eq_zero]
    simp only [merged, Bool.and_eq_true]
  rw [hmerged]
  constructor
  · intro hpaired
    have hstarts := starts_run h hports
    have hrequests := hpaired.requests inputs List.prefix_rfl
    omega
  · intro hzero
    have haddresses := (requestBooks_run h hports).addresses
    have hlasts := (beatBooks_run h inputs).lasts
    rw [requested_run h inputs] at haddresses
    rw [beatTaken_run h inputs, List.map_append] at hlasts
    refine ⟨eq_range_of_append haddresses, ?_, fun before _ => beats_run h before,
      ?_⟩
    · have hbursts := eq_range_of_append hlasts
      rwa [List.length_map] at hbursts
    · rintro before ⟨after, rfl⟩
      have hports' : ∀ i ∈ before, i.minAddr = minAddr ∧ i.cfgData = cfgData :=
        fun i hi => hports i (List.mem_append_left _ hi)
      have hstarts := starts_run h hports'
      rw [trace_append, List.countP_append] at hzero
      omega

end Run

/-! ## A slave that takes data first -/

theorem default_lanes : ∃ n, 64 = 8 * 2 ^ n :=
  ⟨3, rfl⟩

/-- The widths of the default parameters. -/
def defaultParams : Params where
  axi_lanes := default_lanes

def resetState : State defaultParams (Fifo.words (BitVec 64) 512) where
  intAwvalidReg := false
  intWvalidReg := false
  intCntrReg := 0
  intAddrReg := 0
  fifo := ([] : List (BitVec 64))
  buf0 := ⟨0, false⟩
  buf1 := ⟨(false, 0), false⟩

theorem isReset_resetState : resetState.IsReset :=
  ⟨rfl, rfl, rfl, rfl, rfl, rfl⟩

/-- A word in each cycle, WREADY high, and AWREADY as given. -/
def fullStream (awready : Bool) (cycles : ℕ) :
    List (Input defaultParams (BitVec 64)) :=
  List.replicate cycles
    { minAddr := 0x1e000000, cfgData := 0xff, mAxiAwready := awready,
      mAxiWready := true, sAxisTdata := 7, sAxisTvalid := true }

/-- With AWREADY high two bursts get their addresses. -/
theorem paired_fullStream :
    Paired 0x1e000000 0xff resetState (fullStream true 40) := by
  refine (paired_iff isReset_resetState ?_).mpr (by decide +kernel)
  intro i hi
  rw [List.eq_of_mem_replicate hi]
  exact ⟨rfl, rfl⟩

/-- The first address waits in `buf_0` and the second behind it when the third
burst starts. -/
theorem not_paired_fullStream :
    resetState.IsReset ∧
      ¬Paired 0x1e000000 0xff resetState (fullStream false 49) := by
  refine ⟨isReset_resetState, fun hpaired => ?_⟩
  have hrequests := hpaired.requests _ List.prefix_rfl
  exact absurd hrequests (by decide)

end RedPitayaNotes.AxisRamWriter
