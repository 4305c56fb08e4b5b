import RedPitayaNotes.Cores.AxisRamReader.Model
import RedPitayaNotes.Support.Bits
import RedPitayaNotes.Support.Counters

/-!
# The axis_ram_reader_radar core

`cores/axis_ram_reader_radar.v` is an `axis_ram_reader` that reads memory in
sweeps: from the start of a quarter of the buffer up to a limit.  Quarter and
limit are sampled together at the end of the sweep before.  The limit is kept in
a register that reset leaves alone.
-/

namespace RedPitayaNotes.AxisRamReaderRadar

open Clocked Elastic

/-- The widths of the module; `cfg_data` has bits 15 and 14. -/
structure Params extends AxisRamReader.Params where
  addr_width : 16 ≤ addrWidth

universe u v w

variable {α : Type u} {β : Type v}

structure State (p : Params) (fifo0 : CountedFifo.{u, v, w} α β) where
  intArvalidReg : Bool
  intRvalidReg : Bool
  intAddrReg : BitVec p.addrWidth
  intDataReg : BitVec p.addrWidth
  fifo : fifo0.State
  buf0 : OutputBuffer (BitVec p.axiAddrWidth)

structure Input (p : Params) (α : Type u) where
  aresetn : Bool
  minAddr : BitVec p.axiAddrWidth
  cfgData : BitVec p.addrWidth
  mAxiArready : Bool
  mAxiRlast : Bool
  mAxiRdata : α
  mAxiRvalid : Bool
  mAxisTready : Bool

/-- `{cfg_data[15:14], 14'd0}`, as wide as an address. -/
def quarter {w : ℕ} (cfgData : BitVec w) : BitVec w :=
  (cfgData.extractLsb' 14 2 ++ 0#14).setWidth w

variable {p : Params} {fifo0 : CountedFifo.{u, v, w} α β}

section Wires

variable (s : State p fifo0) (i : Input p α)

def intValidWire : Bool :=
  decide (fifo0.wrDataCount s.fifo < p.fifoWriteDepth - 15) && !s.intRvalidReg

def intArvalidWire : Bool := intValidWire s || s.intArvalidReg

def intArreadyWire : Bool := s.buf0.inReady i.mAxiArready

/-- `min_addr + {int_addr_reg, 4'd0, {(ADDR_SIZE){1'b0}}}` -/
def buf0InData : BitVec p.axiAddrWidth :=
  i.minAddr + (s.intAddrReg ++ 0#4 ++ 0#p.addrSize).setWidth p.axiAddrWidth

/-- The index is taken, and the next one is due. -/
def indexTaken : Bool := intArvalidWire s && intArreadyWire s i

end Wires

/-- The `always` block, the FIFO and the buffer at a clock edge.  Of two
assignments to a register the later one counts. -/
def next (s : State p fifo0) (i : Input p α) : State p fifo0 where
  intArvalidReg :=
    if !i.aresetn then false
    else if indexTaken s i then false
    else if intValidWire s then true
    else s.intArvalidReg
  intRvalidReg :=
    if !i.aresetn then false
    else if i.mAxiRlast then false
    else if intValidWire s then true
    else s.intRvalidReg
  intAddrReg :=
    if !i.aresetn then 0
    else if indexTaken s i then
      if s.intAddrReg < s.intDataReg then s.intAddrReg + 1
      else quarter i.cfgData
    else s.intAddrReg
  intDataReg :=
    -- the reset branch does not assign it
    if i.aresetn && indexTaken s i && !decide (s.intAddrReg < s.intDataReg) then
      i.cfgData
    else s.intDataReg
  fifo := fifo0.step (!i.aresetn) s.fifo i.mAxiRvalid i.mAxiRdata i.mAxisTready
  buf0 := s.buf0.step i.aresetn (buf0InData s i) (intArvalidWire s) i.mAxiArready

/-! ## Sweeps -/

section Sweeps

variable {w : ℕ}

/-- What a cycle does with the indices. -/
inductive Event (w : ℕ) where
  | issue (index : BitVec w)
  | sample (cfgData : BitVec w)
deriving DecidableEq

def Event.sampled : Event w → Option (BitVec w)
  | issue _ => none
  | sample cfgData => some cfgData

def Event.issued : Event w → Option (BitVec w)
  | issue index => some index
  | sample _ => none

/-- The indices from `a` to `b`, each one more than the one before it. -/
def span (a b : BitVec w) : List (BitVec w) :=
  (List.range' a.toNat (b.toNat + 1 - a.toNat)).map (BitVec.ofNat w)

/-- The sweep of a sampled value. -/
def sweep (cfgData : BitVec w) : List (BitVec w) := span (quarter cfgData) cfgData

/-- The events after indices `first`, one whole sweep for each sampled value. -/
def timeline (first cfgs : List (BitVec w)) : List (Event w) :=
  first.map .issue ++
    cfgs.flatMap fun cfgData => .sample cfgData :: (sweep cfgData).map .issue

/-- The law of the sweeps: the single index 0, then sweep after sweep, each one
complete before the next value is sampled. -/
def Law (events : List (Event w)) : Prop :=
  events <+: timeline [0] (events.filterMap Event.sampled)

theorem mem_span {a b x : BitVec w} : x ∈ span a b ↔ a ≤ x ∧ x ≤ b := by
  rw [span, List.mem_map, BitVec.le_def, BitVec.le_def]
  constructor
  · rintro ⟨k, hk, rfl⟩
    rw [List.mem_range'_1] at hk
    have hlt := b.isLt
    rw [BitVec.toNat_ofNat, Nat.mod_eq_of_lt (by omega)]
    omega
  · rintro ⟨hax, hxb⟩
    refine ⟨x.toNat, List.mem_range'_1.mpr (by omega), ?_⟩
    rw [BitVec.ofNat_toNat, BitVec.setWidth_eq]

theorem span_eq_cons {a b : BitVec w} (h : a < b) :
    span a b = a :: span (a + 1) b := by
  have hsucc := Counters.toNat_add_one_of_lt (BitVec.lt_def.mp h)
  rw [BitVec.lt_def] at h
  have hlen : b.toNat + 1 - a.toNat = (b.toNat + 1 - (a.toNat + 1)) + 1 := by
    omega
  rw [span, hlen, List.range'_succ, List.map_cons, span, hsucc,
    BitVec.ofNat_toNat, BitVec.setWidth_eq]

theorem span_self (a : BitVec w) : span a a = [a] := by
  simp [span]

theorem exists_span_eq_cons {a b : BitVec w} (h : a ≤ b) :
    ∃ indices, span a b = a :: indices := by
  by_cases hlt : a < b
  · exact ⟨_, span_eq_cons hlt⟩
  · obtain rfl := BitVec.le_antisymm h (BitVec.not_lt.mp hlt)
    exact ⟨[], span_self a⟩

/-- After the first index a sampled value comes before a second one. -/
theorem not_prefix_timeline (a b : BitVec w) (events : List (Event w))
    (cfgs : List (BitVec w)) :
    ¬(.issue a :: .issue b :: events <+: timeline [0] cfgs) := by
  intro h
  rw [timeline, List.map_singleton, List.singleton_append,
    List.cons_prefix_cons] at h
  cases cfgs with
  | nil => exact List.cons_ne_nil _ _ (List.prefix_nil.mp h.2)
  | cons cfgData cfgs =>
      rw [List.flatMap_cons, List.cons_append, List.cons_prefix_cons] at h
      cases h.2.1

/-- Under the law an index other than the first is one of a sampled sweep. -/
theorem Law.bounds {events : List (Event w)} (h : Law events) {index : BitVec w}
    (hindex : .issue index ∈ events) :
    index = 0 ∨ ∃ cfgData, .sample cfgData ∈ events ∧
      quarter cfgData ≤ index ∧ index ≤ cfgData := by
  have hmem := h.subset hindex
  rw [timeline, List.map_singleton, List.singleton_append, List.mem_cons,
    List.mem_flatMap] at hmem
  rcases hmem with hzero | ⟨cfgData, hcfg, hsweep⟩
  · exact Or.inl (Event.issue.inj hzero)
  · obtain ⟨e, he, hsampled⟩ := List.mem_filterMap.mp hcfg
    cases e with
    | issue _ => cases hsampled
    | sample _ =>
        obtain rfl := Option.some.inj hsampled
        rcases List.mem_cons.mp hsweep with hbad | hsweep
        · cases hbad
        · obtain ⟨x, hx, hissue⟩ := List.mem_map.mp hsweep
          obtain rfl := Event.issue.inj hissue
          exact Or.inr ⟨_, he, mem_span.mp hx⟩

theorem quarter_le (cfgData : BitVec w) : quarter cfgData ≤ cfgData := by
  rw [BitVec.le_def, quarter, BitVec.toNat_setWidth]
  refine (Nat.mod_le _ _).trans ?_
  rw [Bits.toNat_append_eq_add, BitVec.extractLsb'_toNat,
    Nat.shiftRight_eq_div_pow]
  simp only [BitVec.toNat_ofNat, Nat.zero_mod]
  omega

end Sweeps

/-! ## Events of a cycle -/

def issued (c : Cycle (State p fifo0) (Input p α)) : Bool :=
  c.input.aresetn && indexTaken c.state c.input

def events (c : Cycle (State p fifo0) (Input p α)) : List (Event p.addrWidth) :=
  if issued c then
    if c.state.intAddrReg < c.state.intDataReg then [.issue c.state.intAddrReg]
    else [.issue c.state.intAddrReg, .sample c.input.cfgData]
  else []

/-- The indices of the sweep that are still to be issued. -/
def pending (s : State p fifo0) : List (Event p.addrWidth) :=
  (span s.intAddrReg s.intDataReg).map .issue

/-- Since a reset that found the limit `first` in the register, the events and
the rest of the sweep are whole sweeps. -/
structure Since (first : BitVec p.addrWidth)
    (past : List (Event p.addrWidth)) (s : State p fifo0) : Prop where
  addr_le : s.intAddrReg ≤ s.intDataReg
  events_eq : past ++ pending s =
    timeline (span 0 first) (past.filterMap Event.sampled)

theorem timeline_snoc {w : ℕ} (first cfgs : List (BitVec w)) (c : BitVec w) :
    timeline first (cfgs ++ [c]) =
      timeline first cfgs ++ .sample c :: (sweep c).map .issue := by
  rw [timeline, List.flatMap_append, ← List.append_assoc]
  simp [timeline]

theorem since_reset (s : State p fifo0) {r : Input p α} (hr : r.aresetn = false) :
    Since s.intDataReg [] (next s r) := by
  have haddr : (next s r).intAddrReg = 0 := by simp [next, hr]
  have hdata : (next s r).intDataReg = s.intDataReg := by simp [next, hr]
  refine ⟨?_, ?_⟩
  · rw [haddr, BitVec.le_def]
    exact Nat.zero_le _
  · rw [pending, haddr, hdata]
    simp [timeline]

/-! ### What one cycle does -/

theorem next_of_not_taken {s : State p fifo0} {i : Input p α}
    (hi : i.aresetn = true) (htaken : indexTaken s i = false) :
    (next s i).intAddrReg = s.intAddrReg ∧
      (next s i).intDataReg = s.intDataReg ∧ events ⟨s, i⟩ = [] := by
  simp [next, events, issued, hi, htaken]

theorem next_of_lt {s : State p fifo0} {i : Input p α}
    (hi : i.aresetn = true) (htaken : indexTaken s i = true)
    (hlt : s.intAddrReg < s.intDataReg) :
    (next s i).intAddrReg = s.intAddrReg + 1 ∧
      (next s i).intDataReg = s.intDataReg ∧
      events ⟨s, i⟩ = [.issue s.intAddrReg] := by
  simp [next, events, issued, hi, htaken, hlt]

/-- At the limit the next sweep is set up. -/
theorem next_of_not_lt {s : State p fifo0} {i : Input p α}
    (hi : i.aresetn = true) (htaken : indexTaken s i = true)
    (hlt : ¬s.intAddrReg < s.intDataReg) :
    (next s i).intAddrReg = quarter i.cfgData ∧
      (next s i).intDataReg = i.cfgData ∧
      events ⟨s, i⟩ = [.issue s.intAddrReg, .sample i.cfgData] := by
  simp [next, events, issued, hi, htaken, hlt]

theorem Since.next {first : BitVec p.addrWidth}
    {past : List (Event p.addrWidth)} {s : State p fifo0}
    (h : Since first past s) (i : Input p α) (hi : i.aresetn = true) :
    Since first (past ++ events ⟨s, i⟩) (next s i) := by
  obtain ⟨hle, heq⟩ := h
  cases htaken : indexTaken s i with
  | false =>
      obtain ⟨haddr, hdata, hnone⟩ := next_of_not_taken hi htaken
      rw [hnone, List.append_nil]
      refine ⟨?_, ?_⟩
      · rw [haddr, hdata]
        exact hle
      · rw [pending, haddr, hdata]
        exact heq
  | true =>
      by_cases hlt : s.intAddrReg < s.intDataReg
      · obtain ⟨haddr, hdata, hone⟩ := next_of_lt hi htaken hlt
        refine ⟨?_, ?_⟩
        · rw [haddr, hdata, BitVec.le_def, Counters.toNat_add_one_of_lt hlt]
          exact hlt
        · rw [pending, span_eq_cons hlt] at heq
          have hcfgs : [Event.issue s.intAddrReg].filterMap Event.sampled = [] :=
            rfl
          rw [hone, pending, haddr, hdata, List.filterMap_append, hcfgs,
            List.append_nil, List.append_assoc]
          exact heq
      · have hlast : s.intAddrReg = s.intDataReg :=
          BitVec.le_antisymm hle (BitVec.not_lt.mp hlt)
        obtain ⟨haddr, hdata, htwo⟩ := next_of_not_lt hi htaken hlt
        refine ⟨?_, ?_⟩
        · rw [haddr, hdata]
          exact quarter_le _
        · rw [pending, ← hlast, span_self] at heq
          have hcfgs : [Event.issue s.intAddrReg, .sample i.cfgData].filterMap
              Event.sampled = [i.cfgData] := rfl
          rw [htwo, pending, haddr, hdata, List.filterMap_append, hcfgs,
            timeline_snoc, ← heq, sweep]
          simp

/-! ## The law -/

/-- The events of a run out of reset that began with the limit `first` in the
register. -/
theorem since_run (s : State p fifo0) {r : Input p α} (hr : r.aresetn = false)
    {after : List (Input p α)} (hafter : ∀ i ∈ after, i.aresetn = true) :
    Since s.intDataReg ((trace next (next s r) after).flatMap events)
      (run next (next s r) after) := by
  refine trace_induction_of
    (fun past t => Since s.intDataReg (past.flatMap events) t)
    (fun c => c.input.aresetn = true) (since_reset s hr) ?_ after
    (forall_trace_input next (next s r) hafter)
  intro past t i h hi
  rw [List.flatMap_append, List.flatMap_singleton]
  exact h.next i hi

/-- From a limit other than 0 a second index follows the first. -/
theorem exists_timeline_eq {w : ℕ} {first : BitVec w} (h : first ≠ 0)
    (cfgs : List (BitVec w)) :
    ∃ events, timeline (span 0 first) cfgs =
      .issue 0 :: .issue (0 + 1) :: events := by
  have hpos : 0 < first := by
    rw [BitVec.lt_def]
    have hne : first.toNat ≠ 0 := fun h₀ => h (BitVec.eq_of_toNat_eq h₀)
    exact Nat.pos_of_ne_zero hne
  have hone : 0 + 1 ≤ first := by
    rw [BitVec.le_def, Counters.toNat_add_one_of_lt hpos]
    exact hpos
  obtain ⟨indices, hindices⟩ := exists_span_eq_cons hone
  rw [timeline, span_eq_cons hpos, hindices]
  exact ⟨_, rfl⟩

/-- The start of such events keeps the law until the second index. -/
theorem law_iff_of_append_eq {w : ℕ} {b : BitVec w}
    {events rest more : List (Event w)}
    (h : events ++ rest = .issue 0 :: .issue b :: more) :
    Law events ↔ (events.filterMap Event.issued).length ≤ 1 := by
  cases events with
  | nil => exact iff_of_true List.nil_prefix (Nat.zero_le 1)
  | cons e events =>
      obtain ⟨rfl, htail⟩ := List.cons.inj h
      cases events with
      | nil => exact iff_of_true List.prefix_rfl (le_refl 1)
      | cons e events =>
          obtain ⟨rfl, -⟩ := List.cons.inj htail
          refine iff_of_false (not_prefix_timeline _ _ _ _) ?_
          simp only [List.filterMap_cons, Event.issued, List.length_cons]
          omega

/-- Whole sweeps from a wrong limit look right only until the second index. -/
theorem law_iff_of_timeline {w : ℕ} {first : BitVec w}
    {events rest : List (Event w)}
    (h : events ++ rest = timeline (span 0 first) (events.filterMap Event.sampled)) :
    Law events ↔ first = 0 ∨ (events.filterMap Event.issued).length ≤ 1 := by
  by_cases hzero : first = 0
  · rw [hzero, span_self] at h
    exact iff_of_true ⟨rest, h⟩ (Or.inl hzero)
  · obtain ⟨more, hmore⟩ := exists_timeline_eq hzero
      (events.filterMap Event.sampled)
    rw [law_iff_of_append_eq (h.trans hmore)]
    exact (or_iff_right hzero).symm

/-- After a reset the sweeps keep their law in exactly the runs whose reset found
a zero limit, or that have issued no more than one index. -/
theorem law_iff (s : State p fifo0) (before after : List (Input p α))
    {r : Input p α} (hr : r.aresetn = false)
    (hafter : ∀ i ∈ after, i.aresetn = true) :
    Law ((trace next (run next s (before ++ [r])) after).flatMap events) ↔
      (run next s before).intDataReg = 0 ∨
        (((trace next (run next s (before ++ [r])) after).flatMap events).filterMap
          Event.issued).length ≤ 1 := by
  rw [run_append]
  exact law_iff_of_timeline (since_run (run next s before) hr hafter).events_eq

/-! ## A reset in the middle of a sweep -/

theorem small_lanes : ∃ n, 64 = 8 * 2 ^ n :=
  ⟨3, rfl⟩

theorem small_sizes : 16 ≤ 16 :=
  Nat.le_refl 16

/-- The smallest FIFO. -/
def smallParams : Params where
  fifoWriteDepth := 16
  axi_lanes := small_lanes
  fifo_depth := small_sizes
  addr_width := small_sizes

/-- A core that is about to issue index 3 of the sweep up to `limit`. -/
def sweeping (limit : BitVec 16) :
    State smallParams (CountedFifo.words (BitVec 64) 16) where
  intArvalidReg := false
  intRvalidReg := false
  intAddrReg := 3
  intDataReg := limit
  fifo := ([] : List (BitVec 64))
  buf0 := ⟨0, false⟩

/-- ARESETN, RLAST and RVALID as given, with ARREADY high and a consumer that is
always ready. -/
def rInput (aresetn rlast rvalid : Bool) : Input smallParams (BitVec 64) where
  aresetn := aresetn
  minAddr := 0x1e000000
  cfgData := 0x4001
  mAxiArready := true
  mAxiRlast := rlast
  mAxiRdata := 7
  mAxiRvalid := rvalid
  mAxisTready := true

/-- The burst of an index: the request, its transfer and 16 beats. -/
def burst : List (Input smallParams (BitVec 64)) :=
  [rInput true false false, rInput true false false] ++
    List.replicate 15 (rInput true false true) ++
    [rInput true true true, rInput true false false]

theorem law_after_zero :
    Law ((trace next (run next (sweeping 0) ([] ++ [rInput false false false]))
      (burst ++ burst)).flatMap events) :=
  (law_iff (sweeping 0) [] (burst ++ burst) rfl (by decide)).mpr (Or.inl rfl)

/-- The reset keeps the limit 0x40ff, so index 1 follows index 0 before any value
is sampled. -/
theorem not_law_after_limit :
    ((trace next (run next (sweeping 0x40ff) ([] ++ [rInput false false false]))
        (burst ++ burst)).flatMap events) = [.issue 0, .issue 1] ∧
      ¬Law ((trace next
        (run next (sweeping 0x40ff) ([] ++ [rInput false false false]))
        (burst ++ burst)).flatMap events) := by
  have hevents : ((trace next
      (run next (sweeping 0x40ff) ([] ++ [rInput false false false]))
      (burst ++ burst)).flatMap events) = [.issue 0, .issue 1] := by
    decide +kernel
  refine ⟨hevents, ?_⟩
  rw [hevents]
  exact not_prefix_timeline _ _ _ _

end RedPitayaNotes.AxisRamReaderRadar
