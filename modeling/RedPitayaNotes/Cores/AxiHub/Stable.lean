import RedPitayaNotes.Cores.AxiHub.Bram

/-!
# Read responses of axi_hub during a stall

The word of a BRAM read is not kept in `buf_4`: it is taken from the output of
the BRAM for as long as RREADY is low.  A write to the same BRAM during that
time loads another word into that output.
-/

namespace RedPitayaNotes.AxiHub

open Clocked BlockRam

section Ports

variable {p : Params}

/-- The R channel as the master sees it: RVALID and the beat. -/
def presented (s : Sys p) : Bool × RBeat :=
  (sAxiRvalid s.hub, ⟨sAxiRid s.hub, sAxiRlast s.hub,
    sAxiRdata s.hub (s.wire Input.idle)⟩)

/-- A beat once presented stays as it is until the master is ready. -/
def ReadsStable (mode : Mode) (s₀ : Sys p) (inputs : List (Input p)) : Prop :=
  ∀ before held after, inputs = before ++ held ++ after →
    sAxiRvalid (run (Sys.next mode) s₀ before).hub = true →
    (∀ i ∈ held, i.sAxiRready = false) →
      presented (run (Sys.next mode) (run (Sys.next mode) s₀ before) held) =
        presented (run (Sys.next mode) s₀ before)

/-- The word that a write to BRAM `j` loads into its output. -/
def writeLoads (mode : Mode) (s : Sys p) (j : Fin hubSize) : BitVec 32 :=
  (s.ram j).loaded mode (intWWire s.hub).wstrb (intWaddrWire s.hub)
    (intWWire s.hub).wdata

/-- In a stalled cycle the BRAM whose word is presented is not written, or
written such that its output stays the same. -/
def Undisturbed (mode : Mode) (c : Cycle (Sys p) (Input p)) : Prop :=
  sAxiRvalid c.state.hub = true → c.input.sAxiRready = false →
    ∀ j : Fin hubSize, c.state.hub.buf4.outData.bsel j = true →
      intWselWire c.state.hub (c.state.wire c.input) (j + 2) = true →
        writeLoads mode c.state j = (c.state.ram j).out

instance (mode : Mode) (c : Cycle (Sys p) (Input p)) :
    Decidable (Undisturbed mode c) :=
  inferInstanceAs (Decidable (_ → _ → ∀ _, _ → _ → _))

end Ports

/-! ## The word in buf_4 -/

/-- A word of `buf_4` announces at most one BRAM, and no data of its own beside
it. -/
def Single (w : RWord) : Prop :=
  ∀ j, w.bsel j = true → w.rdata = 0 ∧ ∀ k, w.bsel k = decide (k = j)

section Step

variable {p : Params} {mode : Mode} {s : Sys p} {i : Input p}

theorem single_rIn (s : State p) (i : Input p) : Single (rIn s i) := by
  intro j hj
  have hsel : intRselWire s i (j + 2) = true ∧ i.sAxisTvalid j = false := by
    simpa [rIn] using hj
  have htarget : intReWire s i = true ∧
      target (intArWire s).araddr = j + 2 := by
    simpa [intRselWire] using hsel.1
  refine (announces_rIn s i htarget.1).bram j htarget.2 ?_
  change foundWord s i = none
  rw [foundWord_of_target s i htarget.2, hsel.2]
  rfl

/-- Out of `buf_4` comes a word that announces at most one BRAM. -/
def BufSingle (s : Sys p) : Prop :=
  sAxiRvalid s.hub = true → Single s.hub.buf4.outData

theorem BufSingle.next (h : BufSingle s) (mode : Mode) (i : Input p) :
    BufSingle (Sys.next mode s i) := by
  intro hvalid
  change Single (if s.hub.buf4.intReadyWire i.sAxiRready then
    rIn s.hub (s.wire i) else s.hub.buf4.outData)
  split
  next => exact single_rIn _ _
  next hbusy =>
    apply h
    have hstall : s.hub.buf4.intReadyWire i.sAxiRready = false :=
      eq_false_of_ne_true hbusy
    exact (OutputBuffer.inReady_eq_false_iff.mp hstall).1

theorem BufSingle.sAxiRdata_eq (h : BufSingle s)
    (hvalid : sAxiRvalid s.hub = true) {j : Fin hubSize}
    (hj : s.hub.buf4.outData.bsel j = true) :
    sAxiRdata s.hub (s.wire i) = (s.ram j).out := by
  obtain ⟨hdata, hsel⟩ := h hvalid j hj
  exact sAxiRdata_of_bsel hdata hsel

theorem sAxiRdata_of_not_bsel
    (h : ∀ j, s.hub.buf4.outData.bsel j = false) :
    sAxiRdata s.hub (s.wire i) = s.hub.buf4.outData.rdata := by
  simp [sAxiRdata, intRdataWire, h]

/-- During a stall the hub reads no BRAM, so that only a write enables one. -/
theorem ram_out_next (hvalid : sAxiRvalid s.hub = true)
    (hstall : i.sAxiRready = false) (j : Fin hubSize) :
    ((Sys.next mode s i).ram j).out =
      if intWselWire s.hub (s.wire i) (j + 2) then writeLoads mode s j
      else (s.ram j).out := by
  have hready : intRreadyWire s.hub (s.wire i) = false :=
    OutputBuffer.inReady_eq_false_iff.mpr ⟨hvalid, hstall⟩
  have hen : bramEn s.hub (s.wire i) j =
      intWselWire s.hub (s.wire i) (j + 2) := by
    rw [bramEn, intRselWire, intReWire, hready, Bool.false_and,
      Bool.false_and, Bool.false_or]
  change ((s.ram j).step mode (bramEn s.hub (s.wire i) j)
    (bramWe s.hub (s.wire i) j) (bramAddr s.hub (s.wire i)) _).out = _
  rw [hen]
  cases hsel : intWselWire s.hub (s.wire i) (j + 2) with
  | false =>
      rw [Ram.step_of_not_en]
      rfl
  | true =>
      have hwe : intWeWire s.hub (s.wire i) = true := by
        rw [intWselWire, Bool.and_eq_true] at hsel
        exact hsel.1
      rw [Ram.step_out_eq_loaded, bramWe, if_pos hsel, bramAddr, if_pos hwe]
      rfl

/-- A presented beat survives a stalled cycle exactly if its BRAM is left
alone. -/
theorem presented_next_iff (h : BufSingle s)
    (hvalid : sAxiRvalid s.hub = true) (hstall : i.sAxiRready = false) :
    presented (Sys.next mode s i) = presented s ↔
      Undisturbed mode ⟨s, i⟩ := by
  have hbuf : (Sys.next mode s i).hub.buf4 = s.hub.buf4 := by
    change s.hub.buf4.step true _ _ i.sAxiRready = s.hub.buf4
    rw [hstall]
    exact OutputBuffer.step_stable hvalid _ _
  have hvalid' : sAxiRvalid (Sys.next mode s i).hub = true := by
    rw [sAxiRvalid, hbuf]
    exact hvalid
  have hword : presented (Sys.next mode s i) = presented s ↔
      sAxiRdata (Sys.next mode s i).hub
          ((Sys.next mode s i).wire Input.idle) =
        sAxiRdata s.hub (s.wire Input.idle) := by
    rw [presented, presented, sAxiRid, sAxiRlast, hvalid', hvalid, hbuf,
      sAxiRid, sAxiRlast]
    simp
  have hkeeps := h.next mode i
  rw [hword]
  by_cases hany : ∃ j, s.hub.buf4.outData.bsel j = true
  · obtain ⟨j, hj⟩ := hany
    rw [h.sAxiRdata_eq hvalid hj, hkeeps.sAxiRdata_eq hvalid' (hbuf ▸ hj),
      ram_out_next hvalid hstall]
    constructor
    · intro hsame _ _ k hk hwrite
      have hkj : k = j := by
        have hone := (h hvalid j hj).2 k
        rw [hk] at hone
        exact of_decide_eq_true hone.symm
      subst hkj
      rwa [if_pos hwrite] at hsame
    · intro hquiet
      split
      next hwrite => exact hquiet hvalid hstall j hj hwrite
      next => rfl
  · have hnone : ∀ j, s.hub.buf4.outData.bsel j = false :=
      fun j => eq_false_of_ne_true fun hj => hany ⟨j, hj⟩
    rw [sAxiRdata_of_not_bsel hnone,
      sAxiRdata_of_not_bsel (hbuf ▸ hnone), hbuf]
    constructor
    · intro _ _ _ j hj
      exact absurd ⟨j, hj⟩ hany
    · intro _
      rfl

end Step

/-! ## Runs -/

section Run

variable {p : Params} {mode : Mode} {s₀ : Sys p}

theorem bufSingle_run (h : s₀.hub.IsReset) (inputs : List (Input p)) :
    BufSingle (run (Sys.next mode) s₀ inputs) := by
  refine run_invariant BufSingle (fun _ i hs => hs.next mode i) ?_ inputs
  intro hvalid
  have hempty : sAxiRvalid s₀.hub = false := h.buf4
  rw [hempty] at hvalid
  cases hvalid

/-- A beat survives a stall in which no cycle disturbs it. -/
theorem presented_of_undisturbed {s : Sys p} (h : BufSingle s)
    (hvalid : sAxiRvalid s.hub = true) {held : List (Input p)}
    (hstall : ∀ i ∈ held, i.sAxiRready = false)
    (hquiet : ∀ c ∈ trace (Sys.next mode) s held, Undisturbed mode c) :
    presented (run (Sys.next mode) s held) = presented s := by
  induction held generalizing s with
  | nil => rfl
  | cons i held ih =>
      rw [List.forall_mem_cons] at hstall
      rw [trace_cons, List.forall_mem_cons] at hquiet
      have hstep := (presented_next_iff h hvalid hstall.1).mpr hquiet.1
      have hvalid' : sAxiRvalid (Sys.next mode s i).hub = true := by
        have hfirst := congrArg Prod.fst hstep
        exact hfirst.trans hvalid
      rw [run_cons, ih (h.next mode i) hvalid' hstall.2 hquiet.2]
      exact hstep

/-- Presented beats are stable exactly in the runs in which no write disturbs
the BRAM of a stalled beat. -/
theorem readsStable_iff (h : s₀.hub.IsReset) (inputs : List (Input p)) :
    ReadsStable mode s₀ inputs ↔
      ∀ c ∈ trace (Sys.next mode) s₀ inputs, Undisturbed mode c := by
  constructor
  · intro hstable c hc hvalid hstall
    obtain ⟨before, after, hinputs, hstate⟩ := exists_before_of_mem hc
    have hsingle : BufSingle c.state := by
      rw [hstate]
      exact bufSingle_run h before
    have hheld := hstable before [c.input] after (by rw [hinputs]; simp)
    rw [← hstate] at hheld
    refine (presented_next_iff hsingle hvalid hstall).mp (hheld hvalid ?_)
      hvalid hstall
    intro i hi
    rw [List.mem_singleton.mp hi]
    exact hstall
  · rintro hquiet before held after rfl hvalid hstall
    refine presented_of_undisturbed (bufSingle_run h before) hvalid hstall ?_
    intro c hc
    apply hquiet
    rw [trace_append, trace_append]
    exact List.mem_append_left _ (List.mem_append_right _ hc)

end Run

/-! ## A write during a stall -/

/-- A one-beat read of BRAM 0 at word address 0, and a one-beat write that is
applied while RREADY is low. -/
def stalledRead (awaddr : BitVec 32) : List (Input ⟨32, 32⟩) :=
  [{ Input.idle with sAxiArvalid := true, sAxiAraddr := 0x02000000 },
   { Input.idle with sAxiAwvalid := true, sAxiAwaddr := awaddr,
                     sAxiWvalid := true, sAxiWlast := true, sAxiWstrb := 0xf },
   Input.idle, Input.idle]

/-- A write to BRAM 1 leaves the beat alone. -/
theorem readsStable_stalledRead :
    ReadsStable .readFirst addressedSys (stalledRead 0x03000004) :=
  (readsStable_iff (State.isReset_cleared _) _).mpr (by decide)

/-- A write to another word of BRAM 0 puts that word in the place of the one
presented. -/
theorem not_readsStable_stalledRead :
    addressedSys.hub.IsReset ∧
      ¬ReadsStable .readFirst addressedSys (stalledRead 0x02000004) := by
  refine ⟨State.isReset_cleared _, fun h => ?_⟩
  have hheld := h ((stalledRead 0x02000004).take 2) [Input.idle]
    [Input.idle] rfl (by decide) (by decide)
  exact absurd (congrArg (fun x => x.2.rdata) hheld) (by decide)

end RedPitayaNotes.AxiHub
