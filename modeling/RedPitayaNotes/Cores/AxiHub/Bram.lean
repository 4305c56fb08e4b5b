import Mathlib.Data.Fintype.Basic
import Mathlib.Tactic.FinCases
import RedPitayaNotes.Cores.AxiHub.Read
import RedPitayaNotes.Cores.AxiHub.Write
import RedPitayaNotes.Support.BlockRam

/-!
# The hub and its block memories

The six BRAM ports are closed with synchronous memories.  A port has one address
input, and `int_we_wire` decides which of the two channels drives it, for all
six ports at once.  A read therefore returns the right word in every run in
which no write takes the address away from it.
-/

namespace RedPitayaNotes.AxiHub

open Clocked Elastic BlockRam

structure Sys (p : Params) where
  hub : State p
  ram : Fin hubSize → Ram 22 4

section Wiring

variable {p : Params}

/-- The inputs of the hub with the memories on its BRAM ports. -/
def Sys.wire (s : Sys p) (i : Input p) : Input p :=
  { i with bramRdata := fun j => (s.ram j).out }

def Sys.next (mode : Mode) (s : Sys p) (i : Input p) : Sys p where
  hub := AxiHub.next s.hub (s.wire i)
  ram j := (s.ram j).step mode (bramEn s.hub (s.wire i) j)
    (bramWe s.hub (s.wire i) j) (bramAddr s.hub (s.wire i)) (bramWdata s.hub)

end Wiring

section Cycle

variable {p : Params}

def hubCycle (c : Cycle (Sys p) (Input p)) : Cycle (State p) (Input p) :=
  ⟨c.state.hub, c.state.wire c.input⟩

/-- A beat issued with the words the memories hold at its address. -/
structure StoredBeat where
  beat : ReadBeat
  word : Fin hubSize → BitVec 32

/-- The word address of a beat, `araddr[23:2]` plus its number. -/
def ReadBeat.addr (b : ReadBeat) : BitVec 22 :=
  wordAddr b.ar.araddr + BitVec.ofNat 22 b.k

def issuedStored (mode : Mode) (c : Cycle (Sys p) (Input p)) :
    List StoredBeat :=
  (issued (hubCycle c)).map fun b =>
    ⟨b, fun j => Ram.held mode (c.state.ram j)
      ((Sys.next mode c.state c.input).ram j) b.addr⟩

/-- A returned beat carries the word its memory held. -/
def StoredBeat.Returned (x : StoredBeat) (r : RBeat) : Prop :=
  ∀ j : Fin hubSize, x.beat.target = j + 2 → x.beat.found = none →
    r.rdata = x.word j

/-- Every R beat for a BRAM returns the word the BRAM holds at its address. -/
def BramReadsExact (mode : Mode) (s₀ : Sys p) (inputs : List (Input p)) :
    Prop :=
  let cycles := trace (Sys.next mode) s₀ inputs
  List.Forall₂ StoredBeat.Returned
    ((cycles.flatMap (issuedStored mode)).take
      (cycles.flatMap fun c => rSent (hubCycle c)).length)
    (cycles.flatMap fun c => rSent (hubCycle c))

/-- No write interferes with a read in this cycle: a BRAM read issued now does
not share it with a write to another address, and the BRAM whose word waits for
RREADY is not written. -/
def NoClash (c : Cycle (Sys p) (Input p)) : Prop :=
  (∀ j : Fin hubSize,
    intRselWire c.state.hub (c.state.wire c.input) (j + 2) = true →
    c.input.sAxisTvalid j = false →
    intWeWire c.state.hub (c.state.wire c.input) = true →
      intWaddrWire c.state.hub = intRaddrWire c.state.hub) ∧
  ∀ j : Fin hubSize,
    sAxiRvalid c.state.hub = true → c.input.sAxiRready = false →
    c.state.hub.buf4.outData.bsel j = true →
      intWselWire c.state.hub (c.state.wire c.input) (j + 2) = false

instance (c : Cycle (Sys p) (Input p)) : Decidable (NoClash c) :=
  inferInstanceAs (Decidable (_ ∧ _))

end Cycle

/-! ## One cycle without interference -/

section Step

variable {p : Params} {mode : Mode} {s : Sys p} {i : Input p}

theorem bramAddr_of_noClash (hclash : NoClash ⟨s, i⟩) {j : Fin hubSize}
    (hsel : intRselWire s.hub (s.wire i) (j + 2) = true)
    (hidle : i.sAxisTvalid j = false) :
    bramAddr s.hub (s.wire i) = intRaddrWire s.hub := by
  rw [bramAddr]
  split
  next hwe => exact hclash.1 j hsel hidle hwe
  next => rfl

/-- The word in `buf_4` answers `x`, and the memory it announces presents the
word `x` asks for. -/
def Waits (s : Sys p) (x : StoredBeat) (w : RWord) : Prop :=
  ∀ j : Fin hubSize, x.beat.target = j + 2 → x.beat.found = none →
    w.rdata = 0 ∧ (∀ k, w.bsel k = decide (k = j)) ∧ (s.ram j).out = x.word j

theorem waits_issued (hclash : NoClash ⟨s, i⟩) :
    List.Forall₂ (Waits (Sys.next mode s i)) (issuedStored mode ⟨s, i⟩)
      (if intReWire s.hub (s.wire i) then [rIn s.hub (s.wire i)] else []) := by
  cases hre : intReWire s.hub (s.wire i) with
  | false => simp [issuedStored, issued, hubCycle, hre]
  | true =>
      simp only [issuedStored, issued, hubCycle, hre, if_true, List.map_cons,
        List.map_nil]
      refine .cons ?_ .nil
      intro j hj hnone
      have hannounced :=
        (announces_rIn s.hub (s.wire i) hre).bram j hj hnone
      refine ⟨hannounced.1, hannounced.2, ?_⟩
      have hsel : intRselWire s.hub (s.wire i) (j + 2) = true :=
        (intRselWire_eq_true_iff s.hub (s.wire i) hre hj j).mpr rfl
      have hidle : i.sAxisTvalid j = false := by
        by_contra hvalid
        have htrue : i.sAxisTvalid j = true := eq_true_of_ne_false hvalid
        change foundWord s.hub (s.wire i) = none at hnone
        rw [foundWord_of_target s.hub (s.wire i) hj] at hnone
        simp [Sys.wire, htrue] at hnone
      have hen : bramEn s.hub (s.wire i) j = true := by
        rw [bramEn, hsel, Bool.true_or]
      have haddr : bramAddr s.hub (s.wire i) =
          wordAddr (intArWire s.hub).araddr +
            BitVec.ofNat 22 s.hub.intArcntrReg.toNat := by
        rw [bramAddr_of_noClash hclash hsel hidle, intRaddrWire,
          BitVec.ofNat_toNat]
      change ((s.ram j).step mode (bramEn s.hub (s.wire i) j) _ _ _).out =
        Ram.held mode (s.ram j) ((s.ram j).step mode _ _ _ _) _
      rw [hen, Ram.step_out_of_en, haddr]
      rfl

/-- A BRAM whose word waits is not enabled, so the word stays. -/
theorem Waits.next_of_stall {x : StoredBeat} {w : RWord} (h : Waits s x w)
    (hclash : NoClash ⟨s, i⟩) (hvalid : sAxiRvalid s.hub = true)
    (hstall : i.sAxiRready = false) (hw : w = s.hub.buf4.outData) :
    Waits (Sys.next mode s i) x w := by
  intro j hj hnone
  obtain ⟨hdata, hsel, hout⟩ := h j hj hnone
  refine ⟨hdata, hsel, ?_⟩
  have hbsel : s.hub.buf4.outData.bsel j = true := by
    rw [← hw, hsel j, decide_eq_true rfl]
  have hready : intRreadyWire s.hub (s.wire i) = false :=
    OutputBuffer.inReady_eq_false_iff.mpr ⟨hvalid, hstall⟩
  have hen : bramEn s.hub (s.wire i) j = false := by
    rw [bramEn, intRselWire, intReWire, hready, Bool.false_and,
      Bool.false_and, Bool.false_or]
    exact hclash.2 j hvalid hstall hbsel
  change ((s.ram j).step mode (bramEn s.hub (s.wire i) j) _ _ _).out = _
  rw [hen, Ram.step_of_not_en, hout]

/-- A word that announces one BRAM is read at the output of that BRAM. -/
theorem sAxiRdata_of_bsel {j : Fin hubSize}
    (hdata : s.hub.buf4.outData.rdata = 0)
    (hsel : ∀ k, s.hub.buf4.outData.bsel k = decide (k = j)) :
    sAxiRdata s.hub (s.wire i) = (s.ram j).out := by
  have hmux : ∀ k, intRdataWire s.hub (s.wire i) k =
      if k = j then (s.ram j).out else 0 := by
    intro k
    rw [intRdataWire, hsel k]
    by_cases hk : k = j
    · rw [hk, decide_eq_true rfl, if_pos rfl, if_pos rfl]
      rfl
    · rw [decide_eq_false hk, if_neg Bool.false_ne_true, if_neg hk]
  rw [sAxiRdata, hdata]
  simp only [hmux]
  fin_cases j <;> simp [hubSize]

theorem Waits.returned {x : StoredBeat} {w : RWord} (h : Waits s x w)
    (hw : w = s.hub.buf4.outData) :
    x.Returned ⟨sAxiRid s.hub, sAxiRlast s.hub,
      sAxiRdata s.hub (s.wire i)⟩ := by
  intro j hj hnone
  obtain ⟨hdata, hsel, hout⟩ := h j hj hnone
  rw [hw] at hdata hsel
  exact (sAxiRdata_of_bsel hdata hsel).trans hout

/-- Whether or not R is ready, an empty `buf_4` takes the beats issued. -/
theorem waits_next_of_empty (mode : Mode) (hclash : NoClash ⟨s, i⟩)
    (hvalid : sAxiRvalid s.hub = false) :
    rSent (hubCycle ⟨s, i⟩) = [] ∧
      List.Forall₂ (Waits (Sys.next mode s i)) (issuedStored mode ⟨s, i⟩)
        (Sys.next mode s i).hub.buf4.contents := by
  have hbook := buf4_next s.hub (s.wire i)
  rw [OutputBuffer.contents_eq_nil_iff.mpr hvalid, List.nil_append] at hbook
  simp only [wordSent, hvalid, transfer_false_left, List.nil_append] at hbook
  constructor
  · simp [rSent, hubCycle, hvalid]
  · exact hbook ▸ waits_issued hclash

/-- A word that R takes makes room for the beats issued. -/
theorem waits_next_of_sent (mode : Mode) (hclash : NoClash ⟨s, i⟩)
    (hvalid : sAxiRvalid s.hub = true) (hready : i.sAxiRready = true) :
    rSent (hubCycle ⟨s, i⟩) =
        [⟨sAxiRid s.hub, sAxiRlast s.hub, sAxiRdata s.hub (s.wire i)⟩] ∧
      List.Forall₂ (Waits (Sys.next mode s i)) (issuedStored mode ⟨s, i⟩)
        (Sys.next mode s i).hub.buf4.contents := by
  have hbook := buf4_next s.hub (s.wire i)
  have hsent : wordSent ⟨s.hub, s.wire i⟩ = [s.hub.buf4.outData] := by
    simp [wordSent, hvalid, Sys.wire, hready]
  rw [OutputBuffer.contents_eq_singleton hvalid, hsent,
    List.append_cancel_left_eq] at hbook
  constructor
  · simp [rSent, hubCycle, hvalid, Sys.wire, hready]
  · exact hbook ▸ waits_issued hclash

/-- A word that R does not take stays, and no beat is issued. -/
theorem waits_next_of_stall (mode : Mode) (hvalid : sAxiRvalid s.hub = true)
    (hstall : i.sAxiRready = false) :
    rSent (hubCycle ⟨s, i⟩) = [] ∧ issuedStored mode ⟨s, i⟩ = [] ∧
      (Sys.next mode s i).hub.buf4.contents = s.hub.buf4.contents := by
  have hbook := buf4_next s.hub (s.wire i)
  have hblocked : intReWire s.hub (s.wire i) = false := by
    have hready : intRreadyWire s.hub (s.wire i) = false :=
      OutputBuffer.inReady_eq_false_iff.mpr ⟨hvalid, hstall⟩
    rw [intReWire, hready, Bool.false_and]
  have hsent : wordSent ⟨s.hub, s.wire i⟩ = [] := by
    simp [wordSent, Sys.wire, hstall]
  rw [hsent, hblocked, if_neg Bool.false_ne_true, List.append_nil,
    List.nil_append] at hbook
  refine ⟨?_, ?_, hbook.symm⟩
  · simp [rSent, hubCycle, Sys.wire, hstall]
  · simp [issuedStored, issued, hubCycle, hblocked]

/-- The beats waiting and those issued are those returned and those that then
wait. -/
theorem waits_next (mode : Mode) (hclash : NoClash ⟨s, i⟩)
    {pend : List StoredBeat}
    (hpend : List.Forall₂ (Waits s) pend s.hub.buf4.contents) :
    ∃ sent rest, pend ++ issuedStored mode ⟨s, i⟩ = sent ++ rest ∧
      List.Forall₂ StoredBeat.Returned sent (rSent (hubCycle ⟨s, i⟩)) ∧
      List.Forall₂ (Waits (Sys.next mode s i)) rest
        (Sys.next mode s i).hub.buf4.contents := by
  cases hvalid : sAxiRvalid s.hub with
  | false =>
      obtain ⟨hnone, hnew⟩ := waits_next_of_empty mode hclash hvalid
      rw [OutputBuffer.contents_eq_nil_iff.mpr hvalid,
        List.forall₂_nil_right_iff] at hpend
      exact ⟨[], _, by rw [hpend], hnone ▸ .nil, hnew⟩
  | true =>
      rw [OutputBuffer.contents_eq_singleton hvalid,
        List.forall₂_cons_right_iff] at hpend
      obtain ⟨x, _, hx, hnil, rfl⟩ := hpend
      obtain rfl := List.forall₂_nil_right_iff.mp hnil
      cases hready : i.sAxiRready with
      | true =>
          obtain ⟨hsent, hnew⟩ := waits_next_of_sent mode hclash hvalid hready
          exact ⟨[x], _, rfl, hsent ▸ .cons (hx.returned rfl) .nil, hnew⟩
      | false =>
          obtain ⟨hsent, hissued, hstay⟩ :=
            waits_next_of_stall mode hvalid hready
          refine ⟨[], [x], by rw [hissued]; rfl, hsent ▸ .nil, ?_⟩
          rw [hstay, OutputBuffer.contents_eq_singleton hvalid]
          exact .cons (hx.next_of_stall hclash hvalid hready rfl) .nil

end Step

/-! ## Runs without interference -/

section Run

variable {p : Params} {mode : Mode} {s₀ : Sys p}

/-- The beats issued so far: those returned, each with its word, and the one
whose word waits. -/
def ReadBooks (mode : Mode) (past : List (Cycle (Sys p) (Input p)))
    (s : Sys p) : Prop :=
  ∃ done pend, past.flatMap (issuedStored mode) = done ++ pend ∧
    List.Forall₂ StoredBeat.Returned done
      (past.flatMap fun c => rSent (hubCycle c)) ∧
    List.Forall₂ (Waits s) pend s.hub.buf4.contents

theorem ReadBooks.snoc {past : List (Cycle (Sys p) (Input p))} {s : Sys p}
    {i : Input p} (h : ReadBooks mode past s) (hclash : NoClash ⟨s, i⟩) :
    ReadBooks mode (past ++ [⟨s, i⟩]) (Sys.next mode s i) := by
  obtain ⟨done, pend, hissued, hdone, hpend⟩ := h
  obtain ⟨sent, rest, hsplit, hsent, hrest⟩ := waits_next mode hclash hpend
  refine ⟨done ++ sent, rest, ?_, ?_, hrest⟩
  · rw [List.flatMap_append, List.flatMap_singleton, hissued,
      List.append_assoc, hsplit, List.append_assoc]
  · rw [List.flatMap_append, List.flatMap_singleton]
    exact List.rel_append hdone hsent

/-- In every run in which no write interferes with a read, each R beat for a
BRAM returns the word the BRAM holds at the address of the beat. -/
theorem bram_reads_exact (h : s₀.hub.IsReset) (inputs : List (Input p))
    (hclash : ∀ c ∈ trace (Sys.next mode) s₀ inputs, NoClash c) :
    BramReadsExact mode s₀ inputs := by
  have hbooks : ReadBooks mode (trace (Sys.next mode) s₀ inputs)
      (run (Sys.next mode) s₀ inputs) :=
    trace_induction_of (ReadBooks mode) NoClash
      ⟨[], [], rfl, .nil, by
        rw [OutputBuffer.contents_eq_nil_iff.mpr h.buf4]
        exact .nil⟩
      (fun _ _ _ hpast hok => hpast.snoc hok) inputs hclash
  obtain ⟨done, pend, hissued, hdone, -⟩ := hbooks
  rw [BramReadsExact, hissued, ← hdone.length_eq, List.take_left]
  exact hdone

end Run

/-! ## A write that takes the address away -/

/-- Memories that hold at each address the address itself. -/
def addressedSys : Sys ⟨32, 32⟩ where
  hub := State.cleared _
  ram _ := ⟨fun a => a.setWidth 32, 0⟩

/-- Two one-beat reads of BRAM 0 at word address 1, the first one next to a write
of 0x99 to the same word.  While its answer waits, BRAM 1 is written; the second
read is next to a write of configuration word 1. -/
def besideWrites : List (Input ⟨32, 32⟩) :=
  let i : Input ⟨32, 32⟩ := { Input.idle with sAxiBready := true }
  let write (addr data : BitVec 32) : Input ⟨32, 32⟩ :=
    { i with sAxiAwvalid := true, sAxiAwaddr := addr, sAxiWvalid := true,
             sAxiWlast := true, sAxiWstrb := 0xf, sAxiWdata := data }
  [{ write 0x02000004 0x99 with sAxiArvalid := true, sAxiAraddr := 0x02000004 },
   write 0x03000014 0x55, i,
   { write 0x00000004 0x77 with
      sAxiArvalid := true, sAxiAraddr := 0x02000004, sAxiRready := true },
   { i with sAxiRready := true }, { i with sAxiRready := true }]

/-- The first read returns the word before the write, the second the word
written.  The first and the last write are applied in the cycles that read, the
one between them while the first answer waits. -/
theorem bram_reads_exact_besideWrites :
    let cycles := trace (Sys.next .readFirst) addressedSys besideWrites
    BramReadsExact .readFirst addressedSys besideWrites ∧
      cycles.flatMap (fun c => rSent (hubCycle c)) =
        [⟨0, true, 1⟩, ⟨0, true, 0x99⟩] ∧
      (cycles.map fun c => (intReWire c.state.hub (c.state.wire c.input),
          sAxiRvalid c.state.hub,
          (applied (hubCycle c)).map fun b => (b.target, b.addr))) =
        [(false, false, []), (true, false, [(2, 1)]), (false, true, [(3, 5)]),
          (false, true, []), (true, false, [(0, 1)]), (false, true, [])] :=
  ⟨bram_reads_exact (State.isReset_cleared _) besideWrites (by decide),
    by decide +kernel, by decide⟩

/-- The same read next to a one-beat write of configuration word 1. -/
def crossedRead : List (Input ⟨32, 32⟩) :=
  let i : Input ⟨32, 32⟩ :=
    { Input.idle with sAxiBready := true, sAxiRready := true }
  [{ i with sAxiArvalid := true, sAxiAraddr := 0x02000000,
            sAxiAwvalid := true, sAxiAwaddr := 0x00000004,
            sAxiWvalid := true, sAxiWlast := true, sAxiWstrb := 0xf }, i, i]

/-- The write is not even to the BRAM that is read, yet the read returns the
word at the address of the write. -/
theorem bram_reads_not_exact :
    addressedSys.hub.IsReset ∧
      ¬BramReadsExact .readFirst addressedSys crossedRead := by
  refine ⟨State.isReset_cleared _, fun h => ?_⟩
  have hissued : ((trace (Sys.next .readFirst) addressedSys
      crossedRead).flatMap (issuedStored .readFirst)).map
        (fun x => (x.beat, x.word 0)) = [(⟨⟨0, 0, 0x02000000⟩, 0, none⟩, 0)] := by
    decide
  have hreturned : (trace (Sys.next .readFirst) addressedSys
      crossedRead).flatMap (fun c => rSent (hubCycle c)) = [⟨0, true, 1⟩] := by
    decide
  obtain ⟨x, hx, hxword⟩ := List.map_eq_singleton_iff.mp hissued
  rw [BramReadsExact, hreturned, hx] at h
  obtain ⟨hbeat, hword⟩ := Prod.mk.inj hxword
  obtain ⟨hxr, -⟩ := List.forall₂_cons.mp h
  have hone : (1 : BitVec 32) = x.word 0 :=
    hxr 0 (by rw [hbeat]; decide) (by rw [hbeat])
  rw [hword] at hone
  exact absurd hone (by decide)

end RedPitayaNotes.AxiHub
