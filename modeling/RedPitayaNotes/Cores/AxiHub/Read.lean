import RedPitayaNotes.Cores.AxiHub.Model
import RedPitayaNotes.Support.Pointwise

/-!
# The read channel of axi_hub

A beat is issued in exactly the cycles in which `int_re_wire` is high: the
addressed stream is popped, the response word enters `buf_4`, and the beat
counter advances or the request retires.  The response is put together from
`buf_4` and the BRAM outputs in the cycles in which it is presented.
-/

namespace RedPitayaNotes.AxiHub

open Clocked Elastic

/-- A beat the hub issues, with the stream word it found at its target. -/
structure ReadBeat where
  ar : ArWord
  k : ℕ
  found : Option (BitVec 32)
deriving DecidableEq, Repr

def ReadBeat.target (b : ReadBeat) : ℕ := AxiHub.target b.ar.araddr

/-- The stream word a beat takes from port `j`. -/
def ReadBeat.taken (b : ReadBeat) (j : Fin hubSize) : Option (BitVec 32) :=
  if b.target = j + 2 then b.found else none

/-- A transfer on the R channel. -/
structure RBeat where
  rid : BitVec 12
  rlast : Bool
  rdata : BitVec 32
deriving DecidableEq, Repr

/-- The beats a request asks for: `arlen + 1` of them. -/
def ArWord.beats (a : ArWord) : List (ArWord × ℕ) :=
  (List.range (a.arlen.toNat + 1)).map fun k => (a, k)

/-- The identifier and the last flag the response to a beat carries. -/
def beatHeader (x : ArWord × ℕ) : BitVec 12 × Bool :=
  (x.1.arid, x.2 == x.1.arlen.toNat)

section Cycle

variable {p : Params}

/-- The word waiting at the stream port the current request addresses. -/
def foundWord (s : State p) (i : Input p) : Option (BitVec 32) :=
  match target (intArWire s).araddr with
  | j + 2 =>
      if h : j < hubSize then
        if i.sAxisTvalid ⟨j, h⟩ then some (i.sAxisTdata ⟨j, h⟩) else none
      else none
  | _ => none

def arAccepted (c : Cycle (State p) (Input p)) : List ArWord :=
  transfer c.input.sAxiArvalid (sAxiArready c.state) c.input.ar

/-- The beat issued in a cycle, if any. -/
def issued (c : Cycle (State p) (Input p)) : List ReadBeat :=
  if intReWire c.state c.input then
    [⟨intArWire c.state, c.state.intArcntrReg.toNat,
      foundWord c.state c.input⟩]
  else []

/-- The word `buf_4` gives up in a cycle, if any. -/
def wordSent (c : Cycle (State p) (Input p)) : List RWord :=
  transfer (sAxiRvalid c.state) c.input.sAxiRready c.state.buf4.outData

def rSent (c : Cycle (State p) (Input p)) : List RBeat :=
  transfer (sAxiRvalid c.state) c.input.sAxiRready
    ⟨sAxiRid c.state, sAxiRlast c.state, sAxiRdata c.state c.input⟩

/-- The word taken from stream `j` in a cycle, if any. -/
def popped (j : Fin hubSize) (c : Cycle (State p) (Input p)) :
    List (BitVec 32) :=
  transfer (c.input.sAxisTvalid j) (sAxisTready c.state c.input j)
    (c.input.sAxisTdata j)

end Cycle

/-! ## What one cycle does to the request queue -/

section Step

variable {p : Params} (s : State p) (i : Input p)

theorem buf3_next :
    s.buf3.contents ++ arAccepted ⟨s, i⟩ =
      (if intReWire s i && intRlastWire s then [intArWire s] else []) ++
        (next s i).buf3.contents := by
  have h := s.buf3.step_lossless i.ar i.sAxiArvalid (intArreadyWire s i)
  refine h.trans (congrArg (· ++ _) ?_)
  change transfer (intArvalidWire s) (intArreadyWire s i) (intArWire s) = _
  cases hr : intRreadyWire s i <;> cases ha : intArvalidWire s <;>
    cases hl : intRlastWire s <;>
    simp [intArreadyWire, intReWire, ha, hr, hl]

theorem intArcntrReg_next :
    (next s i).intArcntrReg =
      if intReWire s i then
        if intRlastWire s then 0 else s.intArcntrReg + 1
      else s.intArcntrReg := by
  cases hr : intRreadyWire s i <;> cases ha : intArvalidWire s <;>
    cases hl : intRlastWire s <;>
    simp [next, step, intArcntrNext, intArreadyWire, intReWire, ha, hr, hl]

theorem buf4_next :
    s.buf4.contents ++ (if intReWire s i then [rIn s i] else []) =
      wordSent ⟨s, i⟩ ++ (next s i).buf4.contents := by
  have h := s.buf4.step_lossless (rIn s i) (intRvalidWire s) i.sAxiRready
  refine Eq.trans (congrArg (s.buf4.contents ++ ·) ?_) h
  change _ = transfer (intRvalidWire s) (intRreadyWire s i) (rIn s i)
  cases hr : intRreadyWire s i <;> cases ha : intArvalidWire s <;>
    simp [intReWire, intRvalidWire, ha, hr]

/-- The beat counter stays inside the request at the head of the queue. -/
structure ReadOk (s : State p) : Prop where
  compact : s.buf3.Compact
  idle : s.buf3.contents = [] → s.intArcntrReg = 0
  inside : ∀ a q, s.buf3.contents = a :: q → s.intArcntrReg ≤ a.arlen

variable {s}

theorem buf3_eq_cons {i : Input p} (hre : intReWire s i = true) :
    ∃ q, s.buf3.contents = intArWire s :: q := by
  rw [intReWire, Bool.and_eq_true] at hre
  exact ⟨_, InoutBuffer.contents_eq_cons hre.2⟩

/-- What a cycle does to the requests and to the beat counter. -/
inductive RequestStep (s : State p) (i : Input p) : Prop where
  | hold (hre : intReWire s i = false)
      (hbuf : (next s i).buf3.contents = s.buf3.contents ++ arAccepted ⟨s, i⟩)
      (hcntr : (next s i).intArcntrReg = s.intArcntrReg)
  | retire (q : List ArWord) (hre : intReWire s i = true)
      (hhead : s.buf3.contents = intArWire s :: q)
      (hlast : s.intArcntrReg = (intArWire s).arlen)
      (hbuf : (next s i).buf3.contents = q ++ arAccepted ⟨s, i⟩)
      (hcntr : (next s i).intArcntrReg = 0)
  | advance (q : List ArWord) (hre : intReWire s i = true)
      (hhead : s.buf3.contents = intArWire s :: q)
      (hlast : s.intArcntrReg ≠ (intArWire s).arlen)
      (hbuf : (next s i).buf3.contents =
        intArWire s :: (q ++ arAccepted ⟨s, i⟩))
      (hcntr : (next s i).intArcntrReg = s.intArcntrReg + 1)

theorem requestStep (s : State p) (i : Input p) : RequestStep s i := by
  have hbooks := buf3_next s i
  have hcntr := intArcntrReg_next s i
  cases hre : intReWire s i with
  | false =>
      refine .hold hre ?_ ?_
      · simpa [hre] using hbooks.symm
      · simpa [hre] using hcntr
  | true =>
      obtain ⟨q, hq⟩ := buf3_eq_cons hre
      cases hlast : intRlastWire s with
      | true =>
          refine .retire q hre hq ?_ ?_ ?_
          · simpa [intRlastWire] using hlast
          · simpa [hre, hlast, hq] using hbooks.symm
          · simpa [hre, hlast] using hcntr
      | false =>
          refine .advance q hre hq ?_ ?_ ?_
          · simpa [intRlastWire] using hlast
          · simpa [hre, hlast, hq] using hbooks.symm
          · simpa [hre, hlast] using hcntr

theorem next_readOk (s : State p) (i : Input p) (h : ReadOk s) :
    ReadOk (next s i) := by
  have hcompact := InoutBuffer.step_compact h.compact i.ar i.sAxiArvalid
    (intArreadyWire s i)
  cases requestStep s i with
  | hold hre hbuf hcntr =>
      refine ⟨hcompact, ?_, ?_⟩
      · intro hempty
        rw [hbuf] at hempty
        rw [hcntr]
        exact h.idle (List.append_eq_nil_iff.mp hempty).1
      · intro a q haq
        rw [hcntr]
        cases hold : s.buf3.contents with
        | nil =>
            rw [h.idle hold]
            exact Nat.zero_le _
        | cons a' q' =>
            rw [hbuf, hold, List.cons_append, List.cons.injEq] at haq
            rw [← haq.1]
            exact h.inside a' q' hold
  | retire q hre hhead hlast hbuf hcntr =>
      refine ⟨hcompact, fun _ => hcntr, ?_⟩
      intro a q' _
      rw [hcntr]
      exact Nat.zero_le _
  | advance q hre hhead hlast hbuf hcntr =>
      refine ⟨hcompact, ?_, ?_⟩
      · intro hempty
        rw [hbuf] at hempty
        cases hempty
      · intro a q' haq
        have hle := h.inside _ _ hhead
        rw [hbuf, List.cons.injEq] at haq
        rw [hcntr, ← haq.1]
        bv_omega

/-- The beats still to be issued when the requests `xs` are still to come. -/
def pendingReads (s : State p) (xs : List ArWord) : List (ArWord × ℕ) :=
  ((s.buf3.contents ++ xs).flatMap ArWord.beats).drop s.intArcntrReg.toNat

theorem drop_beats {a : ArWord} {k : ℕ} (hk : k ≤ a.arlen.toNat)
    (rest : List (ArWord × ℕ)) :
    (a.beats ++ rest).drop k = (a, k) :: (a.beats ++ rest).drop (k + 1) := by
  have hlen : k < (a.beats ++ rest).length := by
    simp [ArWord.beats]
    omega
  rw [List.drop_eq_getElem_cons hlen, List.getElem_append_left]
  · simp [ArWord.beats]
  · simp [ArWord.beats]
    omega

theorem pendingReads_next (h : ReadOk s) (xs : List ArWord) :
    pendingReads s (arAccepted ⟨s, i⟩ ++ xs) =
      (issued ⟨s, i⟩).map (fun b => (b.ar, b.k)) ++
        pendingReads (next s i) xs := by
  unfold pendingReads
  cases requestStep s i with
  | hold hre hbuf hcntr => simp [issued, hre, hbuf, hcntr]
  | retire q hre hhead hlast hbuf hcntr =>
      have hwhole : (intArWire s).beats.length =
          s.intArcntrReg.toNat + 1 := by
        simp [ArWord.beats, hlast]
      rw [hhead, List.cons_append, List.flatMap_cons,
        drop_beats (le_of_eq (congrArg _ hlast)), ← hwhole, List.drop_left,
        issued, hre, if_pos rfl, hbuf, hcntr, List.append_assoc]
      rfl
  | advance q hre hhead hlast hbuf hcntr =>
      have hle : s.intArcntrReg.toNat ≤ (intArWire s).arlen.toNat :=
        h.inside _ _ hhead
      have hsucc : (s.intArcntrReg + 1).toNat = s.intArcntrReg.toNat + 1 := by
        bv_omega
      rw [hhead, List.cons_append, List.flatMap_cons, drop_beats hle, issued,
        hre, if_pos rfl, hbuf, hcntr, hsucc, List.cons_append,
        List.flatMap_cons, List.append_assoc]
      rfl

end Step

/-! ## What a response word carries -/

section Response

variable {p : Params} (s : State p) (i : Input p)

theorem foundWord_of_target {j : Fin hubSize}
    (hj : target (intArWire s).araddr = j + 2) :
    foundWord s i = if i.sAxisTvalid j then some (i.sAxisTdata j) else none := by
  unfold foundWord
  rw [hj]
  exact dif_pos j.isLt

theorem target_of_foundWord {d : BitVec 32} (hd : foundWord s i = some d) :
    ∃ j : Fin hubSize, target (intArWire s).araddr = j + 2 := by
  unfold foundWord at hd
  split at hd
  next j hj =>
    by_cases hlt : j < hubSize
    · exact ⟨⟨j, hlt⟩, hj⟩
    · simp [hlt] at hd
  next => simp at hd

theorem intRdataWire0_of_target {j : Fin hubSize}
    (hj : target (intArWire s).araddr = j + 2) :
    intRdataWire0 s i = if i.sAxisTvalid j then i.sAxisTdata j else 0 := by
  rw [intRdataWire0, hj]
  exact dif_pos j.isLt

theorem intRselWire_eq_true_iff (hre : intReWire s i = true)
    {j : Fin hubSize} (hj : target (intArWire s).araddr = j + 2)
    (k : Fin hubSize) :
    intRselWire s i (k + 2) = true ↔ k = j := by
  rw [intRselWire, hre, hj, Bool.true_and, beq_iff_eq, Nat.add_right_cancel_iff,
    Fin.ext_iff, eq_comm]

/-- The response word to a beat: a stream word is carried in the word itself,
a BRAM word is only announced. -/
structure Announces (b : ReadBeat) (w : RWord) : Prop where
  header : (w.rid, w.rlast) = beatHeader (b.ar, b.k)
  stream : ∀ d, b.found = some d → w.rdata = d ∧ ∀ j, w.bsel j = false
  bram : ∀ j : Fin hubSize, b.target = j + 2 → b.found = none →
    w.rdata = 0 ∧ ∀ k, w.bsel k = decide (k = j)

theorem announces_rIn (hre : intReWire s i = true) :
    Announces ⟨intArWire s, s.intArcntrReg.toNat, foundWord s i⟩
      (rIn s i) where
  header := by
    simp [rIn, beatHeader, intRlastWire, BitVec.toNat_eq, Bool.beq_eq_decide_eq]
  stream d hd := by
    obtain ⟨j, hj⟩ := target_of_foundWord s i hd
    change foundWord s i = some d at hd
    rw [foundWord_of_target s i hj] at hd
    have hvalid : i.sAxisTvalid j = true := by
      by_contra hidle
      simp [hidle] at hd
    constructor
    · rw [hvalid, if_pos rfl, Option.some_inj] at hd
      rw [rIn, intRdataWire0_of_target s i hj, hvalid, if_pos rfl, hd]
    · intro k
      cases hsel : intRselWire s i (k + 2) with
      | false => simp [rIn, hsel]
      | true =>
          have hk := (intRselWire_eq_true_iff s i hre hj k).mp hsel
          simp [rIn, hk, hvalid]
  bram j hj hnone := by
    change foundWord s i = none at hnone
    change target (intArWire s).araddr = j + 2 at hj
    rw [foundWord_of_target s i hj] at hnone
    have hidle : i.sAxisTvalid j = false := by
      by_contra hvalid
      simp [hvalid] at hnone
    constructor
    · rw [rIn, intRdataWire0_of_target s i hj, hidle,
        if_neg Bool.false_ne_true]
    · intro k
      have hsel := intRselWire_eq_true_iff s i hre hj k
      by_cases hk : k = j
      · rw [hk] at hsel ⊢
        simp [rIn, hsel.mpr rfl, hidle]
      · have hnot : intRselWire s i (k + 2) = false :=
          eq_false_of_ne_true fun h => hk (hsel.mp h)
        simp [rIn, hnot, hk]

/-- How a word of `buf_4` appears on the R channel. -/
structure Presents (w : RWord) (r : RBeat) : Prop where
  header : (r.rid, r.rlast) = (w.rid, w.rlast)
  rdata : (∀ j, w.bsel j = false) → r.rdata = w.rdata

theorem presents_rSent (c : Cycle (State p) (Input p)) :
    List.Forall₂ Presents (wordSent c) (rSent c) := by
  cases hv : sAxiRvalid c.state <;> cases hr : c.input.sAxiRready <;>
    simp only [wordSent, rSent, hv, hr, transfer_false_left,
      transfer_false_right, transfer_true_true, List.Forall₂.nil]
  refine .cons ⟨rfl, fun hsel => ?_⟩ .nil
  simp [sAxiRdata, intRdataWire, hsel]

theorem popped_eq (j : Fin hubSize) (c : Cycle (State p) (Input p)) :
    popped j c = (issued c).filterMap fun b => b.taken j := by
  cases hre : intReWire c.state c.input with
  | false => simp [popped, sAxisTready, intRselWire, issued, hre]
  | true =>
      by_cases hj : target (intArWire c.state).araddr = j + 2
      · have hfound := foundWord_of_target c.state c.input hj
        cases hv : c.input.sAxisTvalid j <;> rw [hv] at hfound <;>
          simp [popped, sAxisTready, intRselWire, issued, ReadBeat.taken,
            ReadBeat.target, hfound, hre, hj, hv]
      · have hsel : sAxisTready c.state c.input j = false := by
          simp [sAxisTready, intRselWire, hj]
        simp [popped, hsel, issued, ReadBeat.taken, ReadBeat.target, hre, hj]

end Response

/-! ## Whole runs -/

section Run

variable {p : Params} {s₀ : State p}

theorem State.IsReset.readOk (h : s₀.IsReset) : ReadOk s₀ where
  compact := h.buf3.compact
  idle _ := h.intArcntrReg
  inside a q haq := by
    rw [h.buf3.contents] at haq
    exact absurd haq (List.cons_ne_nil a q).symm

theorem run_readOk (h : s₀.IsReset) (inputs : List (Input p)) :
    ReadOk (run next s₀ inputs) :=
  run_invariant ReadOk next_readOk h.readOk inputs

theorem issued_run (h : s₀.IsReset) (inputs : List (Input p)) :
    ((trace next s₀ inputs).flatMap arAccepted).flatMap ArWord.beats =
      ((trace next s₀ inputs).flatMap issued).map (fun b => (b.ar, b.k)) ++
        pendingReads (run next s₀ inputs) [] := by
  have hrun := run_emits ReadOk pendingReads arAccepted
    (fun c => (issued c).map fun b => (b.ar, b.k))
    next_readOk
    (fun _ i hs xs => pendingReads_next i hs xs) h.readOk inputs []
  rw [List.map_flatMap, ← hrun, pendingReads, h.buf3.contents,
    h.intArcntrReg, List.append_nil]
  rfl

theorem wordSent_run (h : s₀.IsReset) (inputs : List (Input p)) :
    (trace next s₀ inputs).flatMap (fun c =>
        if intReWire c.state c.input then [rIn c.state c.input] else []) =
      (trace next s₀ inputs).flatMap wordSent ++
        (run next s₀ inputs).buf4.contents :=
  run_conserves (fun s : State p => s.buf4.contents)
    (fun c => if intReWire c.state c.input then [rIn c.state c.input] else [])
    wordSent buf4_next (OutputBuffer.contents_eq_nil_iff.mpr h.buf4) inputs

/-- The issued beats and the response words they put into `buf_4`, those given
up first, the one still there last. -/
theorem announces_run (h : s₀.IsReset) (inputs : List (Input p)) :
    List.Forall₂ Announces ((trace next s₀ inputs).flatMap issued)
      ((trace next s₀ inputs).flatMap wordSent ++
        (run next s₀ inputs).buf4.contents) := by
  rw [← wordSent_run h]
  apply Pointwise.flatMap
  intro c
  cases hre : intReWire c.state c.input with
  | false => simp [issued, hre]
  | true =>
      rw [issued, hre, if_pos rfl, if_pos rfl]
      exact .cons (announces_rIn c.state c.input hre) .nil

theorem presents_run (inputs : List (Input p)) :
    List.Forall₂ Presents ((trace next s₀ inputs).flatMap wordSent)
      ((trace next s₀ inputs).flatMap rSent) :=
  Pointwise.flatMap presents_rSent _

/-- Issuing runs ahead of returning by what `buf_4` holds. -/
theorem length_issued (h : s₀.IsReset) (inputs : List (Input p)) :
    ((trace next s₀ inputs).flatMap issued).length =
      ((trace next s₀ inputs).flatMap rSent).length +
        (run next s₀ inputs).buf4.contents.length := by
  rw [(announces_run h inputs).length_eq, List.length_append,
    (presents_run inputs).length_eq]

/-- A beat returned on the R channel. -/
structure Returns (b : ReadBeat) (r : RBeat) : Prop where
  header : (r.rid, r.rlast) = beatHeader (b.ar, b.k)
  stream : ∀ d, b.found = some d → r.rdata = d

theorem Announces.returns {b : ReadBeat} {w : RWord} {r : RBeat}
    (hw : Announces b w) (hr : Presents w r) : Returns b r where
  header := hr.header.trans hw.header
  stream d hd := by
    obtain ⟨hdata, hsel⟩ := hw.stream d hd
    rw [hr.rdata hsel, hdata]

theorem returns_run (h : s₀.IsReset) (inputs : List (Input p)) :
    List.Forall₂ Returns
      (((trace next s₀ inputs).flatMap issued).take
        ((trace next s₀ inputs).flatMap rSent).length)
      ((trace next s₀ inputs).flatMap rSent) := by
  have hwords := List.forall₂_take_append _ _ _ (announces_run h inputs)
  have hsent : List.Forall₂ Presents _
      ((trace next s₀ inputs).flatMap rSent) := presents_run inputs
  rw [hsent.length_eq] at hwords
  exact Pointwise.trans (fun _ _ _ hw hr => hw.returns hr) hwords hsent

/-- The stream words behind the beats returned so far, as the R channel carries
them. -/
def returnedWords (j : Fin hubSize) (beats : List ReadBeat) (rs : List RBeat) :
    List (BitVec 32) :=
  (beats.zip rs).filterMap fun x =>
    if (x.1.taken j).isSome then some x.2.rdata else none

theorem returnedWords_eq (j : Fin hubSize) {beats : List ReadBeat}
    {rs : List RBeat} (h : List.Forall₂ Returns beats rs) :
    returnedWords j beats rs = beats.filterMap fun b => b.taken j := by
  induction h with
  | nil => rfl
  | @cons b r beats rs hbr _ ih =>
      have hhead : (if (b.taken j).isSome then some r.rdata else none) =
          b.taken j := by
        cases htaken : b.taken j with
        | none => simp
        | some d =>
            have hfound : b.found = some d := by
              unfold ReadBeat.taken at htaken
              split at htaken
              · exact htaken
              · simp at htaken
            simp [hbr.stream d hfound]
      rw [returnedWords] at ih ⊢
      rw [List.zip_cons_cons, List.filterMap_cons, List.filterMap_cons, ih]
      rw [hhead]

theorem popped_run (j : Fin hubSize) (inputs : List (Input p)) :
    (trace next s₀ inputs).flatMap (popped j) =
      ((trace next s₀ inputs).flatMap issued).filterMap
        fun b => b.taken j := by
  rw [funext (popped_eq (p := p) j), List.filterMap_flatMap]

end Run

/-! ## Progress -/

section Progress

variable {p : Params}

/-- Beats not returned yet: the one in `buf_4` and those not issued. -/
def unreturned (s : State p) : ℕ :=
  s.buf4.contents.length + (pendingReads s []).length

/-- An empty `buf_4` delays the next response by one cycle. -/
def readLag (s : State p) : ℕ := if s.buf4.contents = [] then 1 else 0

theorem length_pendingReads_le (s : State p) :
    (pendingReads s []).length ≤ 32 := by
  have hbeats : ∀ l : List ArWord,
      (l.flatMap ArWord.beats).length ≤ 16 * l.length := by
    intro l
    induction l with
    | nil => simp
    | cons a l ih =>
        have ha : a.beats.length ≤ 16 := by
          have := a.arlen.isLt
          simp only [ArWord.beats, List.length_map, List.length_range]
          omega
        rw [List.flatMap_cons, List.length_append, List.length_cons]
        omega
  have hstored := s.buf3.length_contents_le
  have hall := hbeats s.buf3.contents
  rw [pendingReads, List.append_nil, List.length_drop]
  omega

variable {s : State p} {i : Input p}

theorem length_issued_eq_one (h : ReadOk s)
    (hready : intRreadyWire s i = true) (hpending : 0 < (pendingReads s []).length) :
    (issued ⟨s, i⟩).length = 1 := by
  have hne : s.buf3.contents ≠ [] := by
    intro hnil
    simp [pendingReads, hnil] at hpending
  have hvalid : intArvalidWire s = true :=
    (InoutBuffer.outValid_eq_true_iff h.compact).mpr hne
  simp [issued, intReWire, hready, hvalid]

theorem length_buf4_next (s : State p) (i : Input p) :
    s.buf4.contents.length + (issued ⟨s, i⟩).length =
      (rSent ⟨s, i⟩).length + (next s i).buf4.contents.length := by
  have hbook := congrArg List.length (buf4_next s i)
  have hsent := (presents_rSent ⟨s, i⟩).length_eq
  rw [List.length_append, List.length_append, hsent] at hbook
  cases hre : intReWire s i <;> simp_all [issued]

theorem next_unreturned_le (h : ReadOk s) :
    unreturned s ≤ (rSent ⟨s, i⟩).length + unreturned (next s i) := by
  have hbook := length_buf4_next s i
  have hpending := congrArg List.length (pendingReads_next i h [])
  rw [List.length_append, List.length_map] at hpending
  have hgrow : (pendingReads s []).length ≤
      (pendingReads s (arAccepted ⟨s, i⟩ ++ [])).length := by
    simp only [pendingReads, List.append_nil, List.length_drop,
      List.flatMap_append, List.length_append]
    omega
  unfold unreturned
  omega

theorem intRreadyWire_of_sAxiRready (hr : i.sAxiRready = true) :
    intRreadyWire s i = true := by
  simp [intRreadyWire, OutputBuffer.inReady, OutputBuffer.intReadyWire, hr]

theorem intRreadyWire_of_empty (hempty : s.buf4.contents = []) :
    intRreadyWire s i = true := by
  have hvalid : s.buf4.intValidReg = false :=
    OutputBuffer.contents_eq_nil_iff.mp hempty
  simp [intRreadyWire, OutputBuffer.inReady, OutputBuffer.intReadyWire, hvalid]

theorem length_rSent_of_nonempty (hne : s.buf4.contents ≠ []) :
    (rSent ⟨s, i⟩).length = if i.sAxiRready then 1 else 0 := by
  have hvalid : sAxiRvalid s = true := by
    by_contra hidle
    exact hne (OutputBuffer.contents_eq_nil_iff.mpr (eq_false_of_ne_true hidle))
  cases hr : i.sAxiRready <;> simp [rSent, hvalid, hr]

theorem next_readLag_le (h : ReadOk s)
    (hmore : (rSent ⟨s, i⟩).length < unreturned s) :
    readLag (next s i) ≤ readLag s := by
  by_cases hempty : s.buf4.contents = []
  · rw [readLag, readLag, if_pos hempty]
    split <;> omega
  · have hone : s.buf4.contents.length = 1 := by
      have hle := s.buf4.length_contents_le
      have hpos := List.length_pos_iff.mpr hempty
      omega
    have hbook := length_buf4_next s i
    have hsent := length_rSent_of_nonempty (i := i) hempty
    have hstill : (next s i).buf4.contents ≠ [] := by
      apply List.ne_nil_of_length_pos
      cases hr : i.sAxiRready with
      | false =>
          rw [hr, if_neg Bool.false_ne_true] at hsent
          omega
      | true =>
          rw [hr, if_pos rfl] at hsent
          rw [unreturned] at hmore
          have hissue := length_issued_eq_one h
            (intRreadyWire_of_sAxiRready hr) (by omega)
          omega
    rw [readLag, readLag, if_neg hempty, if_neg hstill]

theorem rSent_or_readLag (h : ReadOk s) (hr : i.sAxiRready = true)
    (hmore : 0 < unreturned s) :
    0 < (rSent ⟨s, i⟩).length ∨ readLag (next s i) < readLag s := by
  by_cases hempty : s.buf4.contents = []
  · right
    rw [unreturned, hempty, List.length_nil, Nat.zero_add] at hmore
    have hissue := length_issued_eq_one h
      (intRreadyWire_of_empty (i := i) hempty) hmore
    have hbook := length_buf4_next s i
    have hnone : (rSent ⟨s, i⟩).length = 0 := by
      have hvalid : sAxiRvalid s = false :=
        OutputBuffer.contents_eq_nil_iff.mp hempty
      simp [rSent, hvalid]
    rw [hempty, List.length_nil] at hbook
    have hfull : (next s i).buf4.contents ≠ [] :=
      List.ne_nil_of_length_pos (by omega)
    rw [readLag, readLag, if_pos hempty, if_neg hfull]
    omega
  · left
    rw [length_rSent_of_nonempty hempty, hr, if_pos rfl]
    omega

/-- Thirty-four cycles with RREADY return every beat of every request accepted
before them. -/
theorem rSent_of_accepted {s₀ : State p} (h : s₀.IsReset)
    (before : List (Input p)) {after : List (Input p)}
    (hready : 34 ≤ after.countP Input.sAxiRready) :
    (((trace next s₀ before).flatMap arAccepted).flatMap
        ArWord.beats).length ≤
      ((trace next s₀ (before ++ after)).flatMap rSent).length := by
  have hissued := congrArg List.length (issued_run h before)
  rw [List.length_append, List.length_map, length_issued h before] at hissued
  have hone := (run next s₀ before).buf4.length_contents_le
  have hthirty := length_pendingReads_le (run next s₀ before)
  have hlag : readLag (run next s₀ before) ≤ 1 := by
    unfold readLag
    split <;> omega
  have htodo : unreturned (run next s₀ before) =
      (run next s₀ before).buf4.contents.length +
        (pendingReads (run next s₀ before) []).length := rfl
  have hdrain := run_drains ReadOk unreturned readLag rSent Input.sAxiRready
    next_readOk (fun _ _ hs => next_unreturned_le hs)
    (fun _ _ hs hmore => next_readLag_le hs hmore)
    (fun _ _ hs hr hmore => rSent_or_readLag hs hr hmore)
    (run_readOk h before) after (m := unreturned (run next s₀ before)) le_rfl
    (by omega)
  rw [trace_append, List.flatMap_append, List.length_append]
  omega

end Progress

/-! ## The channel as a whole -/

/-- What it means that the read channel answers every request and takes from
the streams what it returns. -/
structure ReadExact {p : Params} (s₀ : State p) (inputs : List (Input p)) :
    Prop where
  /-- The R beats so far are the first of the `arlen + 1` beats of each request
  in turn, each with its identifier, the last one marked. -/
  inOrder : ((trace next s₀ inputs).flatMap rSent).map
      (fun r => (r.rid, r.rlast)) <+:
    (((trace next s₀ inputs).flatMap arAccepted).flatMap ArWord.beats).map
      beatHeader
  /-- The words taken from stream `j` are the data of the R beats that found
  it valid, and the one whose R beat is still in `buf_4`. -/
  streamWords : ∀ j : Fin hubSize,
    (trace next s₀ inputs).flatMap (popped j) =
      returnedWords j
          (((trace next s₀ inputs).flatMap issued).take
            ((trace next s₀ inputs).flatMap rSent).length)
          ((trace next s₀ inputs).flatMap rSent) ++
        (((trace next s₀ inputs).flatMap issued).drop
          ((trace next s₀ inputs).flatMap rSent).length).filterMap
            fun b => b.taken j
  /-- The beats issued are those asked for, one ahead of R at most. -/
  issuedInOrder : ((trace next s₀ inputs).flatMap issued).map
      (fun b => (b.ar, b.k)) <+:
    ((trace next s₀ inputs).flatMap arAccepted).flatMap ArWord.beats
  issuedAhead : ((trace next s₀ inputs).flatMap issued).length ≤
    ((trace next s₀ inputs).flatMap rSent).length + 1
  /-- A stream is popped only for a beat addressed to it. -/
  addressed : ∀ c ∈ trace next s₀ inputs, ∀ j : Fin hubSize,
    sAxisTready c.state c.input j = true →
      ∃ b ∈ issued c, b.target = j + 2 ∧
        ∀ d ∈ popped j c, b.found = some d
  stalled : ∀ c ∈ trace next s₀ inputs,
    sAxiRvalid c.state = true → c.input.sAxiRready = false →
      ∀ j : Fin hubSize, popped j c = []
  /-- Requests are answered whole, however the cycles with RREADY are
  spread. -/
  completed : ∀ before after, inputs = before ++ after →
    34 ≤ after.countP Input.sAxiRready →
      (((trace next s₀ before).flatMap arAccepted).flatMap ArWord.beats).map
          beatHeader <+:
        ((trace next s₀ inputs).flatMap rSent).map fun r => (r.rid, r.rlast)

section Exact

variable {p : Params} {s₀ : State p}

theorem headers_eq {beats : List ReadBeat} {rs : List RBeat}
    (h : List.Forall₂ Returns beats rs) :
    rs.map (fun r => (r.rid, r.rlast)) =
      beats.map fun b => beatHeader (b.ar, b.k) := by
  induction h with
  | nil => rfl
  | cons hbr _ ih => rw [List.map_cons, List.map_cons, hbr.header, ih]

theorem rSent_inOrder (h : s₀.IsReset) (inputs : List (Input p)) :
    ((trace next s₀ inputs).flatMap rSent).map (fun r => (r.rid, r.rlast)) <+:
      (((trace next s₀ inputs).flatMap arAccepted).flatMap ArWord.beats).map
        beatHeader := by
  rw [headers_eq (returns_run h inputs), issued_run h inputs, List.map_append,
    List.map_map]
  exact ((List.take_prefix _ _).map _).trans (List.prefix_append _ _)

/-- From reset, whatever the stalls of AR and R and whatever the streams offer,
each request is answered with its own `arlen + 1` beats and the stream words
taken are the ones returned. -/
theorem read_stream_exact (h : s₀.IsReset) (inputs : List (Input p)) :
    ReadExact s₀ inputs where
  inOrder := rSent_inOrder h inputs
  streamWords j := by
    rw [returnedWords_eq j (returns_run h inputs), popped_run,
      ← List.filterMap_append, List.take_append_drop]
  issuedInOrder := ⟨_, (issued_run h inputs).symm⟩
  issuedAhead := by
    have hone := (run next s₀ inputs).buf4.length_contents_le
    rw [length_issued h inputs]
    omega
  addressed c _ j hready := by
    rw [sAxisTready, intRselWire, Bool.and_eq_true, beq_iff_eq] at hready
    obtain ⟨hre, hj⟩ := hready
    refine ⟨⟨intArWire c.state, c.state.intArcntrReg.toNat,
      foundWord c.state c.input⟩, by simp [issued, hre], hj, ?_⟩
    intro d hd
    rw [popped_eq, List.mem_filterMap] at hd
    obtain ⟨b, hb, htaken⟩ := hd
    rw [issued, hre, if_pos rfl, List.mem_singleton] at hb
    rw [hb, ReadBeat.taken, ReadBeat.target, hj, if_pos rfl] at htaken
    exact htaken
  stalled c _ hvalid hstall j := by
    have hnot : intRreadyWire c.state c.input = false :=
      OutputBuffer.inReady_eq_false_iff.mpr ⟨hvalid, hstall⟩
    simp [popped, sAxisTready, intRselWire, intReWire, hnot]
  completed before after hsplit hready := by
    subst hsplit
    have hlen := rSent_of_accepted h before hready
    refine List.prefix_of_prefix_length_le ?_ (rSent_inOrder h _) ?_
    · rw [trace_append, List.flatMap_append, List.flatMap_append,
        List.map_append]
      exact List.prefix_append _ _
    · rw [List.length_map, List.length_map]
      exact hlen

/-- A read of two beats from stream 1, which offers a word in each cycle, with
RREADY low in the first cycle of the response. -/
theorem read_stream_exact_pair :
    let i : Input ⟨32, 32⟩ := { Input.idle with
      sAxisTdata := fun _ => 5, sAxisTvalid := fun j => j == 1 }
    let inputs : List (Input ⟨32, 32⟩) :=
      [{ i with sAxiArvalid := true, sAxiArid := 9, sAxiArlen := 1,
                sAxiAraddr := 0x03000000 },
       i, i, { i with sAxiRready := true }, { i with sAxiRready := true }]
    ReadExact (State.cleared ⟨32, 32⟩) inputs ∧
      (trace next (State.cleared ⟨32, 32⟩) inputs).flatMap rSent =
        [⟨9, false, 5⟩, ⟨9, true, 5⟩] :=
  ⟨read_stream_exact (State.isReset_cleared _) _, by decide⟩

end Exact

end RedPitayaNotes.AxiHub
