import RedPitayaNotes.Support.Clocked
import RedPitayaNotes.Support.Elastic

/-!
# The axis_tagger core

`cores/axis_tagger.v` marks a beat of a stream for every rising edge of
`tag_data`.  The edge sets a flag, the flag goes out in bit 208 of the beat that
is offered, and a cycle with a beat on offer clears it.
-/

namespace RedPitayaNotes.AxisTagger

open Clocked Elastic

structure State where
  intDataReg : Bool
  intFlagReg : Bool

/-- The data has the default width, for which the slices are made. -/
structure Input where
  tagData : Bool
  sAxisTdata : BitVec 256
  sAxisTvalid : Bool
  mAxisTready : Bool

section Wires

variable (c : Cycle State Input)

/-- `tag_data & ~int_data_reg` -/
def edge : Bool := c.input.tagData && !c.state.intDataReg

def sAxisTready : Bool := c.input.mAxisTready

def mAxisTvalid : Bool := c.input.sAxisTvalid

def mAxisTdata : BitVec 256 :=
  c.input.sAxisTdata.extractLsb' 209 47 ++ BitVec.ofBool c.state.intFlagReg ++
    c.input.sAxisTdata.extractLsb' 0 208

def transferred : Bool := mAxisTvalid c && c.input.mAxisTready

/-- A beat is on offer and not taken. -/
def stalled : Bool := mAxisTvalid c && !c.input.mAxisTready

end Wires

/-- The `always` block at a clock edge; there is no reset. -/
def next (s : State) (i : Input) : State where
  intDataReg := i.tagData
  intFlagReg :=
    if edge ⟨s, i⟩ then true
    else if i.sAxisTvalid then false
    else s.intFlagReg

/-- The state the core starts in, with no tag pending. -/
def start (intDataReg : Bool) : State := ⟨intDataReg, false⟩

/-! ## What the core promises -/

/-- An edge was registered since the last beat, or in the cycle of that beat. -/
def tagPending (past : List (Cycle State Input)) : Bool :=
  (sinceLast transferred past).any edge

/-- The next cycle offers the same beat. -/
def Keeps (c d : Cycle State Input) : Prop :=
  stalled c = true → mAxisTdata d = mAxisTdata c

/-- One beat is marked for every tag, and the rest of the stream is left as it
is. -/
structure Exact (cycles : List (Cycle State Input)) : Prop where
  tagged : ∀ past c rest, cycles = past ++ c :: rest → transferred c = true →
    (mAxisTdata c).getLsbD 208 = tagPending past
  passed : ∀ c ∈ cycles, ∀ k, k ≠ 208 →
    (mAxisTdata c).getLsbD k = c.input.sAxisTdata.getLsbD k
  stable : cycles.IsChain Keeps

/-- A stall finds the tag pending exactly if it brings another. -/
def Steady (c : Cycle State Input) : Prop :=
  stalled c = true → c.state.intFlagReg = edge c

instance (c : Cycle State Input) : Decidable (Steady c) :=
  inferInstanceAs (Decidable (_ → _))

/-! ## The beats -/

theorem getLsbD_mAxisTdata (c : Cycle State Input) (k : ℕ) :
    (mAxisTdata c).getLsbD k =
      if k = 208 then c.state.intFlagReg else c.input.sAxisTdata.getLsbD k := by
  simp only [mAxisTdata, BitVec.getLsbD_append, BitVec.getLsbD_extractLsb',
    BitVec.getLsbD_ofBool]
  rcases Nat.lt_trichotomy k 208 with hlow | rfl | hhigh
  · simp [hlow, Nat.ne_of_lt hlow]
  · simp
  · have hsub : 209 + (k - 208 - 1) = k := by omega
    rw [if_neg (Nat.not_lt_of_gt hhigh), if_neg (by omega),
      if_neg (Nat.ne_of_gt hhigh), hsub]
    by_cases hk : k < 256
    · rw [decide_eq_true (by omega), Bool.true_and]
    · rw [BitVec.getLsbD_of_ge _ k (by omega), Bool.and_false]

theorem flag_next_of_stalled {s : State} {i : Input}
    (h : stalled ⟨s, i⟩ = true) : (next s i).intFlagReg = edge ⟨s, i⟩ := by
  have hvalid : i.sAxisTvalid = true := (Bool.and_eq_true_iff.mp h).1
  simp [next, hvalid]

/-- In a stall the flag is all of the beat that can change. -/
theorem keeps_iff {s : State} {i j : Input}
    (hholds : Holds (fun c : Cycle State Input => c.input.sAxisTvalid)
      sAxisTready (fun c => c.input.sAxisTdata) ⟨s, i⟩ ⟨next s i, j⟩) :
    Keeps ⟨s, i⟩ ⟨next s i, j⟩ ↔ Steady ⟨s, i⟩ := by
  apply imp_congr_right
  intro hstalled
  have hflag := flag_next_of_stalled hstalled
  obtain ⟨hvalid, hready⟩ := Bool.and_eq_true_iff.mp hstalled
  have hdata : j.sAxisTdata = i.sAxisTdata :=
    (hholds hvalid (Bool.not_eq_true' _ ▸ hready)).2
  constructor
  · intro h
    have hbit := congrArg (fun v => v.getLsbD 208) h
    simp only [getLsbD_mAxisTdata, if_true] at hbit
    exact hbit.symm.trans hflag
  · intro h
    apply BitVec.eq_of_getLsbD_eq
    intro k _
    rw [getLsbD_mAxisTdata, getLsbD_mAxisTdata, hflag, hdata, h]

/-! ## The tags -/

theorem tagPending_snoc (past : List (Cycle State Input))
    (c : Cycle State Input) :
    tagPending (past ++ [c]) =
      ((!transferred c && tagPending past) || edge c) := by
  rw [tagPending, sinceLast_snoc]
  cases transferred c <;> simp [tagPending]

/-- An edge sets the flag, a transfer clears it, and a steady stall leaves it
as it is. -/
theorem flag_next {s : State} {i : Input} (h : Steady ⟨s, i⟩) :
    (next s i).intFlagReg =
      ((!transferred ⟨s, i⟩ && s.intFlagReg) || edge ⟨s, i⟩) := by
  cases hvalid : i.sAxisTvalid with
  | false =>
      simp only [next, transferred, mAxisTvalid, hvalid]
      cases edge ⟨s, i⟩ <;> simp
  | true =>
      cases hready : i.mAxisTready with
      | false =>
          have hstalled : stalled ⟨s, i⟩ = true := by
            simp [stalled, mAxisTvalid, hvalid, hready]
          have hflag : s.intFlagReg = edge ⟨s, i⟩ := h hstalled
          rw [flag_next_of_stalled hstalled, hflag]
          cases edge ⟨s, i⟩ <;> simp
      | true => simp [next, transferred, mAxisTvalid, hvalid, hready]

/-- After steady cycles the flag is the tag that is pending. -/
theorem flag_run (intDataReg : Bool) (inputs : List Input)
    (h : ∀ c ∈ trace next (start intDataReg) inputs, Steady c) :
    (run next (start intDataReg) inputs).intFlagReg =
      tagPending (trace next (start intDataReg) inputs) := by
  apply trace_induction_of (fun past s => s.intFlagReg = tagPending past) Steady
  · rfl
  · intro past s i hs hok
    rw [flag_next hok, tagPending_snoc, hs]
  · exact h

/-! ## Runs -/

section Runs

variable {intDataReg : Bool} {inputs : List Input}

/-- The source keeps a beat on offer until it is taken. -/
def SourceHolds (cycles : List (Cycle State Input)) : Prop :=
  cycles.IsChain
    (Holds (fun c => c.input.sAxisTvalid) sAxisTready
      fun c => c.input.sAxisTdata)

instance (cycles : List (Cycle State Input)) : Decidable (SourceHolds cycles) :=
  inferInstanceAs (Decidable (cycles.IsChain _))

theorem stable_iff
    (hholds : SourceHolds (trace next (start intDataReg) inputs)) :
    (trace next (start intDataReg) inputs).IsChain Keeps ↔
      ∀ c ∈ (trace next (start intDataReg) inputs).dropLast, Steady c :=
  isChain_trace_iff (fun _ _ _ => keeps_iff) hholds

/-- Up to a cycle that finds the cycles before it steady, the flag of that cycle
is the tag that is pending. -/
theorem tagged_of_steady
    (h : ∀ c ∈ (trace next (start intDataReg) inputs).dropLast, Steady c)
    {past rest : List (Cycle State Input)} {c : Cycle State Input}
    (hsplit : trace next (start intDataReg) inputs = past ++ c :: rest) :
    (mAxisTdata c).getLsbD 208 = tagPending past := by
  rw [hsplit, List.dropLast_append_cons] at h
  obtain ⟨before, after, -, rfl, hstate⟩ := exists_before hsplit
  rw [getLsbD_mAxisTdata, if_pos rfl, hstate]
  exact flag_run intDataReg before fun d hd => h d (List.mem_append_left _ hd)

end Runs

/-- The core keeps its promise exactly if every stall that does not end the run
is steady. -/
theorem tag_exact_iff (intDataReg : Bool) {inputs : List Input}
    (hholds : SourceHolds (trace next (start intDataReg) inputs)) :
    Exact (trace next (start intDataReg) inputs) ↔
      ∀ c ∈ (trace next (start intDataReg) inputs).dropLast, Steady c := by
  rw [← stable_iff hholds]
  constructor
  · exact Exact.stable
  · intro hstable
    refine ⟨?_, ?_, hstable⟩
    · intro past c rest hsplit _
      exact tagged_of_steady ((stable_iff hholds).mp hstable) hsplit
    · intro c _ k hk
      rw [getLsbD_mAxisTdata, if_neg hk]

/-- A tag and a beat that is taken at once; a beat that waits with no tag pending,
and a tag with its transfer; a beat that waits while another tag comes. -/
def waiting : List Input :=
  [⟨true, 5, false, false⟩, ⟨false, 5, true, true⟩, ⟨false, 6, true, false⟩,
    ⟨true, 6, true, true⟩, ⟨false, 7, false, false⟩, ⟨true, 7, true, false⟩,
    ⟨true, 7, true, true⟩]

/-- The first and the third beat are marked, the third also while it waits. -/
theorem exact_waiting :
    let cycles := trace next (start false) waiting
    Exact cycles ∧ cycles.map stalled =
        [false, false, true, false, false, true, false] ∧
      (cycles.filter mAxisTvalid).map (fun c =>
          (transferred c, (mAxisTdata c).getLsbD 208)) =
        [(true, true), (false, false), (true, false), (false, true),
          (true, true)] :=
  ⟨(tag_exact_iff false (by decide)).mpr (by decide), by decide, by decide⟩

/-- A tag, and then a beat that waits for one cycle. -/
def delayed : List Input :=
  [⟨true, 5, false, false⟩, ⟨false, 5, true, false⟩, ⟨false, 5, true, true⟩]

/-- The waiting beat loses its mark and is transferred without it. -/
theorem not_exact_delayed :
    SourceHolds (trace next (start false) delayed) ∧
      ¬ Exact (trace next (start false) delayed) ∧
      (trace next (start false) delayed).map
          (fun c => (mAxisTdata c).getLsbD 208) = [false, true, false] ∧
      (trace next (start false) delayed).map transferred =
        [false, false, true] ∧
      (trace next (start false) delayed).map edge = [true, false, false] := by
  refine ⟨by decide, fun h => ?_, by decide, by decide, by decide⟩
  have htag := h.tagged (trace next (start false) (delayed.take 2))
    ⟨run next (start false) (delayed.take 2), ⟨false, 5, true, true⟩⟩ []
    rfl (by decide)
  revert htag
  decide

end RedPitayaNotes.AxisTagger
