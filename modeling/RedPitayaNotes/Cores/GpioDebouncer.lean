import RedPitayaNotes.Support.Bits
import RedPitayaNotes.Support.Clocked
import RedPitayaNotes.Support.Counters
import RedPitayaNotes.Support.TrailingRun

/-!
# The gpio_debouncer core

`cores/gpio_debouncer.v` keeps, for every input, a debounced level and a
counter.  The counter runs while the input differs from the level, and when it
wraps, the level follows the input.
-/

namespace RedPitayaNotes.GpioDebouncer

open Clocked Bits Counters TrailingRun

/-- A counter has at least one bit. -/
structure Params where
  dataWidth : ℕ := 8
  cntrWidth : ℕ := 22
  cntr_pos : 0 < cntrWidth

structure State (p : Params) where
  intDataReg0 : BitVec p.dataWidth
  intDataReg1 : BitVec p.dataWidth
  intDataReg2 : BitVec p.dataWidth
  intCntrReg : Fin p.dataWidth → BitVec p.cntrWidth

variable {p : Params}

section Wires

variable (s : State p)

def debData : BitVec p.dataWidth := s.intDataReg2

def rawData : BitVec p.dataWidth := s.intDataReg1

end Wires

/-! ## One input -/

/-- The level and the counter of an input. -/
structure Channel (p : Params) where
  level : Bool
  cntr : BitVec p.cntrWidth

/-- The `always` block generated for an input. -/
def Channel.step (b : Channel p) (raw : Bool) : Channel p :=
  if b.level == raw then { b with cntr := 0 }
  else
    { level :=
        if b.cntr == BitVec.allOnes p.cntrWidth then !b.level else b.level
      cntr := b.cntr + 1 }

/-- `int_data_reg[2][j]` and `int_cntr_reg[j]` -/
def State.channel (s : State p) (j : Fin p.dataWidth) : Channel p :=
  ⟨s.intDataReg2[j], s.intCntrReg j⟩

/-- The `always` blocks at a clock edge; there is no reset. -/
def next (s : State p) (intDataWire : BitVec p.dataWidth) : State p where
  intDataReg0 := intDataWire
  intDataReg1 := s.intDataReg0
  intDataReg2 := ofFn fun j => ((s.channel j).step s.intDataReg1[j]).level
  intCntrReg j := ((s.channel j).step s.intDataReg1[j]).cntr

/-- An input sees nothing of the others. -/
theorem channel_next (s : State p) (intDataWire : BitVec p.dataWidth)
    (j : Fin p.dataWidth) :
    (next s intDataWire).channel j = (s.channel j).step (rawData s)[j] := by
  have hlevel : (next s intDataWire).intDataReg2[j] =
      ((s.channel j).step s.intDataReg1[j]).level :=
    getElem_ofFn _ j j.isLt
  rw [State.channel, hlevel]
  rfl

namespace Channel

/-! ## The counter -/

/-- A condition on the cycles since which a level `v` has been differed from:
what cycles before the last change of the level satisfy does not matter, as the
cycle of a change ends the count. -/
structure Marks (differs : Bool → Cycle (Channel p) Bool → Bool) : Prop where
  same : ∀ d, differs d.state.level d = (d.input != d.state.level)
  change : ∀ d, d.input = (!d.state.level) →
    differs (!d.state.level) d = false

/-- The counter is the number of cycles that differ from the level of now. -/
def Counts (differs : Bool → Cycle (Channel p) Bool → Bool)
    (past : List (Cycle (Channel p) Bool)) (b : Channel p) : Prop :=
  b.cntr.toNat = runLength (differs b.level) past

variable {differs : Bool → Cycle (Channel p) Bool → Bool}

theorem counts_step (hmarks : Marks differs)
    {past : List (Cycle (Channel p) Bool)} {b : Channel p} {raw : Bool}
    (h : Counts differs past b) :
    Counts differs (past ++ [⟨b, raw⟩]) (b.step raw) := by
  have hsame : differs b.level ⟨b, raw⟩ = (raw != b.level) :=
    hmarks.same ⟨b, raw⟩
  rw [Counts, runLength_snoc, step]
  by_cases heq : b.level = raw
  · have hno : differs b.level ⟨b, raw⟩ = false := by rw [hsame, heq, bne_self_eq_false]
    rw [if_pos (by simpa using heq), if_neg (by simp [hno])]
    rfl
  · have hraw : raw = !b.level := by
      cases hl : b.level <;> cases raw <;> simp_all
    have hyes : differs b.level ⟨b, raw⟩ = true := by
      rw [hsame, hraw]
      simp
    rw [if_neg (by simpa using heq)]
    by_cases hones : b.cntr = BitVec.allOnes p.cntrWidth
    · have hno := hmarks.change ⟨b, raw⟩ hraw
      simp only [hones, beq_self_eq_true, if_true]
      rw [if_neg (by simp [hno]), toNat_add_one, BitVec.toNat_allOnes,
        Nat.sub_add_cancel (Nat.two_pow_pos _), Nat.mod_self]
    · have hlt : b.cntr.toNat + 1 < 2 ^ p.cntrWidth := by
        have hne : b.cntr.toNat ≠ 2 ^ p.cntrWidth - 1 := by
          rw [← BitVec.toNat_allOnes]
          exact fun hnat => hones (BitVec.eq_of_toNat_eq hnat)
        have := b.cntr.isLt
        omega
      simp only [beq_eq_false_iff_ne.mpr hones, Bool.false_eq_true, if_false]
      rw [if_pos hyes, toNat_add_one, Nat.mod_eq_of_lt hlt, h]

theorem counts_run (hmarks : Marks differs) (b : Channel p)
    (hcntr : b.cntr = 0) (raws : List Bool) :
    Counts differs (trace step b raws) (run step b raws) := by
  apply trace_induction (Counts differs)
  · simp [Counts, hcntr]
  · exact fun _ _ _ => counts_step hmarks

/-- The level changes at the end of the cycle. -/
def Changes (c : Cycle (Channel p) Bool) : Prop :=
  (c.state.step c.input).level ≠ c.state.level

theorem changes_iff_runLength (hmarks : Marks differs)
    {past : List (Cycle (Channel p) Bool)} {c : Cycle (Channel p) Bool}
    (h : Counts differs past c.state) :
    Changes c ↔
      2 ^ p.cntrWidth ≤ runLength (differs c.state.level) (past ++ [c]) := by
  have hones : c.state.cntr = BitVec.allOnes p.cntrWidth ↔
      2 ^ p.cntrWidth ≤ runLength (differs c.state.level) past + 1 := by
    rw [← h, ← BitVec.toNat_inj, BitVec.toNat_allOnes]
    have hlt := c.state.cntr.isLt
    omega
  have hpos := Nat.two_pow_pos p.cntrWidth
  rw [runLength_snoc, hmarks.same, Changes, step]
  by_cases heq : c.state.level = c.input
  · simp [heq]
  · have hno : (c.state.level == c.input) = false := by simpa using heq
    have hyes : (c.input != c.state.level) = true := by
      simpa using Ne.symm heq
    simp only [hno, hyes, Bool.false_eq_true, if_false, if_true]
    rw [← hones]
    by_cases hcntr : c.state.cntr = BitVec.allOnes p.cntrWidth <;>
      simp [hcntr]

/-- The cycle differs from the level `v`. -/
def against (v : Bool) (d : Cycle (Channel p) Bool) : Bool := d.input != v

theorem marks_against : Marks (p := p) against where
  same _ := rfl
  change d h := by simp [against, h]

/-- The cycle differs from its own level, which is `v`. -/
def steady (v : Bool) (d : Cycle (Channel p) Bool) : Bool :=
  d.input != d.state.level && d.state.level == v

theorem marks_steady : Marks (p := p) steady where
  same d := by simp [steady]
  change d _ := by simp [steady]

end Channel

/-! ## Runs of the core -/

/-- A cycle as an input sees it. -/
def view (j : Fin p.dataWidth) (c : Cycle (State p) (BitVec p.dataWidth)) :
    Cycle (Channel p) Bool :=
  ⟨c.state.channel j, (rawData c.state)[j]⟩

section Bit

variable (j : Fin p.dataWidth) (c : Cycle (State p) (BitVec p.dataWidth))

def raw : Bool := (rawData c.state)[j]

def deb : Bool := (debData c.state)[j]

/-- `deb_data` after the edge of the cycle. -/
def debAfter : Bool := (debData (next c.state c.input))[j]

theorem debAfter_eq : debAfter j c = ((view j c).state.step (raw j c)).level :=
  congrArg Channel.level (channel_next c.state c.input j)

end Bit

theorem map_view_trace (j : Fin p.dataWidth) (s : State p)
    (inputs : List (BitVec p.dataWidth)) :
    ∃ raws, (trace next s inputs).map (view j) =
      trace Channel.step (s.channel j) raws :=
  ⟨_, (trace_view (fun s : State p => s.channel j) (raw j) (fun _ => True)
    (fun s i _ => channel_next s i j) s (fun _ _ => trivial)).1⟩

section Run

variable {j : Fin p.dataWidth} {s₀ : State p}
  {inputs : List (BitVec p.dataWidth)}
  {past rest : List (Cycle (State p) (BitVec p.dataWidth))}
  {c : Cycle (State p) (BitVec p.dataWidth)}

theorem debAfter_ne_iff (hcntr : s₀.intCntrReg j = 0)
    {differs : Bool → Cycle (Channel p) Bool → Bool}
    (hmarks : Channel.Marks differs)
    (hsplit : trace next s₀ inputs = past ++ c :: rest) :
    debAfter j c ≠ deb j c ↔
      ∃ recent, recent <:+ past ++ [c] ∧ recent.length = 2 ^ p.cntrWidth ∧
        ∀ d ∈ recent, differs (deb j c) (view j d) = true := by
  obtain ⟨raws, htrace⟩ := map_view_trace j s₀ inputs
  rw [hsplit, List.map_append, List.map_cons] at htrace
  obtain ⟨before, -, -, hpast, hstate⟩ := exists_before htrace.symm
  have hcounts : Channel.Counts differs (past.map (view j)) (view j c).state := by
    rw [hpast, hstate]
    exact Channel.counts_run hmarks (s₀.channel j) hcntr before
  have hchanges := Channel.changes_iff_runLength hmarks hcounts
  rw [Channel.Changes, ← List.map_singleton, ← List.map_append, runLength_map,
    le_runLength_iff] at hchanges
  rw [debAfter_eq]
  exact hchanges

/-- In the last cycles, as many as a counter has values, the input has differed
from the level, which was the level it still is. -/
theorem changes_iff (hcntr : s₀.intCntrReg j = 0)
    (hsplit : trace next s₀ inputs = past ++ c :: rest) :
    debAfter j c ≠ deb j c ↔
      ∃ recent, recent <:+ past ++ [c] ∧ recent.length = 2 ^ p.cntrWidth ∧
        ∀ d ∈ recent, raw j d ≠ deb j d ∧ deb j d = deb j c := by
  rw [debAfter_ne_iff hcntr Channel.marks_steady hsplit]
  simp only [Channel.steady, Bool.and_eq_true, bne_iff_ne, beq_iff_eq]
  rfl

/-- The same with the level of now. -/
theorem changes_iff_against (hcntr : s₀.intCntrReg j = 0)
    (hsplit : trace next s₀ inputs = past ++ c :: rest) :
    debAfter j c ≠ deb j c ↔
      ∃ recent, recent <:+ past ++ [c] ∧ recent.length = 2 ^ p.cntrWidth ∧
        ∀ d ∈ recent, raw j d ≠ deb j c := by
  rw [debAfter_ne_iff hcntr Channel.marks_against hsplit]
  simp only [Channel.against, bne_iff_ne]
  rfl

/-- A history that ends in `c` ends in `c` however short a part of it is. -/
theorem mem_of_suffix {recent : List (Cycle (State p) (BitVec p.dataWidth))}
    (h : recent <:+ past ++ [c]) (hlen : recent.length = 2 ^ p.cntrWidth) :
    c ∈ recent := by
  have hpos := Nat.two_pow_pos p.cntrWidth
  have hlast : [c] <:+ recent := by
    apply List.suffix_of_suffix_length_le (List.suffix_append past [c]) h
    rw [List.length_singleton]
    omega
  exact hlast.subset List.mem_cons_self

/-- A level held for as many cycles as a counter has values appears. -/
theorem debAfter_eq_of_held (hcntr : s₀.intCntrReg j = 0)
    (hsplit : trace next s₀ inputs = past ++ c :: rest) {v : Bool}
    {recent : List (Cycle (State p) (BitVec p.dataWidth))}
    (hrecent : recent <:+ past ++ [c])
    (hlen : recent.length = 2 ^ p.cntrWidth)
    (hheld : ∀ d ∈ recent, raw j d = v) : debAfter j c = v := by
  have hiff := changes_iff_against hcntr hsplit
  have hc : raw j c = v := hheld c (mem_of_suffix hrecent hlen)
  by_cases hdeb : deb j c = v
  · by_contra hne
    obtain ⟨recent', hrecent', hlen', hall⟩ := hiff.mp (hdeb ▸ hne)
    exact hall c (mem_of_suffix hrecent' hlen') (hc.trans hdeb.symm)
  · have hchange : debAfter j c ≠ deb j c := by
      apply hiff.mpr
      refine ⟨recent, hrecent, hlen, ?_⟩
      intro d hd
      rw [hheld d hd]
      exact Ne.symm hdeb
    cases hv : v <;> cases hd : deb j c <;> simp_all

/-- An excursion that is shorter never appears. -/
theorem debAfter_eq_of_short (hcntr : s₀.intCntrReg j = 0) {v : Bool}
    {before stretch after : List (Cycle (State p) (BitVec p.dataWidth))}
    (hsplit : trace next s₀ inputs = before ++ stretch ++ after)
    (hbefore : ∀ d ∈ before.getLast?, raw j d = !v)
    (hstretch : ∀ d ∈ stretch, raw j d = v)
    (hshort : stretch.length < 2 ^ p.cntrWidth) (hc : c ∈ stretch) :
    debAfter j c = deb j c := by
  obtain ⟨early, late, rfl⟩ := List.append_of_mem hc
  by_contra hne
  have hsplit' : trace next s₀ inputs =
      (before ++ early) ++ c :: (late ++ after) := by
    rw [hsplit]
    simp
  obtain ⟨recent, hrecent, hlen, hall⟩ :=
    (changes_iff_against hcntr hsplit').mp hne
  rw [List.length_append, List.length_cons] at hshort
  have hrawc : raw j c = v := hstretch c hc
  have hdebc := hall c (mem_of_suffix hrecent hlen)
  rcases List.eq_nil_or_concat' before with rfl | ⟨init, b, rfl⟩
  · have hle := hrecent.length_le
    rw [List.nil_append, List.length_append, List.length_singleton] at hle
    omega
  · have hlast : b :: (early ++ [c]) <:+ recent := by
      apply List.suffix_of_suffix_length_le _ hrecent
      · rw [List.length_cons, List.length_append, List.length_singleton]
        omega
      · exact ⟨init, by simp⟩
    have hrawb : raw j b = !v := hbefore b (by simp)
    have hdebb := hall b (hlast.subset List.mem_cons_self)
    cases hv : v <;> cases hd : deb j c <;> simp_all

end Run

/-! ## Inputs on their own -/

/-- The registers of an input. -/
structure Lane (p : Params) where
  data0 : Bool
  data1 : Bool
  channel : Channel p

def Lane.step (l : Lane p) (wire : Bool) : Lane p :=
  ⟨wire, l.data0, l.channel.step l.data1⟩

def State.lane (s : State p) (j : Fin p.dataWidth) : Lane p :=
  ⟨s.intDataReg0[j], s.intDataReg1[j], s.channel j⟩

theorem lane_next (s : State p) (intDataWire : BitVec p.dataWidth)
    (j : Fin p.dataWidth) :
    (next s intDataWire).lane j = (s.lane j).step intDataWire[j] :=
  congrArg (Lane.mk intDataWire[j] s.intDataReg0[j])
    (channel_next s intDataWire j)

theorem lane_run (j : Fin p.dataWidth) (s : State p)
    (inputs : List (BitVec p.dataWidth)) :
    (run next s inputs).lane j =
      run Lane.step (s.lane j) (inputs.map fun wire => wire[j]) := by
  induction inputs generalizing s with
  | nil => rfl
  | cons wire inputs ih =>
      rw [run_cons, ih, lane_next, List.map_cons, run_cons]

/-- Bit `j` of the output depends on bit `j` of the registers and inputs. -/
def Independent (j : Fin p.dataWidth) (s₀ : State p)
    (inputs : List (BitVec p.dataWidth)) : Prop :=
  ∀ s₁ inputs₁, s₁.lane j = s₀.lane j →
    inputs₁.map (fun wire => wire[j]) = inputs.map (fun wire => wire[j]) →
    (debData (run next s₁ inputs₁))[j] = (debData (run next s₀ inputs))[j]

theorem independent (j : Fin p.dataWidth) (s₀ : State p)
    (inputs : List (BitVec p.dataWidth)) : Independent j s₀ inputs := by
  intro s₁ inputs₁ hlane hinputs
  have hrun : (run next s₁ inputs₁).lane j = (run next s₀ inputs).lane j := by
    rw [lane_run, lane_run, hlane, hinputs]
  exact congrArg (fun l : Lane p => l.channel.level) hrun

/-! ## What the core does -/

/-- The debounced level follows the input when the input has differed from it
for as many cycles as the counter has values and the level has not changed in
the meantime.  A shorter excursion never appears, a level held for so long does,
and the inputs do not touch each other. -/
structure Filters (j : Fin p.dataWidth) (s₀ : State p)
    (inputs : List (BitVec p.dataWidth)) : Prop where
  changes : ∀ past c rest, trace next s₀ inputs = past ++ c :: rest →
    (debAfter j c ≠ deb j c ↔
      ∃ recent, recent <:+ past ++ [c] ∧ recent.length = 2 ^ p.cntrWidth ∧
        ∀ d ∈ recent, raw j d ≠ deb j d ∧ deb j d = deb j c)
  excursions : ∀ before stretch after v,
    trace next s₀ inputs = before ++ stretch ++ after →
    (∀ d ∈ before.getLast?, raw j d = !v) → (∀ d ∈ stretch, raw j d = v) →
    stretch.length < 2 ^ p.cntrWidth →
    ∀ d ∈ stretch, debAfter j d = deb j d
  levels : ∀ past c rest v, trace next s₀ inputs = past ++ c :: rest →
    (∃ recent, recent <:+ past ++ [c] ∧ recent.length = 2 ^ p.cntrWidth ∧
      ∀ d ∈ recent, raw j d = v) →
    debAfter j c = v
  alone : Independent j s₀ inputs

theorem filters {j : Fin p.dataWidth} {s₀ : State p}
    (hcntr : s₀.intCntrReg j = 0) (inputs : List (BitVec p.dataWidth)) :
    Filters j s₀ inputs where
  changes _ _ _ hsplit := changes_iff hcntr hsplit
  excursions _ _ _ _ hsplit hbefore hstretch hshort _ hd :=
    debAfter_eq_of_short hcntr hsplit hbefore hstretch hshort hd
  levels _ _ _ _ hsplit := fun ⟨_, hrecent, hlen, hheld⟩ =>
    debAfter_eq_of_held hcntr hsplit hrecent hlen hheld
  alone := independent j s₀ inputs

/-- One input and a counter of one bit. -/
def narrow : Params where
  dataWidth := 1
  cntrWidth := 1
  cntr_pos := by decide

/-- The input has just gone up. -/
def risen : State narrow where
  intDataReg0 := 1
  intDataReg1 := 1
  intDataReg2 := 0
  intCntrReg _ := 0

def first : Fin narrow.dataWidth := ⟨0, by decide⟩

theorem filters_risen : Filters first risen [0, 0, 0] := filters rfl _

/-- The input goes up, the level follows after two cycles, and the input goes
down at once: in two cycles in a row it has differed from the level of the
cycle, but the level stays, as it has changed between the two. -/
theorem not_changes_at_once :
    ¬ ∀ past c rest, trace next risen [0, 0, 0] = past ++ c :: rest →
      (debAfter first c ≠ deb first c ↔
        ∃ recent, recent <:+ past ++ [c] ∧
          recent.length = 2 ^ narrow.cntrWidth ∧
          ∀ d ∈ recent, raw first d ≠ deb first d) := by
  intro h
  have hchange := (h (trace next risen [0, 0])
    ⟨run next risen [0, 0], 0⟩ [] rfl).mpr
    ⟨(trace next risen [0, 0, 0]).drop 1, List.drop_suffix _ _, by decide,
      by decide +kernel⟩
  revert hchange
  decide +kernel

end RedPitayaNotes.GpioDebouncer
