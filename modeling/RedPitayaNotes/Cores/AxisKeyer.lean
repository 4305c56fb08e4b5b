import RedPitayaNotes.Modules.Buffers
import RedPitayaNotes.Support.Counters
import RedPitayaNotes.Support.MaximalRuns

/-!
# The axis_keyer core

`cores/axis_keyer.v` shapes a key: the index of a table of the envelope goes up
while the key is down and down while it is up.  The direction is a flag that may
change in any cycle, and the index moves in the cycles in which the memory is
read.
-/

namespace RedPitayaNotes.AxisKeyer

open Clocked Elastic MaximalRuns

structure Params where
  axisTdataWidth : ℕ := 32
  bramDataWidth : ℕ := 32
  bramAddrWidth : ℕ := 10

structure State (p : Params) where
  intAddrReg : BitVec p.bramAddrWidth
  intDataReg : BitVec p.bramAddrWidth
  intEnblReg : Bool
  /-- `buf_0` carries no data. -/
  buf0 : OutputBuffer Unit
  buf1 : InoutBuffer (BitVec p.axisTdataWidth)
  /-- The output register of the memory. -/
  bBramRdata : BitVec p.bramDataWidth

structure Input (p : Params) where
  cfgData : BitVec p.bramAddrWidth
  keyFlag : Bool
  mAxisTready : Bool

abbrev Memory (p : Params) := BitVec p.bramAddrWidth → BitVec p.bramDataWidth

variable {p : Params}

section Wires

variable (s : State p) (i : Input p)

/-- `int_comp_wire[0]` -/
def intCompWire0 : Bool := decide (s.intAddrReg < s.intDataReg)

/-- `int_comp_wire[1]` -/
def intCompWire1 : Bool := s.intAddrReg != 0

/-- `int_ready_wire[1]` -/
def intReadyWire1 : Bool := s.buf1.inReady

/-- `int_ready_wire[0]`, which also enables the memory. -/
def intReadyWire0 : Bool := s.buf0.inReady (intReadyWire1 s)

def mAxisTvalid : Bool := s.buf1.outValid

def mAxisTdata : BitVec p.axisTdataWidth := s.buf1.outData

/-- Of two assignments the later one counts. -/
def intAddrNext : BitVec p.bramAddrWidth :=
  if intReadyWire0 s && !s.intEnblReg && intCompWire1 s then s.intAddrReg - 1
  else if intReadyWire0 s && s.intEnblReg && intCompWire0 s then
    s.intAddrReg + 1
  else s.intAddrReg

def intEnblNext : Bool :=
  if intReadyWire0 s && s.intEnblReg && !intCompWire0 s && !i.keyFlag then false
  else if !s.intEnblReg && !intCompWire1 s && i.keyFlag then true
  else s.intEnblReg

end Wires

/-- A word of the memory at the port of `buf_1`. -/
def word (rdata : BitVec p.bramDataWidth) : BitVec p.axisTdataWidth :=
  rdata.setWidth _

/-- The `always` block, the buffers and the memory at a clock edge. -/
def step (aresetn : Bool) (mem : Memory p) (s : State p) (i : Input p) :
    State p where
  intAddrReg := if !aresetn then 0 else intAddrNext s
  intDataReg := if !aresetn then 0 else i.cfgData
  intEnblReg := if !aresetn then false else intEnblNext s i
  buf0 := s.buf0.step aresetn () true (intReadyWire1 s)
  buf1 := s.buf1.step aresetn (word s.bBramRdata) s.buf0.outValid i.mAxisTready
  bBramRdata :=
    if intReadyWire0 s then mem s.intAddrReg else s.bBramRdata

/-- An edge out of reset. -/
def next (mem : Memory p) (s : State p) (i : Input p) : State p :=
  step true mem s i

/-- The registers that reset clears; the data registers may hold anything. -/
structure IsReset (s : State p) : Prop where
  intAddrReg : s.intAddrReg = 0
  intDataReg : s.intDataReg = 0
  intEnblReg : s.intEnblReg = false
  buf0 : s.buf0.intValidReg = false
  buf1 : s.buf1.IsReset

theorem isReset_step (mem : Memory p) (s : State p) (i : Input p) :
    IsReset (step false mem s i) :=
  ⟨rfl, rfl, rfl, rfl, InoutBuffer.isReset_step _ _ _ _⟩

/-- The index read in the cycle. -/
def issued (c : Cycle (State p) (Input p)) : List (BitVec p.bramAddrWidth) :=
  transfer true (intReadyWire0 c.state) c.state.intAddrReg

/-- The word transferred on `m_axis`. -/
def transferred (c : Cycle (State p) (Input p)) :
    List (BitVec p.axisTdataWidth) :=
  transfer (mAxisTvalid c.state) c.input.mAxisTready (mAxisTdata c.state)

/-! ## The words -/

/-- The flag of `buf_0` and the register of the memory are one stage. -/
def stage0 (s : State p) : OutputBuffer (BitVec p.axisTdataWidth) :=
  ⟨word s.bBramRdata, s.buf0.intValidReg⟩

/-- The words on their way, oldest first. -/
def contents (s : State p) : List (BitVec p.axisTdataWidth) :=
  s.buf1.contents ++ (stage0 s).contents

theorem stage0_next (mem : Memory p) (s : State p) (i : Input p) :
    stage0 (next mem s i) =
      (stage0 s).step true (word (mem s.intAddrReg)) true (intReadyWire1 s) := by
  have hdata : word (next mem s i).bBramRdata =
      if intReadyWire0 s then word (mem s.intAddrReg) else word s.bBramRdata :=
    apply_ite word _ _ _
  rw [stage0, hdata]
  rfl

theorem contents_step (mem : Memory p) (s : State p) (i : Input p) :
    contents s ++ (issued ⟨s, i⟩).map (fun addr => word (mem addr)) =
      transferred ⟨s, i⟩ ++ contents (next mem s i) := by
  have hstage := (stage0 s).step_lossless (word (mem s.intAddrReg)) true
    (intReadyWire1 s)
  have hbuf := s.buf1.step_lossless (word s.bBramRdata) s.buf0.outValid
    i.mAxisTready
  rw [← stage0_next mem s i] at hstage
  rw [issued, map_transfer]
  exact hstage.comp hbuf

theorem length_contents_le (s : State p) : (contents s).length ≤ 3 := by
  have h₀ := (stage0 s).length_contents_le
  have h₁ := s.buf1.length_contents_le
  rw [contents, List.length_append]
  omega

/-- No stall loses or repeats a word. -/
theorem run_lossless (mem : Memory p) {s : State p} (h : IsReset s)
    (inputs : List (Input p)) :
    ((trace (next mem) s inputs).flatMap issued).map (fun addr => word (mem addr)) =
      (trace (next mem) s inputs).flatMap transferred ++
        contents (run (next mem) s inputs) := by
  have hempty : contents s = [] := by
    rw [contents, h.buf1.contents,
      (OutputBuffer.contents_eq_nil_iff (b := stage0 s)).mpr h.buf0]
    rfl
  rw [List.map_flatMap]
  exact run_conserves contents _ transferred (contents_step mem) hempty inputs

/-- Both stages hold a word. -/
structure Flowing (s : State p) : Prop where
  buf0 : s.buf0.intValidReg = true
  buf1 : mAxisTvalid s = true

theorem buf0_next (mem : Memory p) (s : State p) (i : Input p) :
    (next mem s i).buf0.intValidReg = true := by
  cases hvalid : s.buf0.intValidReg <;>
    simp [next, step, OutputBuffer.step, OutputBuffer.intReadyWire, hvalid]

theorem buf1_next (mem : Memory p) {s : State p} (h : s.buf0.intValidReg = true)
    (i : Input p) : mAxisTvalid (next mem s i) = true := by
  cases hvalid : s.buf1.buf1.intValidReg <;>
    simp [next, step, mAxisTvalid, InoutBuffer.outValid, InoutBuffer.step,
      OutputBuffer.outValid, OutputBuffer.step, OutputBuffer.intReadyWire,
      InputBuffer.outValid, InputBuffer.intValidWire, h, hvalid]

theorem Flowing.next (mem : Memory p) {s : State p} (h : s.buf0.intValidReg = true)
    (i : Input p) : Flowing (next mem s i) :=
  ⟨buf0_next mem s i, buf1_next mem h i⟩

/-- As long as both stages hold a word, every ready cycle gets one. -/
theorem length_transferred (mem : Memory p) {s : State p} (h : Flowing s)
    (inputs : List (Input p)) :
    ((trace (AxisKeyer.next mem) s inputs).flatMap transferred).length =
      inputs.countP Input.mAxisTready := by
  induction inputs generalizing s with
  | nil => rfl
  | cons i inputs ih =>
      rw [trace_cons, List.flatMap_cons, List.length_append,
        ih (Flowing.next mem h.buf0 i), List.countP_cons, transferred, h.buf1]
      cases i.mAxisTready <;> simp [Nat.add_comm]

/-- They do from the third cycle after any state on. -/
theorem countP_ready_le (mem : Memory p) (s : State p) (inputs : List (Input p)) :
    inputs.countP Input.mAxisTready ≤
      ((trace (next mem) s inputs).flatMap transferred).length + 2 := by
  match inputs with
  | [] => exact Nat.zero_le _
  | [i] => exact (List.countP_le_length).trans (Nat.le_add_left 1 _)
  | i :: j :: inputs =>
      have hflow : Flowing (next mem (next mem s i) j) :=
        Flowing.next mem (buf0_next mem s i) j
      have hrest := length_transferred mem hflow inputs
      have hi := Bool.toNat_le i.mAxisTready
      rw [trace_cons, trace_cons, List.flatMap_cons, List.flatMap_cons,
        List.length_append, List.length_append, hrest, List.countP_cons,
        List.countP_cons]
      split <;> split <;> omega

/-! ## The index -/

/-- An index and the direction it has when it is read. -/
structure Point where
  index : ℕ
  up : Bool

def point (s : State p) : Point := ⟨s.intAddrReg.toNat, s.intEnblReg⟩

def points (c : Cycle (State p) (Input p)) : List Point :=
  transfer true (intReadyWire0 c.state) (point c.state)

/-- What may be read after `a`: the index moves as its direction says, and the
direction changes at the two ends only. -/
def Follows (n : ℕ) (a b : Point) : Prop :=
  b.index ≤ n ∧
    if a.up then
      if a.index < n then b.index = a.index + 1 ∧ b.up = true
      else b.index = a.index
    else if 0 < a.index then
      b.index + 1 = a.index ∧ (0 < b.index → b.up = false)
    else b.index = 0

section Edge

variable {s : State p} {cfg : BitVec p.bramAddrWidth} {n : ℕ}

theorem intCompWire0_eq_true_iff :
    intCompWire0 s = true ↔ s.intAddrReg < s.intDataReg :=
  decide_eq_true_iff

theorem intCompWire1_eq_true_iff :
    intCompWire1 s = true ↔ s.intAddrReg ≠ 0 := by
  rw [intCompWire1, bne_iff_ne]

theorem intCompWire1_eq_false_iff :
    intCompWire1 s = false ↔ s.intAddrReg = 0 := by
  rw [intCompWire1, bne_eq_false_iff_eq]

/-- A stall leaves the index, and the direction except at 0. -/
theorem next_of_stall (h : intReadyWire0 s = false) (mem : Memory p)
    (i : Input p) :
    (next mem s i).intAddrReg = s.intAddrReg ∧
      ((next mem s i).intEnblReg = s.intEnblReg ∨
        s.intAddrReg = 0 ∧ i.keyFlag = true ∧
          (next mem s i).intEnblReg = true) := by
  constructor
  · simp [next, step, intAddrNext, h]
  · cases hcomp : intCompWire1 s with
    | true => simp [next, step, intEnblNext, hcomp, h]
    | false =>
        have haddr := intCompWire1_eq_false_iff.mp hcomp
        cases henbl : s.intEnblReg <;> cases hkey : i.keyFlag <;>
          simp [next, step, intEnblNext, hcomp, h, henbl, hkey, haddr]

/-- The four kinds of a beat. -/
theorem next_of_beat (h : intReadyWire0 s = true) (mem : Memory p)
    (i : Input p) :
    (s.intEnblReg = true ∧ s.intAddrReg < s.intDataReg ∧
        (next mem s i).intAddrReg = s.intAddrReg + 1 ∧
        (next mem s i).intEnblReg = true) ∨
      (s.intEnblReg = true ∧ ¬s.intAddrReg < s.intDataReg ∧
        (next mem s i).intAddrReg = s.intAddrReg ∧
        (next mem s i).intEnblReg = i.keyFlag) ∨
      (s.intEnblReg = false ∧ s.intAddrReg ≠ 0 ∧
        (next mem s i).intAddrReg = s.intAddrReg - 1 ∧
        (next mem s i).intEnblReg = false) ∨
      (s.intEnblReg = false ∧ s.intAddrReg = 0 ∧
        (next mem s i).intAddrReg = s.intAddrReg ∧
        (next mem s i).intEnblReg = i.keyFlag) := by
  rw [← intCompWire0_eq_true_iff, ← intCompWire1_eq_true_iff,
    ← intCompWire1_eq_false_iff]
  cases henbl : s.intEnblReg with
  | true =>
      cases hcomp : intCompWire0 s <;> cases hkey : i.keyFlag <;>
        simp [next, step, intAddrNext, intEnblNext, h, henbl, hcomp, hkey]
  | false =>
      cases hcomp : intCompWire1 s <;> cases hkey : i.keyFlag <;>
        simp [next, step, intAddrNext, intEnblNext, h, henbl, hcomp, hkey]

/-- The registers under a constant configuration; the first cycle after reset
still has a zero in the data register. -/
structure Within (cfg : BitVec p.bramAddrWidth) (s : State p) : Prop where
  data : s.intDataReg = cfg ∨ s.intAddrReg = 0 ∧ s.intEnblReg = false
  addr_le : s.intAddrReg.toNat ≤ cfg.toNat

theorem IsReset.within (h : IsReset s) : Within cfg s :=
  ⟨Or.inr ⟨h.intAddrReg, h.intEnblReg⟩, by rw [h.intAddrReg]; exact Nat.zero_le _⟩

/-- While the index goes up, the data register has the configuration. -/
theorem Within.data_of_up (h : Within cfg s) (henbl : s.intEnblReg = true) :
    s.intDataReg = cfg := by
  rcases h.data with hdata | ⟨-, hdown⟩
  · exact hdata
  · rw [henbl] at hdown
    cases hdown

/-- A beat takes the point to one that may follow it. -/
theorem follows_next (h : Within cfg s) (hready : intReadyWire0 s = true)
    (mem : Memory p) (i : Input p) :
    Follows cfg.toNat (point s) (point (next mem s i)) := by
  have hle := h.addr_le
  unfold Follows point
  rcases next_of_beat hready mem i with ⟨henbl, hlt, haddr, hup⟩ |
      ⟨henbl, hlt, haddr, -⟩ | ⟨henbl, hne, haddr, hdown⟩ | ⟨henbl, hzero, haddr, -⟩
  · rw [h.data_of_up henbl] at hlt
    have hsucc := Counters.toNat_add_one_of_lt (BitVec.lt_def.mp hlt)
    rw [BitVec.lt_def] at hlt
    simp only [henbl, haddr, hup, hsucc, if_true, if_pos hlt, and_self, and_true]
    exact hlt
  · rw [h.data_of_up henbl, BitVec.lt_def] at hlt
    simp only [henbl, haddr, if_true, if_neg hlt, and_true]
    exact hle
  · have hpred := Counters.toNat_sub_one_add_one hne
    simp only [henbl, haddr, hdown, Bool.false_eq_true, if_false]
    rw [if_pos (by omega)]
    exact ⟨by omega, hpred, fun _ => trivial⟩
  · simp only [henbl, haddr, hzero, Bool.false_eq_true, if_false]
    simp

theorem Within.next (h : Within cfg s) (mem : Memory p) {i : Input p}
    (hi : i.cfgData = cfg) : Within cfg (next mem s i) := by
  refine ⟨Or.inl hi, ?_⟩
  cases hready : intReadyWire0 s with
  | true => exact (follows_next h hready mem i).1
  | false =>
      rw [(next_of_stall hready mem i).1]
      exact h.addr_le

/-- A stall at 0 may only turn the direction up, which what went before does not
exclude. -/
theorem Follows.stall {a : Point} {index : ℕ} {up up' : Bool}
    (h : Follows n a ⟨index, up⟩) (hup : up' = up ∨ index = 0) :
    Follows n a ⟨index, up'⟩ := by
  obtain ⟨hle, hstep⟩ := h
  refine ⟨hle, ?_⟩
  rcases hup with rfl | rfl
  · exact hstep
  · split_ifs at hstep ⊢ with hdir hlt hpos
    · exact hstep.1.elim
    · exact hstep
    · exact ⟨hstep.1, fun hbad => absurd hbad (lt_irrefl 0)⟩
    · exact hstep

/-- The points read so far, and the one that is next. -/
structure Shaped (n : ℕ) (past : List Point) (s : State p) : Prop where
  chain : past.IsChain (Follows n)
  last : ∀ a ∈ past.getLast?, Follows n a (point s)
  head : ∀ a ∈ past.head?, a.index = 0
  first : past = [] → s.intAddrReg = 0

theorem Shaped.next {past : List Point} (h : Shaped cfg.toNat past s)
    (hs : Within cfg s) (mem : Memory p) (i : Input p) :
    Shaped cfg.toNat (past ++ points ⟨s, i⟩) (next mem s i) := by
  cases hready : intReadyWire0 s with
  | false =>
      have hnone : points ⟨s, i⟩ = [] := by simp [points, hready]
      obtain ⟨haddr, hup⟩ := next_of_stall hready mem i
      rw [hnone, List.append_nil]
      refine ⟨h.chain, ?_, h.head, ?_⟩
      · intro a ha
        rw [point, haddr]
        apply (h.last a ha).stall
        rcases hup with hup | ⟨hzero, -⟩
        · exact Or.inl hup
        · right
          rw [hzero]
          rfl
      · intro hnil
        rw [haddr]
        exact h.first hnil
  | true =>
      have hone : points ⟨s, i⟩ = [point s] := by simp [points, hready]
      rw [hone]
      refine ⟨?_, ?_, ?_, ?_⟩
      · rw [List.isChain_append]
        refine ⟨h.chain, List.isChain_singleton _, ?_⟩
        intro a ha b hb
        obtain rfl := Option.some.inj hb
        exact h.last a ha
      · intro a ha
        rw [List.getLast?_concat] at ha
        obtain rfl := Option.some.inj ha
        exact follows_next hs hready mem i
      · intro a ha
        cases past with
        | nil =>
            obtain rfl := Option.some.inj ha
            rw [point, h.first rfl]
            rfl
        | cons b past => exact h.head a ha
      · intro hnil
        exact absurd hnil (by simp)

end Edge

/-! ## The envelope -/

/-- An envelope between 0 and `n`: whatever part of it is seen, a rise that has
ended has gone from 0 to `n` and a fall that has ended from `n` to 0. -/
structure Envelope (n : ℕ) (indices : List ℕ) : Prop where
  head : ∀ x ∈ indices.head?, x = 0
  le : ∀ x ∈ indices, x ≤ n
  steps : indices.IsChain fun x y => y ≤ x + 1 ∧ x ≤ y + 1
  rise : ∀ before run after, indices = before ++ run ++ after →
    MaximalRun (· < ·) before run after →
      run.head? = some 0 ∧ (after = [] ∨ run.getLast? = some n)
  fall : ∀ before run after, indices = before ++ run ++ after →
    MaximalRun (· > ·) before run after →
      run.head? = some n ∧ (after = [] ∨ run.getLast? = some 0)

section Three

variable {n : ℕ} {a b c : Point}

theorem Follows.up_of_lt (h : Follows n a b) (hlt : a.index < b.index) :
    a.up = true ∧ a.index < n ∧ b.up = true := by
  obtain ⟨-, hstep⟩ := h
  split_ifs at hstep with hup hn hpos
  · exact ⟨hup, hn, hstep.2⟩
  all_goals omega

theorem Follows.down_of_gt (h : Follows n a b) (hgt : a.index > b.index) :
    a.up = false ∧ (0 < b.index → b.up = false) := by
  obtain ⟨-, hstep⟩ := h
  split_ifs at hstep with hup hn hpos
  · omega
  · omega
  · exact ⟨eq_false_of_ne_true hup, hstep.2⟩
  · omega

/-- A rise that starts after `a` starts at 0: to point up below `n`, `b` must
come from below or from the end of a fall. -/
theorem rise_start (hab : Follows n a b) (hbc : Follows n b c)
    (h : ¬a.index < b.index) (h' : b.index < c.index) : b.index = 0 := by
  obtain ⟨hup, hn, -⟩ := hbc.up_of_lt h'
  obtain ⟨-, hstep⟩ := hab
  split_ifs at hstep with hdir ha hpos
  · omega
  · omega
  · by_contra hne
    have hdown := hstep.2 (Nat.pos_of_ne_zero hne)
    rw [hup] at hdown
    cases hdown
  · exact hstep

theorem rise_stop (hab : Follows n a b) (hbc : Follows n b c)
    (h : a.index < b.index) (h' : ¬b.index < c.index) : b.index = n := by
  obtain ⟨-, -, hup⟩ := hab.up_of_lt h
  have hle := hab.1
  obtain ⟨-, hstep⟩ := hbc
  rw [if_pos hup] at hstep
  split_ifs at hstep with hn <;> omega

theorem fall_start (hab : Follows n a b) (hbc : Follows n b c)
    (h : ¬a.index > b.index) (h' : b.index > c.index) : b.index = n := by
  obtain ⟨hdown, -⟩ := hbc.down_of_gt h'
  obtain ⟨hle, hstep⟩ := hab
  split_ifs at hstep with hdir ha hpos
  · rw [hstep.2] at hdown
    cases hdown
  all_goals omega

theorem fall_stop (hab : Follows n a b) (hbc : Follows n b c)
    (h : a.index > b.index) (h' : ¬b.index > c.index) : b.index = 0 := by
  obtain ⟨-, hdown⟩ := hab.down_of_gt h
  obtain ⟨-, hstep⟩ := hbc
  by_contra hne
  have hpos := Nat.pos_of_ne_zero hne
  rw [hdown hpos, if_neg Bool.false_ne_true, if_pos hpos] at hstep
  omega

theorem Follows.steps (h : Follows n a b) :
    b.index ≤ a.index + 1 ∧ a.index ≤ b.index + 1 := by
  obtain ⟨-, hstep⟩ := h
  split_ifs at hstep <;> omega

theorem le_of_chain {past : List Point} (h : (a :: past).IsChain (Follows n)) :
    ∀ b ∈ past, b.index ≤ n := by
  induction past generalizing a with
  | nil => simp
  | cons b past ih =>
      rw [List.isChain_cons_cons] at h
      rw [List.forall_mem_cons]
      exact ⟨h.1.1, ih h.2⟩

end Three

theorem envelope_of_chain {n : ℕ} {past : List Point}
    (h : past.IsChain (Follows n)) (hhead : ∀ a ∈ past.head?, a.index = 0) :
    Envelope n (past.map Point.index) := by
  have hfirst : ∀ x ∈ (past.map Point.index).head?, x = 0 := by
    intro x hx
    rw [List.head?_map, Option.mem_def, Option.map_eq_some_iff] at hx
    obtain ⟨a, ha, rfl⟩ := hx
    exact hhead a ha
  refine ⟨hfirst, ?_, ?_, ?_, ?_⟩
  · intro x hx
    obtain ⟨a, ha, rfl⟩ := List.mem_map.mp hx
    cases past with
    | nil => cases ha
    | cons b past =>
        rcases List.mem_cons.mp ha with rfl | ha
        · rw [hhead a rfl]
          exact Nat.zero_le n
        · exact le_of_chain h a ha
  · rw [List.isChain_map]
    exact h.imp fun _ _ hab => hab.steps
  · intro before run after hsplit hrun
    refine ⟨?_, hrun.getLast_eq h hsplit fun _ _ _ => rise_stop⟩
    rcases hrun.head_eq h hsplit fun _ _ _ => rise_start with rfl | hlo
    · obtain ⟨x, y, run, rfl⟩ := hrun.exists_cons_cons
      rw [hsplit] at hfirst
      rw [hfirst x rfl, List.head?_cons]
    · exact hlo
  · intro before run after hsplit hrun
    refine ⟨?_, hrun.getLast_eq h hsplit fun _ _ _ => fall_stop⟩
    rcases hrun.head_eq h hsplit fun _ _ _ => fall_start with rfl | hlo
    · obtain ⟨x, y, run, rfl⟩ := hrun.exists_cons_cons
      rw [hsplit] at hfirst
      have hgt : x > y := (List.isChain_cons_cons.mp hrun.chain).1
      rw [hfirst x rfl] at hgt
      exact absurd hgt (Nat.not_lt_zero y)
    · exact hlo

/-! ## The key -/

section Key

variable {cfg : BitVec p.bramAddrWidth} {s : State p}
  {past : List (Cycle (State p) (Input p))}

/-- The key was `key` in some cycle since the index came to where it is. -/
def HeldSince (addr : BitVec p.bramAddrWidth) (key : Bool)
    (past : List (Cycle (State p) (Input p))) : Prop :=
  ∃ older c recent, past = older ++ c :: recent ∧ c.input.keyFlag = key ∧
    ∀ d ∈ c :: recent, d.state.intAddrReg = addr

theorem HeldSince.snoc {addr : BitVec p.bramAddrWidth} {key : Bool}
    (h : HeldSince addr key past) {c : Cycle (State p) (Input p)}
    (hc : c.state.intAddrReg = addr) : HeldSince addr key (past ++ [c]) := by
  obtain ⟨older, d, recent, rfl, hkey, hstay⟩ := h
  refine ⟨older, d, recent ++ [c], by simp, hkey, ?_⟩
  intro e he
  rw [← List.cons_append, List.mem_append, List.mem_singleton] at he
  rcases he with he | rfl
  · exact hstay e he
  · exact hc

theorem heldSince_now {addr : BitVec p.bramAddrWidth}
    {c : Cycle (State p) (Input p)} (hc : c.state.intAddrReg = addr)
    (past : List (Cycle (State p) (Input p))) :
    HeldSince addr c.input.keyFlag (past ++ [c]) := by
  refine ⟨past, c, [], rfl, rfl, ?_⟩
  intro d hd
  rw [List.mem_singleton.mp hd]
  exact hc

/-- A direction that points away from an end was given by the key at that end. -/
structure Keyed (cfg : BitVec p.bramAddrWidth)
    (past : List (Cycle (State p) (Input p))) (s : State p) : Prop where
  up : s.intEnblReg = true → s.intAddrReg = 0 → HeldSince 0 true past
  down : s.intEnblReg = false → s.intAddrReg = cfg → HeldSince cfg false past

theorem Keyed.next (h : Keyed cfg past s) (hs : Within cfg s)
    (mem : Memory p) (i : Input p) :
    Keyed cfg (past ++ [⟨s, i⟩]) (next mem s i) := by
  have hnow : ∀ {addr}, s.intAddrReg = addr →
      HeldSince addr i.keyFlag (past ++ [⟨s, i⟩]) := fun haddr =>
    heldSince_now (c := ⟨s, i⟩) haddr past
  cases hready : intReadyWire0 s with
  | false =>
      obtain ⟨haddr, hup⟩ := next_of_stall hready mem i
      refine ⟨?_, ?_⟩ <;> intro henbl hend <;> rw [haddr] at hend
      · rcases hup with hup | ⟨-, hkey, -⟩
        · exact (h.up (hup.symm.trans henbl) hend).snoc hend
        · rw [← hkey]
          exact hnow hend
      · rcases hup with hup | ⟨-, -, hup⟩
        · exact (h.down (hup.symm.trans henbl) hend).snoc hend
        · rw [hup] at henbl
          cases henbl
  | true =>
      rcases next_of_beat hready mem i with ⟨-, hlt, haddr, hup⟩ |
          ⟨hdir, -, haddr, hkey⟩ | ⟨-, hne, haddr, hdown⟩ |
          ⟨hdir, -, haddr, hkey⟩
      · refine ⟨?_, ?_⟩ <;> intro henbl hend
        · have hsucc := Counters.toNat_add_one_of_lt (BitVec.lt_def.mp hlt)
          rw [← haddr, hend] at hsucc
          exact absurd hsucc.symm (Nat.succ_ne_zero _)
        · rw [hup] at henbl
          cases henbl
      · refine ⟨?_, ?_⟩ <;> intro henbl hend <;> rw [haddr] at hend
        · exact (h.up hdir hend).snoc hend
        · rw [← henbl, hkey]
          exact hnow hend
      · refine ⟨?_, ?_⟩ <;> intro henbl hend
        · rw [hdown] at henbl
          cases henbl
        · have hpred := Counters.toNat_sub_one_add_one hne
          have hle := hs.addr_le
          rw [← haddr, hend] at hpred
          omega
      · refine ⟨?_, ?_⟩ <;> intro henbl hend <;> rw [haddr] at hend
        · rw [← henbl, hkey]
          exact hnow hend
        · exact (h.down hdir hend).snoc hend

/-- The index leaves 0 only upwards and `cfg` only downwards. -/
theorem leaves_zero (mem : Memory p) {i : Input p} (h : s.intAddrReg = 0)
    (h' : (next mem s i).intAddrReg ≠ 0) : s.intEnblReg = true := by
  cases hready : intReadyWire0 s with
  | false => exact absurd ((next_of_stall hready mem i).1.trans h) h'
  | true =>
      rcases next_of_beat hready mem i with ⟨hup, -⟩ | ⟨hup, -⟩ |
          ⟨-, hne, -⟩ | ⟨-, -, haddr, -⟩
      · exact hup
      · exact hup
      · exact absurd h hne
      · exact absurd (haddr.trans h) h'

theorem leaves_cfg (hs : Within cfg s) (mem : Memory p) {i : Input p}
    (h : s.intAddrReg = cfg) (h' : (next mem s i).intAddrReg ≠ cfg) :
    s.intEnblReg = false := by
  cases hready : intReadyWire0 s with
  | false => exact absurd ((next_of_stall hready mem i).1.trans h) h'
  | true =>
      rcases next_of_beat hready mem i with ⟨hup, hlt, -⟩ |
          ⟨-, -, haddr, -⟩ | ⟨hdown, -⟩ | ⟨hdown, -⟩
      · rw [h, hs.data_of_up hup] at hlt
        exact absurd hlt (BitVec.lt_irrefl cfg)
      · exact absurd (haddr.trans h) h'
      · exact hdown
      · exact hdown

/-- What holds after every run. -/
theorem run_envelope (mem : Memory p) (h : IsReset s) (hcfg : cfg ≠ 0)
    {inputs : List (Input p)} (hconst : ∀ i ∈ inputs, i.cfgData = cfg) :
    let cycles := trace (next mem) s inputs
    let last := run (next mem) s inputs
    Within cfg last ∧ Shaped cfg.toNat (cycles.flatMap points) last ∧
      Keyed cfg cycles last := by
  refine trace_induction_of
    (fun past t => Within cfg t ∧ Shaped cfg.toNat (past.flatMap points) t ∧
      Keyed cfg past t) (fun c => c.input.cfgData = cfg) ?_ ?_ inputs
    (forall_trace_input _ _ hconst)
  · refine ⟨h.within, ⟨List.isChain_nil, by simp, by simp, fun _ => h.intAddrReg⟩,
      ?_, ?_⟩
    · intro hup
      rw [h.intEnblReg] at hup
      cases hup
    · intro _ hend
      rw [h.intAddrReg] at hend
      exact absurd hend.symm hcfg
  · rintro past t i ⟨hwithin, hshaped, hkeyed⟩ hi
    rw [List.flatMap_append, List.flatMap_singleton]
    exact ⟨hwithin.next mem hi, hshaped.next hwithin mem i,
      hkeyed.next hwithin mem i⟩

theorem map_index_points (cycles : List (Cycle (State p) (Input p))) :
    (cycles.flatMap points).map Point.index =
      (cycles.flatMap issued).map BitVec.toNat := by
  rw [List.map_flatMap, List.map_flatMap]
  congr 1
  funext c
  rw [points, issued, map_transfer, map_transfer]
  rfl

end Key

/-- From reset, under a constant `cfg_data` other than 0, the words of an
envelope are transferred in order, one in every ready cycle but two, and none is
lost or repeated by a stall; the envelope rises and falls all the way, and turns
at an end only after the key was pressed or released there.  A word reaches
`m_axis` as it is when the two widths are the same. -/
theorem keyer_envelope (mem : Memory p) {s : State p} (h : IsReset s)
    {cfg : BitVec p.bramAddrWidth} (hcfg : 1 ≤ cfg.toNat)
    {inputs : List (Input p)} (hconst : ∀ i ∈ inputs, i.cfgData = cfg) :
    let cycles := trace (next mem) s inputs
    ((cycles.flatMap issued).map
          (fun addr => (mem addr).setWidth p.axisTdataWidth) =
        cycles.flatMap transferred ++ contents (run (next mem) s inputs) ∧
      (contents (run (next mem) s inputs)).length ≤ 3 ∧
      inputs.countP Input.mAxisTready ≤ (cycles.flatMap transferred).length + 2 ∧
      (p.axisTdataWidth = p.bramDataWidth →
        (cycles.flatMap transferred).map BitVec.toNat <+:
          (cycles.flatMap issued).map fun addr => (mem addr).toNat)) ∧
    Envelope cfg.toNat ((cycles.flatMap issued).map BitVec.toNat) ∧
    ∀ past c rest, cycles = past ++ c :: rest →
      (c.state.intAddrReg = 0 →
        (next mem c.state c.input).intAddrReg ≠ 0 → HeldSince 0 true past) ∧
      (c.state.intAddrReg = cfg →
        (next mem c.state c.input).intAddrReg ≠ cfg →
          HeldSince cfg false past) := by
  have hne : cfg ≠ 0 := by
    rintro rfl
    exact absurd hcfg (by simp)
  intro cycles
  have hlossless := run_lossless mem h inputs
  refine ⟨⟨hlossless, length_contents_le _, countP_ready_le mem s inputs, ?_⟩, ?_, ?_⟩
  · intro hwidth
    have hsame : ∀ addr, (word (p := p) (mem addr)).toNat = (mem addr).toNat := by
      intro addr
      rw [word, BitVec.toNat_setWidth, hwidth]
      exact Nat.mod_eq_of_lt (mem addr).isLt
    refine ⟨(contents (run (next mem) s inputs)).map BitVec.toNat, ?_⟩
    rw [← List.map_append, ← hlossless, List.map_map]
    exact List.map_congr_left fun addr _ => hsame addr
  · obtain ⟨-, hshaped, -⟩ := run_envelope mem h hne hconst
    rw [← map_index_points]
    exact envelope_of_chain hshaped.chain hshaped.head
  · intro past c rest hsplit
    obtain ⟨before, after, rfl, rfl, hstate⟩ := exists_before hsplit
    rw [List.forall_mem_append] at hconst
    obtain ⟨hwithin, -, hkeyed⟩ := run_envelope mem h hne hconst.1
    rw [← hstate] at hwithin hkeyed
    refine ⟨?_, ?_⟩
    · intro hzero hleaves
      exact hkeyed.up (leaves_zero mem hzero hleaves) hzero
    · intro hend hleaves
      exact hkeyed.down (leaves_cfg hwithin mem hend hleaves) hend

/-! ## A short envelope -/

def smallParams : Params := ⟨8, 8, 4⟩

def smallMemory : Memory smallParams := fun addr =>
  BitVec.ofNat 8 (100 + addr.toNat)

def cleared : State smallParams :=
  ⟨0, 0, false, ⟨(), false⟩, InoutBuffer.cleared 0, 0⟩

/-- A key that is pressed and released again in the middle of the rise, under a
configuration of 2, with a consumer that stalls for two cycles. -/
def shortPress : List (Input smallParams) :=
  (List.range 12).map fun k => ⟨2, decide (k < 2), decide (k ≠ 4 ∧ k ≠ 5)⟩

theorem keyer_envelope_short :
    let cycles := trace (next smallMemory) cleared shortPress
    let indices := (cycles.flatMap issued).map BitVec.toNat
    (Envelope 2 indices ∧ indices = [0, 0, 1, 2, 2, 1, 0, 0, 0, 0]) ∧
      (cycles.flatMap transferred).map BitVec.toNat <+:
        (cycles.flatMap issued).map (fun addr => (smallMemory addr).toNat) ∧
      cycles.flatMap transferred = [100, 100, 101, 102, 102, 101, 100, 100] := by
  have hreset : IsReset cleared :=
    ⟨rfl, rfl, rfl, rfl, InoutBuffer.isReset_cleared 0⟩
  have hcfg : 1 ≤ (2 : BitVec smallParams.bramAddrWidth).toNat := by decide
  have hconst : ∀ i ∈ shortPress, i.cfgData = 2 := by decide
  obtain ⟨⟨-, -, -, hwords⟩, henvelope, -⟩ :=
    keyer_envelope smallMemory hreset hcfg hconst
  exact ⟨⟨henvelope, by decide⟩, hwords rfl, by decide⟩

end RedPitayaNotes.AxisKeyer
