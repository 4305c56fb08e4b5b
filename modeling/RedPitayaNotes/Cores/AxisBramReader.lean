import RedPitayaNotes.Modules.Buffers
import RedPitayaNotes.Support.Counters

/-!
# The axis_bram_reader core

`cores/axis_bram_reader.v` streams the words `0` to `cfg_data` of a memory.  The
flag of the last word waits in a register while the memory answers; the two meet
in front of a skid register and an output register.
-/

namespace RedPitayaNotes.AxisBramReader

open Clocked Elastic Counters

structure Params where
  axisTdataWidth : ℕ := 32
  bramDataWidth : ℕ := 32
  bramAddrWidth : ℕ := 10
  continuous : Bool := false

structure State (p : Params) where
  intAddrReg : BitVec p.bramAddrWidth
  intDataReg : BitVec p.bramAddrWidth
  intEnblReg : Bool
  buf0 : OutputBuffer Bool
  buf1 : InputBuffer (BitVec (p.axisTdataWidth + 1))
  buf2 : OutputBuffer (BitVec (p.axisTdataWidth + 1))
  /-- The output register of the memory. -/
  bBramRdata : BitVec p.bramDataWidth

structure Input (p : Params) where
  cfgData : BitVec p.bramAddrWidth
  mAxisTready : Bool

abbrev Memory (p : Params) := BitVec p.bramAddrWidth → BitVec p.bramDataWidth

variable {p : Params}

section Wires

variable (s : State p) (i : Input p)

def intCompWire : Bool := decide (s.intAddrReg < s.intDataReg)

/-- `int_last_wire[0]` -/
def intLastWire : Bool := !intCompWire s

/-- `int_ready_wire[2]` -/
def intReadyWire2 : Bool := s.buf2.inReady i.mAxisTready

/-- `int_ready_wire[1]` -/
def intReadyWire1 : Bool := s.buf1.inReady

/-- `int_ready_wire[0]`, which also enables the memory. -/
def intReadyWire0 : Bool := s.buf0.inReady (intReadyWire1 s)

/-- `{last, rdata}` at a port for `AXIS_TDATA_WIDTH + 1` bits. -/
def packed (last : Bool) (rdata : BitVec p.bramDataWidth) :
    BitVec (p.axisTdataWidth + 1) :=
  (BitVec.ofBool last ++ rdata).setWidth (p.axisTdataWidth + 1)

def buf1InData : BitVec (p.axisTdataWidth + 1) :=
  packed s.buf0.outData s.bBramRdata

def mAxisTvalid : Bool := s.buf2.outValid

def mAxisTlast : Bool := s.buf2.outData.getLsbD p.axisTdataWidth

def mAxisTdata : BitVec p.axisTdataWidth := s.buf2.outData.setWidth _

def stsData : BitVec p.bramAddrWidth :=
  s.intAddrReg - (BitVec.ofBool s.buf0.outValid).setWidth _ -
    (BitVec.ofBool (s.buf1.outValid s.buf0.outValid)).setWidth _ -
    (BitVec.ofBool (mAxisTvalid s)).setWidth _

/-- Of two assignments the later one counts. -/
def intAddrNext : BitVec p.bramAddrWidth :=
  if p.continuous && intReadyWire0 s && s.intEnblReg && intLastWire s then 0
  else if intReadyWire0 s && s.intEnblReg && intCompWire s then
    s.intAddrReg + 1
  else s.intAddrReg

def intEnblNext : Bool :=
  if !p.continuous && intReadyWire0 s && s.intEnblReg && intLastWire s then
    false
  else if !s.intEnblReg && intCompWire s then true
  else s.intEnblReg

end Wires

/-- The `always` block, the buffers and the memory at a clock edge. -/
def step (aresetn : Bool) (mem : Memory p) (s : State p) (i : Input p) :
    State p where
  intAddrReg := if !aresetn then 0 else intAddrNext s
  intDataReg := if !aresetn then 0 else i.cfgData
  intEnblReg := if !aresetn then false else intEnblNext s
  buf0 := s.buf0.step aresetn (intLastWire s) s.intEnblReg (intReadyWire1 s)
  buf1 := s.buf1.step aresetn (buf1InData s) s.buf0.outValid
    (intReadyWire2 s i)
  buf2 := s.buf2.step aresetn (s.buf1.outData (buf1InData s))
    (s.buf1.outValid s.buf0.outValid) i.mAxisTready
  bBramRdata :=
    if intReadyWire0 s then mem s.intAddrReg else s.bBramRdata

/-- An edge out of reset. -/
def next (mem : Memory p) (s : State p) (i : Input p) : State p :=
  step true mem s i

/-- The registers that reset clears; the data registers may hold anything. -/
structure IsReset (s : State p) : Prop where
  intAddrReg : s.intAddrReg = 0
  intDataReg : s.intDataReg = 0
  intEnblReg : s.intEnblReg = false
  buf0 : s.buf0.intValidReg = false
  buf1 : s.buf1.intReadyReg = true
  buf2 : s.buf2.intValidReg = false

theorem isReset_step (mem : Memory p) (s : State p) (i : Input p) :
    IsReset (step false mem s i) :=
  ⟨rfl, rfl, rfl, rfl, rfl, rfl⟩

structure Beat (p : Params) where
  tlast : Bool
  tdata : BitVec p.axisTdataWidth
deriving DecidableEq

def Beat.ofWord (word : BitVec (p.axisTdataWidth + 1)) : Beat p where
  tlast := word.getLsbD p.axisTdataWidth
  tdata := word.setWidth _

/-- The beat transferred on `m_axis`. -/
def transferred (c : Cycle (State p) (Input p)) : List (Beat p) :=
  transfer (mAxisTvalid c.state) c.input.mAxisTready
    ⟨mAxisTlast c.state, mAxisTdata c.state⟩

/-- The address of beat `k`. -/
def address (p : Params) (last k : ℕ) : ℕ :=
  if p.continuous then k % (last + 1) else k

/-- The addresses of the first `m` beats, or of all if there are fewer. -/
def addresses (p : Params) (last m : ℕ) : List ℕ :=
  (List.range (if p.continuous then m else min m (last + 1))).map
    (address p last)

/-- The word of an address on its way through the buffers. -/
def wordAt (mem : Memory p) (last a : ℕ) : BitVec (p.axisTdataWidth + 1) :=
  packed (decide (a = last)) (mem (BitVec.ofNat _ a))

theorem ofWord_packed (h : p.axisTdataWidth = p.bramDataWidth) (last : Bool)
    (rdata : BitVec p.bramDataWidth) :
    Beat.ofWord (packed last rdata) = ⟨last, rdata.setWidth _⟩ := by
  rw [Beat.ofWord, packed, Beat.mk.injEq]
  constructor
  · rw [BitVec.getLsbD_setWidth, BitVec.getLsbD_append, h]
    simp
  · ext k hk
    have hlt : k < p.bramDataWidth := by omega
    simp [BitVec.getElem_setWidth, BitVec.getLsbD_append, hlt]

/-! ## The words in flight -/

/-- The register of the flag and that of the memory, which are loaded together. -/
def stage0 (s : State p) : OutputBuffer (BitVec (p.axisTdataWidth + 1)) :=
  ⟨buf1InData s, s.buf0.intValidReg⟩

/-- The flag and the word of the current address. -/
def word (mem : Memory p) (s : State p) : BitVec (p.axisTdataWidth + 1) :=
  packed (intLastWire s) (mem s.intAddrReg)

theorem stage0_next (mem : Memory p) (s : State p) (i : Input p) :
    stage0 (next mem s i) =
      (stage0 s).step true (word mem s) s.intEnblReg (intReadyWire1 s) := by
  have hdata : buf1InData (next mem s i) =
      if intReadyWire0 s then word mem s else buf1InData s := by
    change packed
      (if intReadyWire0 s then intLastWire s else s.buf0.intDataReg)
      (if intReadyWire0 s then mem s.intAddrReg else s.bBramRdata) = _
    cases intReadyWire0 s <;> rfl
  exact congrArg₂ OutputBuffer.mk hdata rfl

/-- The words between the address and `m_axis`, oldest first. -/
def contents (s : State p) : List (BitVec (p.axisTdataWidth + 1)) :=
  s.buf2.contents ++ (s.buf1.contents ++ (stage0 s).contents)

/-- The word that enters the first register. -/
def issued (mem : Memory p) (c : Cycle (State p) (Input p)) :
    List (BitVec (p.axisTdataWidth + 1)) :=
  transfer c.state.intEnblReg (intReadyWire0 c.state) (word mem c.state)

/-- The beat transferred, as one word. -/
def delivered (c : Cycle (State p) (Input p)) :
    List (BitVec (p.axisTdataWidth + 1)) :=
  transfer (mAxisTvalid c.state) c.input.mAxisTready c.state.buf2.outData

theorem transferred_eq (c : Cycle (State p) (Input p)) :
    transferred c = (delivered c).map Beat.ofWord := by
  rw [transferred, delivered, transfer, transfer]
  split <;> rfl

theorem next_lossless (mem : Memory p) (s : State p) (i : Input p) :
    Lossless (contents s) (issued mem ⟨s, i⟩) (delivered ⟨s, i⟩)
      (contents (next mem s i)) := by
  have h0 := (stage0 s).step_lossless (word mem s) s.intEnblReg
    (intReadyWire1 s)
  have h1 := s.buf1.step_lossless (buf1InData s) s.buf0.outValid
    (intReadyWire2 s i)
  have h2 := s.buf2.step_lossless (s.buf1.outData (buf1InData s))
    (s.buf1.outValid s.buf0.outValid) i.mAxisTready
  rw [← stage0_next mem s i] at h0
  have hall := (h0.comp h1).comp h2
  exact hall

/-! ## The address -/

/-- Without `CONTINUOUS` the reader stops after the word at `last`. -/
def Ended (p : Params) (last n : ℕ) : Prop :=
  p.continuous = false ∧ n = last + 1

/-- The address after `n` words, of which `last` is the last address. -/
structure Counted (last n : ℕ) (s : State p) : Prop where
  data : s.intDataReg.toNat = last
  addr : s.intAddrReg.toNat =
    if p.continuous then n % (last + 1) else min n last
  bound : p.continuous = false → n ≤ last + 1
  ended : Ended p last n → s.intEnblReg = false
  disabled : s.intEnblReg = false → n = 0 ∨ Ended p last n

namespace Counted

variable {last n : ℕ} {s : State p}

theorem addr_le (h : Counted last n s) : s.intAddrReg.toNat ≤ last := by
  rw [h.addr]
  split
  · exact Nat.le_of_lt_succ (Nat.mod_lt n (Nat.succ_pos last))
  · exact Nat.min_le_right n last

theorem intCompWire_eq (h : Counted last n s) :
    intCompWire s = decide (s.intAddrReg.toNat < last) := by
  rw [intCompWire, ← h.data]
  rfl

theorem intLastWire_eq (h : Counted last n s) :
    intLastWire s = decide (s.intAddrReg.toNat = last) := by
  have hle := h.addr_le
  rw [intLastWire, h.intCompWire_eq, ← decide_not, decide_eq_decide]
  omega

/-- An enabled reader is at the address of the next beat. -/
theorem addr_of_enbl (h : Counted last n s) (henbl : s.intEnblReg = true) :
    s.intAddrReg.toNat = address p last n := by
  rw [h.addr, address]
  split
  · rfl
  next hstop =>
    have hcontinuous := eq_false_of_ne_true hstop
    have hbound := h.bound hcontinuous
    have hne : n ≠ last + 1 := by
      intro hn
      have hdisabled := h.ended ⟨hcontinuous, hn⟩
      exact Bool.noConfusion (henbl.symm.trans hdisabled)
    omega

theorem issued_eq (h : Counted last n s) (mem : Memory p) (i : Input p) :
    issued mem ⟨s, i⟩ = transfer s.intEnblReg (intReadyWire0 s)
      (wordAt mem last (address p last n)) := by
  cases henbl : s.intEnblReg with
  | false =>
      rw [issued, henbl]
      simp
  | true =>
      rw [issued, henbl, word, wordAt, h.intLastWire_eq,
        ← h.addr_of_enbl henbl, BitVec.ofNat_toNat, BitVec.setWidth_eq]

variable {mem : Memory p} {i : Input p}

theorem next_of_idle (h : Counted last n s) (hcfg : i.cfgData.toNat = last)
    (hidle : (s.intEnblReg && intReadyWire0 s) = false) :
    Counted last n (next mem s i) := by
  rw [Bool.and_comm] at hidle
  have haddr : intAddrNext s = s.intAddrReg := by
    simp [intAddrNext, Bool.and_assoc, hidle]
  have henbl : intEnblNext s =
      if !s.intEnblReg && intCompWire s then true else s.intEnblReg := by
    simp [intEnblNext, Bool.and_assoc, hidle]
  refine ⟨hcfg, ?_, h.bound, ?_, ?_⟩
  · change (intAddrNext s).toNat = _
    rw [haddr]
    exact h.addr
  · intro hended
    have hlast : s.intAddrReg.toNat = last := by
      rw [h.addr, hended.1, hended.2]
      simp
    change intEnblNext s = false
    rw [henbl, h.ended hended, h.intCompWire_eq, hlast]
    simp
  · intro hdisabled
    change intEnblNext s = false at hdisabled
    rw [henbl] at hdisabled
    apply h.disabled
    split at hdisabled
    · cases hdisabled
    · exact hdisabled

/-- An accepted address is counted up, to the last one. -/
theorem intAddrNext_of_fire (h : Counted last n s)
    (hfire : (s.intEnblReg && intReadyWire0 s) = true) :
    (intAddrNext s).toNat =
      if s.intAddrReg.toNat < last then s.intAddrReg.toNat + 1
      else if p.continuous then 0
      else last := by
  obtain ⟨henbl, hready⟩ := Bool.and_eq_true_iff.mp hfire
  have hle := h.addr_le
  by_cases hlt : s.intAddrReg.toNat < last
  · have hnext : intAddrNext s = s.intAddrReg + 1 := by
      simp [intAddrNext, hready, henbl, h.intLastWire_eq, h.intCompWire_eq, hlt,
        Nat.ne_of_lt hlt]
    rw [hnext, if_pos hlt]
    exact toNat_add_one_of_lt (h.data ▸ hlt)
  · have hlast : s.intAddrReg.toNat = last := by omega
    cases hcontinuous : p.continuous <;>
      simp [intAddrNext, hready, henbl, h.intLastWire_eq, h.intCompWire_eq,
        hlast, hcontinuous]

theorem intEnblNext_of_fire (h : Counted last n s)
    (hfire : (s.intEnblReg && intReadyWire0 s) = true) :
    intEnblNext s =
      (p.continuous || decide (s.intAddrReg.toNat ≠ last)) := by
  obtain ⟨henbl, hready⟩ := Bool.and_eq_true_iff.mp hfire
  cases hcontinuous : p.continuous <;>
    simp [intEnblNext, hready, henbl, h.intLastWire_eq, hcontinuous]

theorem next_of_fire (h : Counted last n s) (hcfg : i.cfgData.toNat = last)
    (hfire : (s.intEnblReg && intReadyWire0 s) = true) :
    Counted last (n + 1) (next mem s i) := by
  have hat := h.addr_of_enbl (Bool.and_eq_true_iff.mp hfire).1
  have hle := h.addr_le
  rw [address] at hat
  refine ⟨hcfg, ?_, ?_, ?_, ?_⟩
  · change (intAddrNext s).toNat = _
    rw [h.intAddrNext_of_fire hfire, succ_mod_succ]
    cases hcontinuous : p.continuous with
    | true =>
        rw [hcontinuous, if_pos rfl] at hat
        rw [hat]
        rfl
    | false =>
        rw [hcontinuous, if_neg Bool.false_ne_true] at hat
        simp only [Bool.false_eq_true, if_false]
        split_ifs <;> omega
  · intro hstop
    rw [hstop, if_neg Bool.false_ne_true] at hat
    omega
  · rintro ⟨hstop, hn⟩
    rw [hstop, if_neg Bool.false_ne_true] at hat
    have hlast : s.intAddrReg.toNat = last := by omega
    change intEnblNext s = false
    rw [h.intEnblNext_of_fire hfire, hstop, hlast]
    simp
  · intro hdisabled
    change intEnblNext s = false at hdisabled
    rw [h.intEnblNext_of_fire hfire, Bool.or_eq_false_iff] at hdisabled
    obtain ⟨hstop, hlast⟩ := hdisabled
    rw [hstop, if_neg Bool.false_ne_true] at hat
    have hlast' : s.intAddrReg.toNat = last := by simpa using hlast
    exact Or.inr ⟨hstop, by omega⟩

theorem next (h : Counted last n s) (hcfg : i.cfgData.toNat = last) :
    Counted last (n + (issued mem ⟨s, i⟩).length) (next mem s i) := by
  rw [issued, length_transfer]
  cases hfire : s.intEnblReg && intReadyWire0 s with
  | false => exact h.next_of_idle hcfg hfire
  | true => exact h.next_of_fire hcfg hfire

end Counted

/-! ## No bubbles -/

/-- Once words flow, in `k` cycles, the registers are filled up to the last. -/
structure Flowing (last n k : ℕ) (s : State p) : Prop where
  enbl : k ≤ 2 → s.intEnblReg = false → Ended p last n
  buf0 : k ≤ 1 → s.buf0.intValidReg = false → s.intEnblReg = false
  buf2 : k = 0 → s.buf2.intValidReg = false →
    s.buf0.intValidReg = false ∧ s.buf1.intReadyReg = true

namespace Flowing

variable {last n k : ℕ} {s : State p} {mem : Memory p} {i : Input p}

/-- A reader that is not enabled now is enabled after the edge, unless it has
stopped. -/
theorem ended_of_disabled (hcounted : Counted last n s) (hlast : 1 ≤ last)
    (hcfg : i.cfgData.toNat = last)
    (hdisabled : (next mem s i).intEnblReg = false) :
    Ended p last (n + (issued mem ⟨s, i⟩).length) := by
  have hnext : Counted last (n + (issued mem ⟨s, i⟩).length) (next mem s i) :=
    hcounted.next hcfg
  rcases hnext.disabled hdisabled with hzero | hended
  · have hn : n = 0 := by omega
    have haddr : s.intAddrReg.toNat = 0 := by
      rw [hcounted.addr, hn]
      simp
    have hcomp : intCompWire s = true := by
      rw [hcounted.intCompWire_eq, haddr]
      exact decide_eq_true hlast
    have henbl : intEnblNext s = true := by
      simp [intEnblNext, intLastWire, hcomp]
    exact Bool.noConfusion (henbl.symm.trans hdisabled)
  · exact hended

theorem issued_of_disabled (mem : Memory p) (i : Input p)
    (henbl : s.intEnblReg = false) : issued mem ⟨s, i⟩ = [] := by
  rw [issued, henbl, transfer_false_left]

theorem next (h : Flowing last n k s) (hcounted : Counted last n s)
    (hlast : 1 ≤ last) (hcfg : i.cfgData.toNat = last) :
    Flowing last (n + (issued mem ⟨s, i⟩).length) (k - 1) (next mem s i) := by
  refine ⟨?_, ?_, ?_⟩
  · intro _ hdisabled
    exact ended_of_disabled hcounted hlast hcfg hdisabled
  · intro hk hempty
    have hempty' : (if intReadyWire0 s then s.intEnblReg
        else s.buf0.intValidReg) = false := hempty
    split at hempty'
    next =>
      have hended := h.enbl (by omega) hempty'
      have hnext : Counted last (n + (issued mem ⟨s, i⟩).length)
          (AxisBramReader.next mem s i) := hcounted.next hcfg
      apply hnext.ended
      rw [issued_of_disabled mem i hempty']
      exact hended
    next hstall =>
      obtain ⟨hvalid, -⟩ := OutputBuffer.inReady_eq_false_iff.mp
        (eq_false_of_ne_true hstall)
      exact Bool.noConfusion (hvalid.symm.trans hempty')
  · intro hk hempty
    have hempty' : (if intReadyWire2 s i then
        s.buf1.outValid s.buf0.outValid else s.buf2.intValidReg) = false :=
      hempty
    split at hempty'
    next =>
      obtain ⟨hready, hvalid⟩ := Bool.or_eq_false_iff.mp hempty'
      have henbl := h.buf0 (by omega) hvalid
      have hready0 : intReadyWire0 s = true := by
        by_contra hstall
        obtain ⟨hfull, -⟩ := OutputBuffer.inReady_eq_false_iff.mp
          (eq_false_of_ne_true hstall)
        exact Bool.noConfusion (hfull.symm.trans hvalid)
      constructor
      · change (if intReadyWire0 s then s.intEnblReg
          else s.buf0.intValidReg) = false
        rw [hready0, henbl]
        rfl
      · change (if s.buf1.intValidWire s.buf0.outValid then intReadyWire2 s i
          else s.buf1.intReadyReg) = true
        rw [show s.buf1.intValidWire s.buf0.outValid = false from hempty']
        simpa using hready
    next hstall =>
      obtain ⟨hvalid, -⟩ := OutputBuffer.inReady_eq_false_iff.mp
        (eq_false_of_ne_true hstall)
      exact Bool.noConfusion (hvalid.symm.trans hempty')

/-- With no word at the output and none to come in time, there is none left. -/
theorem drained (h : Flowing last n 0 s) (hempty : s.buf2.intValidReg = false) :
    s.intEnblReg = false ∧ contents s = [] ∧ Ended p last n := by
  obtain ⟨hvalid, hready⟩ := h.buf2 rfl hempty
  have henbl := h.buf0 (Nat.zero_le 1) hvalid
  have hstage : (stage0 s).contents = [] :=
    OutputBuffer.contents_eq_nil_iff.mpr hvalid
  refine ⟨henbl, ?_, h.enbl (Nat.zero_le 2) henbl⟩
  rw [contents, OutputBuffer.contents_eq_nil_iff.mpr hempty,
    InputBuffer.contents_eq_nil_iff.mpr hready, hstage]
  rfl

end Flowing

/-! ## Runs -/

/-- The first `n` words issued. -/
def words (mem : Memory p) (last n : ℕ) :
    List (BitVec (p.axisTdataWidth + 1)) :=
  (List.range n).map fun k => wordAt mem last (address p last k)

theorem words_add_one (mem : Memory p) (last n : ℕ) :
    words mem last (n + 1) =
      words mem last n ++ [wordAt mem last (address p last n)] := by
  rw [words, List.range_succ, List.map_append]
  rfl

def ready (c : Cycle (State p) (Input p)) : Bool := c.input.mAxisTready

/-- The cycles so far have issued `n` words; after three of them every ready
cycle takes a word, unless there is none left. -/
structure Books (mem : Memory p) (last n : ℕ)
    (past : List (Cycle (State p) (Input p))) (s : State p) : Prop where
  words : past.flatMap delivered ++ contents s = words mem last n
  counted : Counted last n s
  flowing : Flowing last n (3 - past.length) s
  progress : past.countP ready ≤
      (past.flatMap delivered).length + min past.length 3 ∨
    s.intEnblReg = false ∧ contents s = [] ∧ Ended p last n

namespace Books

variable {mem : Memory p} {last n : ℕ} {past : List (Cycle (State p) (Input p))}
  {s : State p} {i : Input p}

theorem next_words (h : Books mem last n past s) (i : Input p) :
    (past ++ [Cycle.mk s i]).flatMap delivered ++ contents (next mem s i) =
      AxisBramReader.words mem last (n + (issued mem ⟨s, i⟩).length) := by
  have hlossless : contents s ++ issued mem ⟨s, i⟩ =
      delivered ⟨s, i⟩ ++ contents (next mem s i) := next_lossless mem s i
  have hissued := h.counted.issued_eq mem i
  rw [List.flatMap_append, List.append_assoc, List.flatMap_singleton,
    ← hlossless, ← List.append_assoc, h.words, hissued, length_transfer,
    transfer]
  cases s.intEnblReg && intReadyWire0 s with
  | false => simp
  | true => exact (words_add_one mem last n).symm

/-- A reader that has delivered everything stays as it is. -/
theorem next_drained (h : Counted last n s) (hcfg : i.cfgData.toNat = last)
    (henbl : s.intEnblReg = false) (hempty : contents s = [])
    (hended : Ended p last n) :
    (next mem s i).intEnblReg = false ∧ contents (next mem s i) = [] ∧
      Ended p last (n + (issued mem ⟨s, i⟩).length) := by
  have hissued := Flowing.issued_of_disabled mem i henbl
  have hnext : Counted last (n + (issued mem ⟨s, i⟩).length) (next mem s i) :=
    h.next hcfg
  have hlossless : contents s ++ issued mem ⟨s, i⟩ =
      delivered ⟨s, i⟩ ++ contents (next mem s i) := next_lossless mem s i
  rw [hempty, hissued] at hlossless
  rw [hissued] at hnext ⊢
  exact ⟨hnext.ended hended, (List.append_eq_nil_iff.mp hlossless.symm).2, hended⟩

theorem next_progress (h : Books mem last n past s)
    (hcfg : i.cfgData.toNat = last) :
    (past ++ [Cycle.mk s i]).countP ready ≤
        ((past ++ [Cycle.mk s i]).flatMap delivered).length +
          min (past ++ [Cycle.mk s i]).length 3 ∨
      (next mem s i).intEnblReg = false ∧ contents (next mem s i) = [] ∧
        Ended p last (n + (issued mem ⟨s, i⟩).length) := by
  have hbound := Bool.toNat_le (ready ⟨s, i⟩)
  rcases h.progress with hcount | ⟨henbl, hempty, hended⟩
  · rw [countP_snoc, length_flatMap_snoc, List.length_append,
      List.length_singleton]
    by_cases hearly : past.length < 3
    · left
      omega
    · have hflowing := h.flowing
      rw [show 3 - past.length = 0 by omega] at hflowing
      cases hvalid : s.buf2.intValidReg with
      | true =>
          left
          have hdelivered : (delivered ⟨s, i⟩).length = (ready ⟨s, i⟩).toNat := by
            rw [delivered, length_transfer, mAxisTvalid, OutputBuffer.outValid,
              hvalid, Bool.true_and]
            rfl
          omega
      | false =>
          right
          obtain ⟨henbl, hempty, hended⟩ := hflowing.drained hvalid
          exact next_drained h.counted hcfg henbl hempty hended
  · right
    exact next_drained h.counted hcfg henbl hempty hended

theorem next (h : Books mem last n past s) (hlast : 1 ≤ last)
    (hcfg : i.cfgData.toNat = last) :
    Books mem last (n + (issued mem ⟨s, i⟩).length) (past ++ [⟨s, i⟩])
      (next mem s i) where
  words := h.next_words i
  counted := h.counted.next hcfg
  flowing := by
    rw [List.length_append, List.length_singleton]
    exact h.flowing.next h.counted hlast hcfg
  progress := h.next_progress hcfg

end Books

/-- The first edge out of reset loads `cfg_data`. -/
theorem IsReset.books {s : State p} (h : IsReset s) (mem : Memory p)
    (i : Input p) :
    delivered ⟨s, i⟩ = [] ∧ Books mem i.cfgData.toNat 0 [] (next mem s i) := by
  have hcomp : intCompWire s = false := by
    rw [intCompWire, h.intAddrReg, h.intDataReg]
    simp
  have hvalid : s.buf1.outValid s.buf0.outValid = false := by
    rw [InputBuffer.outValid, InputBuffer.intValidWire, h.buf1,
      OutputBuffer.outValid, h.buf0]
    rfl
  have henbl : (next mem s i).intEnblReg = false := by
    change intEnblNext s = false
    simp [intEnblNext, h.intEnblReg, hcomp]
  have haddr : (next mem s i).intAddrReg = 0 := by
    change intAddrNext s = 0
    simp [intAddrNext, h.intEnblReg, h.intAddrReg]
  have hdelivered : delivered ⟨s, i⟩ = [] := by
    rw [delivered, mAxisTvalid, OutputBuffer.outValid, h.buf2,
      transfer_false_left]
  have hempty : contents s = [] := by
    have hstage : (stage0 s).contents = [] :=
      OutputBuffer.contents_eq_nil_iff.mpr h.buf0
    rw [contents, OutputBuffer.contents_eq_nil_iff.mpr h.buf2,
      InputBuffer.contents_eq_nil_iff.mpr h.buf1, hstage]
    rfl
  have hlossless : contents s ++ issued mem ⟨s, i⟩ =
      delivered ⟨s, i⟩ ++ contents (next mem s i) := next_lossless mem s i
  rw [hempty, hdelivered, Flowing.issued_of_disabled mem i h.intEnblReg]
    at hlossless
  have hflowing : Flowing i.cfgData.toNat 0 3 (next mem s i) :=
    ⟨fun h => absurd h (by decide), fun h => absurd h (by decide),
      fun h => absurd h (by decide)⟩
  refine ⟨hdelivered, hlossless.symm, ?_, hflowing, Or.inl (Nat.zero_le _)⟩
  refine ⟨rfl, ?_, fun _ => Nat.zero_le _, fun _ => henbl,
    fun _ => Or.inl rfl⟩
  rw [haddr]
  simp

theorem run_books {mem : Memory p} {last : ℕ} {s : State p}
    (h : Books mem last 0 [] s) (hlast : 1 ≤ last) (inputs : List (Input p))
    (hcfg : ∀ i ∈ inputs, i.cfgData.toNat = last) :
    ∃ n, Books mem last n (trace (next mem) s inputs) (run (next mem) s inputs) :=
  trace_induction_of (fun past s => ∃ n, Books mem last n past s)
    (fun c => c.input.cfgData.toNat = last) ⟨0, h⟩
    (fun _ _ _ ⟨_, hbooks⟩ hc => ⟨_, hbooks.next hlast hc⟩) inputs
    (forall_trace_input _ _ hcfg)

theorem flatMap_transferred (cycles : List (Cycle (State p) (Input p))) :
    cycles.flatMap transferred =
      (cycles.flatMap delivered).map Beat.ofWord := by
  rw [List.map_flatMap]
  exact congrArg (cycles.flatMap ·) (funext transferred_eq)

theorem map_addresses (mem : Memory p) (last m : ℕ) :
    (addresses p last m).map (wordAt mem last) =
      words mem last (if p.continuous then m else min m (last + 1)) := by
  rw [addresses, List.map_map]
  rfl

/-- The words delivered are the first ones. -/
theorem Books.delivered_eq {mem : Memory p} {last n : ℕ}
    {past : List (Cycle (State p) (Input p))} {s : State p}
    (h : Books mem last n past s) :
    ∃ m, past.countP ready ≤ m + 3 ∧
      past.flatMap delivered = (addresses p last m).map (wordAt mem last) := by
  have hlength := congrArg List.length h.words
  rw [List.length_append, AxisBramReader.words, List.length_map,
    List.length_range] at hlength
  rcases h.progress with hcount | ⟨-, hempty, hstop, hn⟩
  · refine ⟨(past.flatMap delivered).length, by omega, ?_⟩
    have hall : (if p.continuous then (past.flatMap delivered).length
        else min (past.flatMap delivered).length (last + 1)) =
          (past.flatMap delivered).length := by
      split
      next => rfl
      next hstop =>
        have hbound := h.counted.bound (eq_false_of_ne_true hstop)
        omega
    have htake := congrArg (List.take (past.flatMap delivered).length) h.words
    rw [List.take_left, AxisBramReader.words, ← List.map_take,
      List.take_range, Nat.min_eq_left (by omega)] at htake
    rw [map_addresses, hall]
    exact htake
  · refine ⟨max (last + 1) (past.countP ready), by omega, ?_⟩
    have hwords := h.words
    rw [hempty, List.append_nil, hn] at hwords
    rw [map_addresses, hstop, if_neg Bool.false_ne_true,
      Nat.min_eq_right (by omega)]
    exact hwords

/-- What the core shows of the word at an address. -/
def beat (mem : Memory p) (last a : ℕ) : Beat p :=
  Beat.ofWord (wordAt mem last a)

/-- From reset, with a constant `cfg_data`, the beats are the words of the
memory in order, each once and the last one flagged, and all ready cycles but
four get one until there is none left.  A word reaches `m_axis` as it is when
the two widths are the same. -/
theorem streams_memory (mem : Memory p) {last : BitVec p.bramAddrWidth}
    (hlast : 1 ≤ last.toNat) {s : State p} (h : IsReset s)
    {inputs : List (Input p)} (hcfg : ∀ i ∈ inputs, i.cfgData = last) :
    ∃ m, inputs.countP Input.mAxisTready ≤ m + 4 ∧
      (trace (next mem) s inputs).flatMap transferred =
        (addresses p last.toNat m).map (beat mem last.toNat) ∧
      (p.axisTdataWidth = p.bramDataWidth → ∀ a,
        beat mem last.toNat a =
          ⟨decide (a = last.toNat), (mem (BitVec.ofNat _ a)).setWidth _⟩) := by
  have hbeat : p.axisTdataWidth = p.bramDataWidth → ∀ a,
      beat mem last.toNat a =
        ⟨decide (a = last.toNat), (mem (BitVec.ofNat _ a)).setWidth _⟩ :=
    fun hwidth a => ofWord_packed hwidth _ _
  cases inputs with
  | nil => exact ⟨0, Nat.zero_le _, by simp [addresses], hbeat⟩
  | cons i inputs =>
      rw [List.forall_mem_cons] at hcfg
      obtain ⟨hfirst, hbooks⟩ := h.books mem i
      rw [hcfg.1] at hbooks
      obtain ⟨n, hrun⟩ := run_books hbooks hlast inputs
        fun j hj => congrArg BitVec.toNat (hcfg.2 j hj)
      obtain ⟨m, hcount, hdelivered⟩ := hrun.delivered_eq
      have hinputs : (trace (next mem) (next mem s i) inputs).countP ready =
          inputs.countP Input.mAxisTready := by
        conv_rhs => rw [← map_input_trace (next mem) (next mem s i) inputs]
        rw [List.countP_map]
        rfl
      have hone := Bool.toNat_le i.mAxisTready
      refine ⟨m, ?_, ?_, hbeat⟩
      · rw [List.countP_cons]
        split <;> omega
      · rw [flatMap_transferred, trace_cons, List.flatMap_cons, hfirst,
          List.nil_append, hdelivered, List.map_map]
        rfl

/-- Two words, a stall before the second one, and then nothing. -/
theorem streams_memory_stalled :
    let p : Params := ⟨8, 8, 2, false⟩
    let mem : Memory p := fun a => 5 + a.setWidth 8
    let last : BitVec p.bramAddrWidth := 1
    let s : State p := ⟨0, 0, false, ⟨true, false⟩, ⟨3, true⟩, ⟨4, false⟩, 9⟩
    let inputs : List (Input p) :=
      (List.range 12).map fun k => ⟨last, decide (k ≠ 5)⟩
    (∃ m, inputs.countP Input.mAxisTready ≤ m + 4 ∧
      (trace (next mem) s inputs).flatMap transferred =
        (addresses p last.toNat m).map (beat mem last.toNat) ∧
      (p.axisTdataWidth = p.bramDataWidth → ∀ a,
        beat mem last.toNat a =
          ⟨decide (a = last.toNat), (mem (BitVec.ofNat _ a)).setWidth _⟩)) ∧
      (trace (next mem) s inputs).flatMap transferred =
        [⟨false, 5⟩, ⟨true, 6⟩] := by
  refine ⟨streams_memory _ (by decide) ⟨rfl, rfl, rfl, rfl, rfl, rfl⟩ ?_,
    by decide⟩
  intro i hi
  obtain ⟨k, -, rfl⟩ := List.mem_map.mp hi
  rfl

end RedPitayaNotes.AxisBramReader
