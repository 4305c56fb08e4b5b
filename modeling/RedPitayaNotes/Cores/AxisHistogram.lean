import RedPitayaNotes.Support.BlockRam
import RedPitayaNotes.Support.Clocked
import RedPitayaNotes.Support.Elastic

/-!
# The axis_histogram core

`cores/axis_histogram.v` adds one to the word of a memory that a sample
addresses: it reads in the cycle of the handshake, adds in the next one and
writes back in the third.  A word of all ones is left as it is.
-/

namespace RedPitayaNotes.AxisHistogram

open Clocked Elastic BlockRam

/-- `BRAM_DATA_WIDTH` is given in bytes, one for each write enable. -/
structure Params where
  axisTdataWidth : ℕ := 16
  bramDataBytes : ℕ := 4
  bramAddrWidth : ℕ := 14

abbrev Params.bramDataWidth (p : Params) : ℕ := 8 * p.bramDataBytes

structure Regs (p : Params) where
  intAddrReg : BitVec p.bramAddrWidth
  intDataReg : BitVec p.bramDataWidth
  intCaseReg : BitVec 2
  intTreadyReg : Bool
  intWeReg : Bool

structure Input (p : Params) where
  sAxisTdata : BitVec p.axisTdataWidth
  sAxisTvalid : Bool

variable {p : Params}

/-- `s_axis_tdata[BRAM_ADDR_WIDTH-1:0]` -/
def binOf (sAxisTdata : BitVec p.axisTdataWidth) : BitVec p.bramAddrWidth :=
  sAxisTdata.setWidth p.bramAddrWidth

namespace Regs

variable (r : Regs p) (i : Input p)

def bBramEn : Bool := r.intWeReg || i.sAxisTvalid

def bBramWe : BitVec p.bramDataBytes :=
  if r.intWeReg then BitVec.allOnes p.bramDataBytes else 0

def bBramAddr : BitVec p.bramAddrWidth :=
  if r.intWeReg then r.intAddrReg else binOf i.sAxisTdata

def next (bBramRdata : BitVec p.bramDataWidth) : Regs p :=
  match r.intCaseReg with
  | 0#2 =>
      if i.sAxisTvalid then
        { r with
          intAddrReg := binOf i.sAxisTdata
          intTreadyReg := false
          intCaseReg := 1#2 }
      else r
  | 1#2 =>
      { r with
        intDataReg := bBramRdata + 1
        intWeReg := bBramRdata != BitVec.allOnes p.bramDataWidth
        intCaseReg := 2#2 }
  | 2#2 =>
      { r with
        intTreadyReg := true
        intWeReg := false
        intCaseReg := 0#2 }
  | _ => r

end Regs

/-- The registers after an edge in reset. -/
def reset (p : Params) : Regs p := ⟨0, 0, 0, true, false⟩

/-- The core and the memory on its port. -/
structure State (p : Params) where
  regs : Regs p
  ram : Ram p.bramAddrWidth p.bramDataBytes

def next (mode : Mode) (s : State p) (i : Input p) : State p where
  regs := s.regs.next i s.ram.out
  ram := s.ram.step mode (s.regs.bBramEn i) s.regs.bBramWe (s.regs.bBramAddr i)
    s.regs.intDataReg

/-- The samples accepted on `s_axis`. -/
def accepted (c : Cycle (State p) (Input p)) : List (BitVec p.axisTdataWidth) :=
  transfer c.input.sAxisTvalid c.state.regs.intTreadyReg c.input.sAxisTdata

def idle (s : State p) : Bool := s.regs.intCaseReg == 0

/-! ## Bins -/

/-- Add one, and stay at the largest value. -/
def bump {w : ℕ} (x : BitVec w) : BitVec w :=
  if x = BitVec.allOnes w then x else x + 1

theorem toNat_bump {w : ℕ} (x : BitVec w) :
    (bump x).toNat = min (x.toNat + 1) (2 ^ w - 1) := by
  have hlt := x.isLt
  have htop : x = BitVec.allOnes w ↔ x.toNat = 2 ^ w - 1 := by
    rw [← BitVec.toNat_inj, BitVec.toNat_allOnes]
  unfold bump
  split
  next h =>
      rw [htop.mp h]
      omega
  next h =>
      rw [htop] at h
      change (x + BitVec.ofNat w 1).toNat = _
      rw [BitVec.toNat_add, BitVec.toNat_ofNat, Nat.add_mod_mod,
        Nat.mod_eq_of_lt (by omega)]
      omega

/-- A memory after some samples have been counted. -/
def tally (mem : BitVec p.bramAddrWidth → BitVec p.bramDataWidth)
    (xs : List (BitVec p.axisTdataWidth)) :
    BitVec p.bramAddrWidth → BitVec p.bramDataWidth :=
  xs.foldl (fun m x b => if b = binOf x then bump (m b) else m b) mem

theorem tally_snoc (mem : BitVec p.bramAddrWidth → BitVec p.bramDataWidth)
    (xs : List (BitVec p.axisTdataWidth)) (x : BitVec p.axisTdataWidth)
    (b : BitVec p.bramAddrWidth) :
    tally mem (xs ++ [x]) b =
      if b = binOf x then bump (tally mem xs b) else tally mem xs b := by
  rw [tally, List.foldl_concat]
  rfl

theorem toNat_tally (mem : BitVec p.bramAddrWidth → BitVec p.bramDataWidth)
    (xs : List (BitVec p.axisTdataWidth)) (b : BitVec p.bramAddrWidth) :
    (tally mem xs b).toNat =
      min ((mem b).toNat + xs.countP fun x => binOf x = b)
        (2 ^ p.bramDataWidth - 1) := by
  induction xs using List.reverseRecOn with
  | nil =>
      have hlt := (mem b).isLt
      exact (Nat.min_eq_left (Nat.le_sub_one_of_lt hlt)).symm
  | append_singleton xs x ih =>
      rw [tally_snoc, List.countP_append, List.countP_singleton]
      by_cases hb : binOf x = b
      · rw [if_pos hb.symm, toNat_bump, ih]
        simp only [hb, decide_true, if_true]
        omega
      · rw [if_neg (Ne.symm hb), ih]
        simp [hb]

/-! ## The three states -/

/-- What the core is doing, with the samples it has accepted. -/
inductive Phase (mem : BitVec p.bramAddrWidth → BitVec p.bramDataWidth) :
    List (BitVec p.axisTdataWidth) → State p → Prop where
  | idle {xs s} (hcase : s.regs.intCaseReg = 0) (hready : s.regs.intTreadyReg = true)
      (hwe : s.regs.intWeReg = false) (hmem : s.ram.mem = tally mem xs) :
      Phase mem xs s
  | read {xs x s} (hcase : s.regs.intCaseReg = 1)
      (hready : s.regs.intTreadyReg = false) (hwe : s.regs.intWeReg = false)
      (hmem : s.ram.mem = tally mem xs) (haddr : s.regs.intAddrReg = binOf x)
      (hout : s.ram.out = tally mem xs (binOf x)) : Phase mem (xs ++ [x]) s
  | write {xs x s} (hcase : s.regs.intCaseReg = 2)
      (hready : s.regs.intTreadyReg = false)
      (hmem : s.ram.mem = tally mem xs) (haddr : s.regs.intAddrReg = binOf x)
      (hdata : s.regs.intDataReg = tally mem xs (binOf x) + 1)
      (hwe : s.regs.intWeReg =
        (tally mem xs (binOf x) != BitVec.allOnes p.bramDataWidth)) :
      Phase mem (xs ++ [x]) s

section Cycles

variable {mem : BitVec p.bramAddrWidth → BitVec p.bramDataWidth}
  {xs : List (BitVec p.axisTdataWidth)} {s : State p}

theorem accepted_of_busy (h : s.regs.intTreadyReg = false) (i : Input p) :
    accepted ⟨s, i⟩ = [] := by
  rw [accepted, h, transfer_false_right]

/-- An edge at which the port does not write. -/
theorem ram_next_of_not_we (mode : Mode) (h : s.regs.intWeReg = false) (i : Input p) :
    (next mode s i).ram.mem = s.ram.mem := by
  change (s.ram.step mode _ s.regs.bBramWe _ _).mem = _
  rw [Regs.bBramWe, h]
  exact Ram.step_mem_of_no_lane mode _ _ _ _

/-- The edge that writes a word back, or leaves it at its largest value. -/
theorem ram_next_of_write (mode : Mode) {x : BitVec p.axisTdataWidth}
    (hmem : s.ram.mem = tally mem xs) (haddr : s.regs.intAddrReg = binOf x)
    (hdata : s.regs.intDataReg = tally mem xs (binOf x) + 1)
    (hwe : s.regs.intWeReg =
      (tally mem xs (binOf x) != BitVec.allOnes p.bramDataWidth)) (i : Input p) :
    (next mode s i).ram.mem = tally mem (xs ++ [x]) := by
  funext b
  rw [tally_snoc]
  cases hfull : s.regs.intWeReg with
  | false =>
      rw [hfull, eq_comm, bne_eq_false_iff_eq] at hwe
      rw [ram_next_of_not_we mode hfull, hmem, bump]
      split
      next hb => rw [hb, if_pos hwe]
      next => rfl
  | true =>
      rw [hfull, eq_comm, bne_iff_ne] at hwe
      change (s.ram.step mode _ s.regs.bBramWe _ _).mem b = _
      rw [Regs.bBramEn, Regs.bBramWe, Regs.bBramAddr, hfull, Bool.true_or, if_pos rfl,
        if_pos rfl, Ram.step_mem_of_all_lanes, haddr, hdata, hmem, bump]
      split
      next hb => rw [hb, if_neg hwe]
      next => rfl

theorem Phase.next (h : Phase mem xs s) (mode : Mode) (i : Input p) :
    Phase mem (xs ++ accepted ⟨s, i⟩) (AxisHistogram.next mode s i) := by
  cases h with
  | idle hcase hready hwe hmem =>
      have hmem' := (ram_next_of_not_we mode hwe i).trans hmem
      cases hvalid : i.sAxisTvalid with
      | false =>
          have hregs : (AxisHistogram.next mode s i).regs = s.regs := by
            simp [AxisHistogram.next, Regs.next, hcase, hvalid]
          have hnone : accepted ⟨s, i⟩ = [] := by
            rw [accepted, hvalid, transfer_false_left]
          rw [hnone, List.append_nil]
          exact .idle (by rw [hregs, hcase]) (by rw [hregs, hready])
            (by rw [hregs, hwe]) hmem'
      | true =>
          have hone : accepted ⟨s, i⟩ = [i.sAxisTdata] := by
            rw [accepted, hvalid, hready, transfer_true_true]
          have hout : (AxisHistogram.next mode s i).ram.out =
              tally mem xs (binOf i.sAxisTdata) := by
            change (s.ram.step mode _ s.regs.bBramWe _ _).out = _
            rw [Regs.bBramEn, Regs.bBramWe, Regs.bBramAddr, hwe, hvalid, ← hmem]
            exact Ram.step_out_of_no_lane mode _ _ _
          rw [hone]
          exact .read (by simp [AxisHistogram.next, Regs.next, hcase, hvalid])
            (by simp [AxisHistogram.next, Regs.next, hcase, hvalid])
            (by simp [AxisHistogram.next, Regs.next, hcase, hvalid, hwe]) hmem'
            (by simp [AxisHistogram.next, Regs.next, hcase, hvalid]) hout
  | @read xs x _ hcase hready hwe hmem haddr hout =>
      rw [accepted_of_busy hready, List.append_nil]
      exact .write (by simp [AxisHistogram.next, Regs.next, hcase])
        (by simp [AxisHistogram.next, Regs.next, hcase, hready])
        ((ram_next_of_not_we mode hwe i).trans hmem)
        (by simp [AxisHistogram.next, Regs.next, hcase, haddr])
        (by simp [AxisHistogram.next, Regs.next, hcase, hout])
        (by simp [AxisHistogram.next, Regs.next, hcase, hout])
  | @write xs x _ hcase hready hmem haddr hdata hwe =>
      rw [accepted_of_busy hready, List.append_nil]
      exact .idle (by simp [AxisHistogram.next, Regs.next, hcase])
        (by simp [AxisHistogram.next, Regs.next, hcase])
        (by simp [AxisHistogram.next, Regs.next, hcase])
        (ram_next_of_write mode hmem haddr hdata hwe i)

end Cycles

/-! ## Runs -/

theorem phase_run (mode : Mode) (ram : Ram p.bramAddrWidth p.bramDataBytes)
    (inputs : List (Input p)) :
    Phase ram.mem ((trace (next mode) ⟨reset p, ram⟩ inputs).flatMap accepted)
      (run (next mode) ⟨reset p, ram⟩ inputs) := by
  refine trace_induction
    (fun past s => Phase ram.mem (past.flatMap accepted) s) ?_ ?_ inputs
  · exact .idle rfl rfl rfl rfl
  · intro past s i h
    rw [List.flatMap_append, List.flatMap_singleton]
    exact h.next mode i

/-- The samples counted in each bin, the one their low bits name, up to the
largest value a word holds. -/
def Counted (mem : BitVec p.bramAddrWidth → BitVec p.bramDataWidth)
    (xs : List (BitVec p.axisTdataWidth)) (s : State p) : Prop :=
  ∀ b, (s.ram.mem b).toNat =
    min ((mem b).toNat +
        xs.countP fun x => x.toNat % 2 ^ p.bramAddrWidth = b.toNat)
      (2 ^ p.bramDataWidth - 1)

theorem binOf_eq_iff {x : BitVec p.axisTdataWidth} {b : BitVec p.bramAddrWidth} :
    binOf x = b ↔ x.toNat % 2 ^ p.bramAddrWidth = b.toNat := by
  rw [binOf, ← BitVec.toNat_inj, BitVec.toNat_setWidth]

theorem counted_of_tally {mem : BitVec p.bramAddrWidth → BitVec p.bramDataWidth}
    {xs : List (BitVec p.axisTdataWidth)} {s : State p}
    (h : s.ram.mem = tally mem xs) : Counted mem xs s := by
  intro b
  rw [h, toNat_tally]
  simp only [binOf_eq_iff]

/-- An idle core has counted every sample it has accepted.  Otherwise only the
last one is still to be counted, and the core is idle after one more cycle or
two, before it accepts another. -/
structure Histogram (mode : Mode) (ram : Ram p.bramAddrWidth p.bramDataBytes)
    (xs : List (BitVec p.axisTdataWidth)) (s : State p) : Prop where
  ready : s.regs.intTreadyReg = idle s
  idle : idle s = true → Counted ram.mem xs s
  busy : AxisHistogram.idle s = false →
    ∃ before x, xs = before ++ [x] ∧ Counted ram.mem before s
  soon : ∀ i j, AxisHistogram.idle s = true ∨
    AxisHistogram.idle (next mode s i) = true ∨
      ((next mode s i).regs.intTreadyReg = false ∧
        AxisHistogram.idle (next mode (next mode s i) j) = true)

theorem histogram (mode : Mode) (ram : Ram p.bramAddrWidth p.bramDataBytes)
    (inputs : List (Input p)) :
    Histogram mode ram ((trace (next mode) ⟨reset p, ram⟩ inputs).flatMap accepted)
      (run (next mode) ⟨reset p, ram⟩ inputs) := by
  have hphase := phase_run mode ram inputs
  revert hphase
  generalize run (next mode) ⟨reset p, ram⟩ inputs = s
  generalize (trace (next mode) ⟨reset p, ram⟩ inputs).flatMap accepted = xs
  intro hphase
  cases hphase with
  | idle hcase hready hwe hmem =>
      have hidle : idle s = true := by rw [idle, hcase]; rfl
      refine ⟨by rw [hready, hidle], fun _ => counted_of_tally hmem, ?_, fun _ _ => Or.inl hidle⟩
      intro hbusy
      rw [hidle] at hbusy
      cases hbusy
  | @read before x _ hcase hready hwe hmem haddr hout =>
      have hbusy : idle s = false := by rw [idle, hcase]; rfl
      refine ⟨by rw [hready, hbusy], ?_, fun _ => ⟨before, x, rfl, counted_of_tally hmem⟩, ?_⟩
      · intro hidle
        rw [hbusy] at hidle
        cases hidle
      · intro i j
        refine Or.inr (Or.inr ⟨?_, ?_⟩)
        · simp [next, Regs.next, hcase, hready]
        · simp [next, Regs.next, hcase, idle]
  | @write before x _ hcase hready hmem haddr hdata hwe =>
      have hbusy : idle s = false := by rw [idle, hcase]; rfl
      refine ⟨by rw [hready, hbusy], ?_, fun _ => ⟨before, x, rfl, counted_of_tally hmem⟩, ?_⟩
      · intro hidle
        rw [hbusy] at hidle
        cases hidle
      · intro i j
        refine Or.inr (Or.inl ?_)
        simp [next, Regs.next, hcase, idle]

/-- Samples of four bits for four bins of a byte.  Some wait until the core is
ready, others come and go before it is. -/
def fewSamples : List (Input ⟨4, 1, 2⟩) :=
  [⟨0x1, true⟩, ⟨0x2, true⟩, ⟨0x5, true⟩, ⟨0x5, true⟩, ⟨0, false⟩, ⟨0x7, true⟩,
    ⟨0x7, true⟩, ⟨0xf, true⟩, ⟨0xf, true⟩, ⟨0xb, true⟩, ⟨0x2, false⟩, ⟨0, false⟩]

/-- Bin 3 is one below its largest value. -/
def nearlyFull : Ram 2 1 := ⟨fun b => if b = 3 then 254 else 0, 0⟩

/-- Bin 1 counts the samples 1 and 5, bin 3 stops at 255 with the first of the
samples 7 and 11, and the samples that did not wait are not counted. -/
theorem histogram_fewSamples :
    let s := run (next .readFirst) ⟨reset ⟨4, 1, 2⟩, nearlyFull⟩ fewSamples
    s.ram.mem 0 = 0 ∧ s.ram.mem 1 = 2 ∧ s.ram.mem 2 = 0 ∧ s.ram.mem 3 = 255 := by
  have hcounted := (histogram .readFirst nearlyFull fewSamples).idle (by decide)
  exact ⟨BitVec.eq_of_toNat_eq ((hcounted 0).trans (by decide)),
    BitVec.eq_of_toNat_eq ((hcounted 1).trans (by decide)),
    BitVec.eq_of_toNat_eq ((hcounted 2).trans (by decide)),
    BitVec.eq_of_toNat_eq ((hcounted 3).trans (by decide))⟩

end RedPitayaNotes.AxisHistogram
