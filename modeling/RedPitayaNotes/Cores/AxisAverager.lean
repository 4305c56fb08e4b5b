import Mathlib.Algebra.BigOperators.Group.List.Basic
import Mathlib.Data.BitVec
import RedPitayaNotes.Support.Clocked
import RedPitayaNotes.Support.Counters
import RedPitayaNotes.Support.DelayLine
import RedPitayaNotes.Support.Elastic

/-!
# The axis_averager core

`cores/axis_averager.v` adds each sample to the sum of the samples at its place
in the rows before.  The sums of a row wait in a FIFO outside the core, which
delays them by `pre_data + 1` samples; after `tot_data + 1` samples the sums go
out and start again from zero.
-/

namespace RedPitayaNotes.AxisAverager

open Clocked Elastic Counters DelayLine

structure Params where
  axisTdataWidth : ℕ := 32
  cntrWidth : ℕ := 16

/-- The registers of the core and the words in the FIFO, the next one to be
read first. -/
structure State (p : Params) where
  intCntrReg : BitVec p.cntrWidth
  intRdenReg : Bool
  intTvalidReg : Bool
  fifo : List (BitVec p.axisTdataWidth)

/-- `emptyData` is what the FIFO shows while it holds nothing. -/
structure Input (p : Params) where
  preData : BitVec p.cntrWidth
  totData : BitVec p.cntrWidth
  sAxisTdata : BitVec p.axisTdataWidth
  sAxisTvalid : Bool
  emptyData : BitVec p.axisTdataWidth

variable {p : Params}

section Wires

variable (s : State p) (i : Input p)

def fifoReadData : BitVec p.axisTdataWidth := s.fifo.headD i.emptyData

/-- The flag is set while the FIFO holds `pre_data + 1` words. -/
def fifoProgFull : Bool := decide (i.preData.toNat + 1 ≤ s.fifo.length)

def intDataWire : BitVec p.axisTdataWidth :=
  if s.intTvalidReg then 0 else fifoReadData s i

/-- The sum, which is the same for signed and unsigned words. -/
def sumDataWire : BitVec p.axisTdataWidth := intDataWire s i + i.sAxisTdata

def mAxisTvalid : Bool := fifoProgFull s i && s.intTvalidReg && i.sAxisTvalid

def fifoReadRden : Bool := s.intRdenReg && i.sAxisTvalid

end Wires

/-- Of two assignments to a register the later one counts. -/
def next (s : State p) (i : Input p) : State p where
  intCntrReg :=
    if i.sAxisTvalid && s.intCntrReg == i.totData then 0
    else if i.sAxisTvalid then s.intCntrReg + 1
    else s.intCntrReg
  intRdenReg :=
    if i.sAxisTvalid && s.intCntrReg == i.preData then true else s.intRdenReg
  intTvalidReg :=
    if i.sAxisTvalid && s.intCntrReg == i.totData then true
    else if i.sAxisTvalid && s.intCntrReg == i.preData then false
    else s.intTvalidReg
  fifo :=
    (if fifoReadRden s i then s.fifo.tail else s.fifo) ++
      if i.sAxisTvalid then [sumDataWire s i] else []

/-- The registers after an edge in reset, with the FIFO empty. -/
def reset (p : Params) : State p := ⟨0, false, true, []⟩

/-- The samples accepted on `s_axis`, which is always ready. -/
def accepted (c : Cycle (State p) (Input p)) : List (BitVec p.axisTdataWidth) :=
  transfer c.input.sAxisTvalid true c.input.sAxisTdata

/-- The words marked valid on `m_axis`. -/
def marked (c : Cycle (State p) (Input p)) : List (BitVec p.axisTdataWidth) :=
  transfer (mAxisTvalid c.state c.input) true (fifoReadData c.state c.input)

/-! ## Sums

A period is `P` samples, in rows of `L`. -/

section Sums

variable {w : ℕ} (s : ℕ → BitVec w) (P L : ℕ)

/-- The samples at place `j` of the first `k` rows of period `q`. -/
def columnSum (q j k : ℕ) : BitVec w :=
  ((List.range k).map fun r => s (q * P + r * L + j)).sum

theorem columnSum_succ (q j k : ℕ) :
    columnSum s P L q j (k + 1) =
      columnSum s P L q j k + s (q * P + k * L + j) := by
  rw [columnSum, List.range_succ, List.map_append, List.sum_append,
    List.map_singleton, List.sum_singleton]
  rfl

/-- The sum of sample `n` and those at its place in the rows before. -/
def rowSum (n : ℕ) : BitVec w := columnSum s P L (n / P) (n % P % L) (n % P / L + 1)

variable {P L} {n : ℕ}

theorem rowSum_eq (n : ℕ) :
    rowSum s P L n =
      columnSum s P L (n / P) (n % P % L) (n % P / L) + s n := by
  have hplace : n / P * P + n % P / L * L + n % P % L = n := by
    rw [Nat.add_assoc, Nat.div_add_mod', Nat.div_add_mod']
  rw [rowSum, columnSum_succ, hplace]

/-- The first row of a period starts from zero. -/
theorem rowSum_of_lt (h : n % P < L) : rowSum s P L n = s n := by
  rw [rowSum_eq, Nat.div_eq_of_lt h]
  exact BitVec.zero_add (s n)

/-- The other rows add to the row before. -/
theorem rowSum_of_le (hP : 0 < P) (hL : 0 < L) (h : L ≤ n % P) :
    rowSum s P L n = rowSum s P L (n - L) + s n := by
  have hdiv := Nat.div_add_mod n P
  have hlt : n % P - L < P := Nat.lt_of_le_of_lt (Nat.sub_le _ _) (Nat.mod_lt n hP)
  have hsub : n - L = P * (n / P) + (n % P - L) := by omega
  obtain ⟨hquot, hrem⟩ := block_place hlt (n / P)
  rw [rowSum_eq, rowSum, hsub, hquot, hrem, ← Nat.mod_eq_sub_mod h,
    ← Nat.div_eq_sub_div hL h]

/-- What leaves the FIFO in the first row of a period are the sums of the
period before. -/
theorem rowSum_sub {K : ℕ} (hK : 0 < K) (hn : K * L ≤ n)
    (h : n % (K * L) < L) :
    rowSum s (K * L) L (n - L) =
      columnSum s (K * L) L ((n - K * L) / (K * L)) (n % (K * L)) K := by
  obtain ⟨k, rfl⟩ : ∃ k, K = k + 1 := ⟨K - 1, by omega⟩
  have hP : (k + 1) * L = k * L + L := Nat.succ_mul k L
  have hdiv := Nat.div_add_mod (n - (k + 1) * L) ((k + 1) * L)
  rw [← Nat.mod_eq_sub_mod hn] at hdiv
  have hsub : n - L = (k + 1) * L * ((n - (k + 1) * L) / ((k + 1) * L)) +
      (k * L + n % ((k + 1) * L)) := by omega
  have hlt : k * L + n % ((k + 1) * L) < (k + 1) * L := by omega
  obtain ⟨hquot, hrem⟩ := block_place hlt ((n - (k + 1) * L) / ((k + 1) * L))
  obtain ⟨hrow, hplace⟩ := block_place h k
  rw [rowSum, hsub, hquot, hrem, Nat.mul_comm k L, hrow, hplace]

/-- Sums go out with the first row of each period but the first. -/
def due (P L n : ℕ) : Bool := decide (P ≤ n ∧ n % P < L)

/-- The sums that have gone out with the first `n` samples. -/
def sumsOut (P L n : ℕ) : ℕ := (n - P) / P * L + min ((n - P) % P) L

theorem sumsOut_of_le (h : n ≤ P) : sumsOut P L n = 0 := by
  rw [sumsOut, Nat.sub_eq_zero_of_le h, Nat.zero_div, Nat.zero_mod, Nat.zero_mul,
    Nat.zero_min]

theorem sumsOut_succ (hL : 0 < L) (hP : L ≤ P) (n : ℕ) :
    sumsOut P L (n + 1) = sumsOut P L n + (due P L n).toNat := by
  by_cases hn : P ≤ n
  · obtain ⟨d, rfl⟩ := Nat.exists_eq_add_of_le hn
    have hpos : 0 < P := Nat.lt_of_lt_of_le hL hP
    have hdue : due P L (P + d) = decide (d % P < L) := by
      rw [due, Nat.add_mod_left, decide_eq_decide]
      exact and_iff_right hn
    rw [hdue, sumsOut, sumsOut, Nat.add_sub_cancel_left, Nat.add_assoc,
      Nat.add_sub_cancel_left]
    have hd := Nat.div_add_mod d P
    have hlt := Nat.mod_lt d hpos
    by_cases hlast : d % P + 1 = P
    · have hnext : d + 1 = P * (d / P + 1) + 0 := by
        rw [Nat.mul_succ]
        omega
      obtain ⟨hquot, hrem⟩ := block_place hpos (d / P + 1)
      rw [hnext, hquot, hrem, Nat.succ_mul]
      by_cases hrow : d % P < L
      · rw [decide_eq_true hrow]
        simp only [Bool.toNat_true]
        omega
      · rw [decide_eq_false hrow]
        simp only [Bool.toNat_false]
        omega
    · have hnext : d + 1 = P * (d / P) + (d % P + 1) := by omega
      obtain ⟨hquot, hrem⟩ := block_place (n := P) (r := d % P + 1) (by omega) (d / P)
      rw [hnext, hquot, hrem]
      by_cases hrow : d % P < L
      · rw [decide_eq_true hrow]
        simp only [Bool.toNat_true]
        omega
      · rw [decide_eq_false hrow]
        simp only [Bool.toNat_false]
        omega
  · have hdue : due P L n = false := decide_eq_false fun h => hn h.1
    rw [hdue, sumsOut_of_le (by omega), sumsOut_of_le (by omega)]
    rfl

/-- The sums go out row by row, each row the sums of one period. -/
theorem map_due {K : ℕ} (hK : 0 < K) (hL : 0 < L) (n : ℕ) :
    ((List.range n).filter (due (K * L) L)).map
        (fun n => rowSum s (K * L) L (n - L)) =
      (List.range (sumsOut (K * L) L n)).map fun m =>
        columnSum s (K * L) L (m / L) (m % L) K := by
  induction n with
  | zero => rw [sumsOut_of_le (Nat.zero_le _)]; rfl
  | succ n ih =>
      rw [List.range_succ, List.filter_append, List.map_append, ih,
        sumsOut_succ hL (Nat.le_mul_of_pos_left L hK)]
      cases hdue : due (K * L) L n with
      | false => rw [List.filter_cons_of_neg (by simp [hdue])]; simp
      | true =>
          obtain ⟨hn, hrow⟩ := of_decide_eq_true hdue
          have hout : sumsOut (K * L) L n = L * ((n - K * L) / (K * L)) + n % (K * L) := by
            rw [sumsOut, ← Nat.mod_eq_sub_mod hn, Nat.mul_comm,
              Nat.min_eq_left (Nat.le_of_lt hrow)]
          obtain ⟨hquot, hrem⟩ := block_place hrow ((n - K * L) / (K * L))
          rw [List.filter_cons_of_pos hdue, Bool.toNat_true, List.range_succ,
            List.map_append, List.map_singleton, hout, hquot, hrem]
          rw [List.filter_nil, List.map_singleton, rowSum_sub s hK hn hrow]

end Sums

/-! ## One sample -/

/-- The core after `n` samples. -/
structure Averaging (s : ℕ → BitVec p.axisTdataWidth) (P L n : ℕ) (st : State p) :
    Prop where
  cntr : st.intCntrReg.toNat = n % P
  rden : st.intRdenReg = decide (L ≤ n)
  tvalid : st.intTvalidReg = decide (n % P < L)
  fifo : st.fifo = window (rowSum s P L) L n

/-- The ports that do not change. -/
structure Ports (P L : ℕ) (i : Input p) : Prop where
  pre : i.preData.toNat + 1 = L
  tot : i.totData.toNat + 1 = P

namespace Averaging

variable {s : ℕ → BitVec p.axisTdataWidth} {P L n : ℕ} {st : State p} {i : Input p}

theorem fifo_length (h : Averaging s P L n st) : st.fifo.length = min n L := by
  rw [h.fifo, length_window]

/-- The FIFO gives back the word of `L` samples before. -/
theorem fifoReadData_eq (h : Averaging s P L n st) (hL : 0 < L) (hn : L ≤ n)
    (i : Input p) : fifoReadData st i = rowSum s P L (n - L) := by
  rw [fifoReadData, h.fifo, window_eq_cons _ hL hn]
  rfl

/-- What is written is the sum of the row. -/
theorem sumDataWire_eq (h : Averaging s P L n st) (hL : 0 < L) (hP : L ≤ P)
    (hs : i.sAxisTdata = s n) : sumDataWire st i = rowSum s P L n := by
  rw [sumDataWire, intDataWire, h.tvalid, hs]
  by_cases hlt : n % P < L
  · rw [decide_eq_true hlt, if_pos rfl, rowSum_of_lt s hlt]
    exact BitVec.zero_add (s n)
  · have hle := Nat.not_lt.mp hlt
    rw [decide_eq_false hlt, if_neg Bool.false_ne_true,
      h.fifoReadData_eq hL (Nat.le_trans hle (Nat.mod_le n P)),
      ← rowSum_of_le s (Nat.lt_of_lt_of_le hL hP) hL hle]

theorem next_of_idle (h : Averaging s P L n st) (hvalid : i.sAxisTvalid = false) :
    Averaging s P L n (next st i) := by
  have hsame : AxisAverager.next st i = st := by
    simp [AxisAverager.next, fifoReadRden, hvalid]
  rw [hsame]
  exact h

/-- The counter is at the end of the first row. -/
theorem pre_eq (h : Averaging s P L n st) (hports : Ports P L i) :
    (st.intCntrReg == i.preData) = decide (n % P + 1 = L) := by
  rw [Bool.eq_iff_iff, beq_iff_eq, decide_eq_true_eq, ← BitVec.toNat_inj, ← hports.pre,
    h.cntr, Nat.succ_inj]

/-- The counter is at the end of the period. -/
theorem tot_eq (h : Averaging s P L n st) (hports : Ports P L i) :
    (st.intCntrReg == i.totData) = decide (n % P + 1 = P) := by
  rw [Bool.eq_iff_iff, beq_iff_eq, decide_eq_true_eq, ← BitVec.toNat_inj, h.cntr,
    ← hports.tot, Nat.succ_inj]

theorem succ_mod_of_ports (hports : Ports P L i) (n : ℕ) :
    (n + 1) % P = if n % P + 1 = P then 0 else n % P + 1 := by
  have hlt : n % (i.totData.toNat + 1) < i.totData.toNat + 1 :=
    Nat.mod_lt n (Nat.succ_pos _)
  rw [← hports.tot, succ_mod_succ]
  split_ifs <;> omega

theorem cntr_next (h : Averaging s P L n st) (hports : Ports P L i)
    (hvalid : i.sAxisTvalid = true) : (next st i).intCntrReg.toNat = (n + 1) % P := by
  change (if i.sAxisTvalid && st.intCntrReg == i.totData then 0
    else if i.sAxisTvalid then st.intCntrReg + 1 else st.intCntrReg).toNat = _
  rw [hvalid, Bool.true_and, h.tot_eq hports, succ_mod_of_ports hports]
  by_cases hlast : n % P + 1 = P
  · rw [decide_eq_true hlast, if_pos rfl, if_pos hlast]
    exact BitVec.toNat_zero
  · rw [decide_eq_false hlast, if_neg Bool.false_ne_true, if_neg hlast, if_pos rfl]
    have hbelow : st.intCntrReg.toNat < i.totData.toNat := by
      have htop := hports.tot
      have hlt : n % P < P := Nat.mod_lt n (by omega)
      have hcntr := h.cntr
      omega
    rw [toNat_add_one_of_lt hbelow, h.cntr]

theorem rden_next (h : Averaging s P L n st) (hports : Ports P L i) (hP : L ≤ P)
    (hvalid : i.sAxisTvalid = true) : (next st i).intRdenReg = decide (L ≤ n + 1) := by
  have hle : n % P ≤ n := Nat.mod_le n P
  change (if i.sAxisTvalid && st.intCntrReg == i.preData then true
    else st.intRdenReg) = _
  rw [hvalid, Bool.true_and, h.pre_eq hports, h.rden]
  by_cases hrow : n % P + 1 = L
  · rw [decide_eq_true hrow, if_pos rfl, eq_comm, decide_eq_true_eq]
    omega
  · rw [decide_eq_false hrow, if_neg Bool.false_ne_true, decide_eq_decide]
    have hsmall : n < L → n % P = n := fun hn =>
      Nat.mod_eq_of_lt (Nat.lt_of_lt_of_le hn hP)
    omega

theorem tvalid_next (h : Averaging s P L n st) (hports : Ports P L i) (hL : 0 < L)
    (hvalid : i.sAxisTvalid = true) :
    (next st i).intTvalidReg = decide ((n + 1) % P < L) := by
  change (if i.sAxisTvalid && st.intCntrReg == i.totData then true
    else if i.sAxisTvalid && st.intCntrReg == i.preData then false
    else st.intTvalidReg) = _
  rw [hvalid, Bool.true_and, Bool.true_and, h.tot_eq hports, h.pre_eq hports, h.tvalid,
    succ_mod_of_ports hports]
  by_cases hlast : n % P + 1 = P
  · simp [hlast, hL]
  · rw [decide_eq_false hlast, if_neg Bool.false_ne_true, if_neg hlast]
    by_cases hrow : n % P + 1 = L
    · rw [decide_eq_true hrow, if_pos rfl, eq_comm, decide_eq_false_iff_not]
      omega
    · rw [decide_eq_false hrow, if_neg Bool.false_ne_true, decide_eq_decide]
      omega

theorem fifo_next (h : Averaging s P L n st) (hL : 0 < L) (hP : L ≤ P)
    (hvalid : i.sAxisTvalid = true) (hs : i.sAxisTdata = s n) :
    (next st i).fifo = window (rowSum s P L) L (n + 1) := by
  change (if st.intRdenReg && i.sAxisTvalid then st.fifo.tail else st.fifo) ++
    (if i.sAxisTvalid then [sumDataWire st i] else []) = _
  rw [hvalid, Bool.and_true, if_pos rfl, h.sumDataWire_eq hL hP hs, h.rden, h.fifo]
  by_cases hfull : L ≤ n
  · rw [decide_eq_true hfull, if_pos rfl, window_succ_of_le _ hL hfull]
  · rw [decide_eq_false hfull, if_neg Bool.false_ne_true,
      window_succ_of_lt _ (Nat.not_le.mp hfull)]

theorem next_of_sample (h : Averaging s P L n st) (hports : Ports P L i) (hP : L ≤ P)
    (hvalid : i.sAxisTvalid = true) (hs : i.sAxisTdata = s n) :
    Averaging s P L (n + 1) (next st i) := by
  have hL : 0 < L := hports.pre ▸ Nat.succ_pos _
  exact ⟨h.cntr_next hports hvalid, h.rden_next hports hP hvalid,
    h.tvalid_next hports hL hvalid, h.fifo_next hL hP hvalid hs⟩

theorem marked_eq (h : Averaging s P L n st) (hports : Ports P L i) (hP : L ≤ P)
    (hvalid : i.sAxisTvalid = true) :
    marked ⟨st, i⟩ =
      ([n].filter (due P L)).map fun n => rowSum s P L (n - L) := by
  have hL : 0 < L := hports.pre ▸ Nat.succ_pos _
  have hfull : fifoProgFull st i = decide (L ≤ n) := by
    rw [fifoProgFull, hports.pre, h.fifo_length, decide_eq_decide]
    omega
  have hdue : mAxisTvalid st i = due P L n := by
    rw [mAxisTvalid, hfull, h.tvalid, hvalid, Bool.and_true, ← Bool.decide_and, due,
      decide_eq_decide]
    refine and_congr_left fun hrow => ?_
    constructor
    · intro hn
      -- the first period has nothing behind its first row
      by_contra hlt
      rw [Nat.mod_eq_of_lt (Nat.not_le.mp hlt)] at hrow
      exact Nat.not_lt.mpr hn hrow
    · exact Nat.le_trans hP
  unfold marked
  dsimp only
  rw [hdue]
  cases hd : due P L n with
  | false => rw [transfer_false_left, List.filter_cons_of_neg (by simp [hd])]; rfl
  | true =>
      have hle : P ≤ n := (of_decide_eq_true hd).1
      rw [transfer_true_true, List.filter_cons_of_pos hd,
        h.fifoReadData_eq hL (Nat.le_trans hP hle)]
      rfl

end Averaging

/-! ## Runs -/

section Runs

variable {s : ℕ → BitVec p.axisTdataWidth} {P L n : ℕ} {st : State p}
  {inputs : List (Input p)}

theorem averaging_reset (hL : 0 < L) : Averaging s P L 0 (reset p) where
  cntr := by
    rw [Nat.zero_mod]
    exact BitVec.toNat_zero
  rden := (decide_eq_false (Nat.not_le.mpr hL)).symm
  tvalid := by
    rw [Nat.zero_mod, decide_eq_true hL]
    rfl
  fifo := (window_zero _ _).symm

theorem run_averaging (h : Averaging s P L n st) (hP : L ≤ P)
    (hports : ∀ i ∈ inputs, Ports P L i) {m : ℕ}
    (hs : (trace next st inputs).flatMap accepted = (List.range' n m).map s) :
    Averaging s P L (n + m) (run next st inputs) ∧
      (trace next st inputs).flatMap marked =
        ((List.range' n m).filter (due P L)).map
          fun n => rowSum s P L (n - L) := by
  induction inputs generalizing n m st with
  | nil =>
      cases m with
      | zero => exact ⟨h, rfl⟩
      | succ m => cases hs
  | cons i inputs ih =>
      rw [List.forall_mem_cons] at hports
      rw [trace_cons, List.flatMap_cons] at hs ⊢
      cases hvalid : i.sAxisTvalid with
      | false =>
          have hnone : accepted ⟨st, i⟩ = [] := by
            rw [accepted, hvalid, transfer_false_left]
          have hmarked : marked ⟨st, i⟩ = [] := by
            rw [marked, mAxisTvalid, hvalid, Bool.and_false, transfer_false_left]
          rw [hnone, List.nil_append] at hs
          rw [hmarked, List.nil_append]
          exact ih (h.next_of_idle hvalid) hports.2 hs
      | true =>
          have hone : accepted ⟨st, i⟩ = [i.sAxisTdata] := by
            rw [accepted, hvalid, transfer_true_true]
          rw [hone] at hs
          cases m with
          | zero => cases hs
          | succ m =>
              rw [List.range'_succ, List.map_cons, List.singleton_append,
                List.cons.injEq] at hs
              obtain ⟨hrun, hmarked⟩ :=
                ih (h.next_of_sample hports.1 hP hvalid hs.1) hports.2 hs.2
              rw [Nat.add_right_comm] at hrun
              refine ⟨hrun, ?_⟩
              rw [h.marked_eq hports.1 hP hvalid, hmarked, ← List.map_append,
                ← List.filter_append, List.range'_succ]
              rfl

theorem eq_map_getD {α : Type*} (xs : List α) (d : α) :
    xs = (List.range' 0 xs.length).map fun n => xs.getD n d := by
  rw [← List.range_eq_range']
  apply List.ext_getElem
  · rw [List.length_map, List.length_range]
  · intro n hn hn'
    rw [List.getElem_map, List.getElem_range, List.getD_eq_getElem?_getD,
      List.getElem?_eq_getElem hn, Option.getD_some]

/-- The samples of a run, by number. -/
def sample (inputs : List (Input p)) (n : ℕ) : BitVec p.axisTdataWidth :=
  ((trace next (reset p) inputs).flatMap accepted).getD n 0

theorem run_reset (hL : 0 < L) (hP : L ≤ P) (hports : ∀ i ∈ inputs, Ports P L i) :
    let n := ((trace next (reset p) inputs).flatMap accepted).length
    Averaging (sample inputs) P L n (run next (reset p) inputs) ∧
      (trace next (reset p) inputs).flatMap marked =
        ((List.range n).filter (due P L)).map
          fun n => rowSum (sample inputs) P L (n - L) := by
  have hrun := run_averaging (averaging_reset (s := sample inputs) (P := P) hL) hP
    hports (eq_map_getD _ 0)
  rwa [Nat.zero_add, ← List.range_eq_range'] at hrun

end Runs

/-- Row after row of the sums of each period goes out, from the end of the first
one on, while the FIFO holds at most a row. -/
structure Averages (K L : ℕ) (inputs : List (Input p)) : Prop where
  sums : (trace next (reset p) inputs).flatMap marked =
    (List.range (sumsOut (K * L) L
      ((trace next (reset p) inputs).flatMap accepted).length)).map fun m =>
        columnSum (sample inputs) (K * L) L (m / L) (m % L) K
  first : ((trace next (reset p) inputs).flatMap accepted).length ≤ K * L →
    (trace next (reset p) inputs).flatMap marked = []
  fifo : (run next (reset p) inputs).fifo.length =
    min ((trace next (reset p) inputs).flatMap accepted).length L
  read : ∀ c ∈ trace next (reset p) inputs, fifoReadRden c.state c.input = true →
    c.state.fifo ≠ []

theorem averages {K L : ℕ} {inputs : List (Input p)} (hL : 1 ≤ L) (hK : 1 ≤ K)
    (hports : ∀ i ∈ inputs, i.preData.toNat = L - 1 ∧ i.totData.toNat = K * L - 1) :
    Averages K L inputs := by
  have hP : L ≤ K * L := Nat.le_mul_of_pos_left L hK
  have hports' : ∀ i ∈ inputs, Ports (K * L) L i := by
    intro i hi
    obtain ⟨hpre, htot⟩ := hports i hi
    exact ⟨by omega, by omega⟩
  obtain ⟨haveraging, hmarked⟩ := run_reset hL hP hports'
  rw [map_due _ hK hL] at hmarked
  refine ⟨hmarked, fun hfirst => ?_, haveraging.fifo_length, fun c hc hread => ?_⟩
  · rw [hmarked, sumsOut_of_le hfirst]
    rfl
  · obtain ⟨before, after, hinputs, hstate⟩ := exists_before_of_mem hc
    have hportsBefore : ∀ i ∈ before, Ports (K * L) L i := by
      intro i hi
      apply hports'
      rw [hinputs]
      exact List.mem_append_left _ hi
    have hbefore := (run_reset hL hP hportsBefore).1
    rw [← hstate] at hbefore
    -- the read enable is set once the FIFO holds a row
    rw [fifoReadRden, Bool.and_eq_true, hbefore.rden, decide_eq_true_eq] at hread
    apply List.ne_nil_of_length_pos
    rw [hbefore.fifo_length, Nat.min_eq_right hread.1]
    exact hL

/-- Two periods of two rows of two, and the first sample of a third. -/
theorem averages_two :
    Averages 2 2 ([1, 2, 3, 4, 5, 6, 7, 8, 9].map fun x =>
      (⟨1, 3, x, true, 0⟩ : Input ⟨8, 4⟩)) :=
  averages (by decide) (by decide) (by decide)

end RedPitayaNotes.AxisAverager
