import Mathlib.Data.Int.ModEq
import RedPitayaNotes.Cores.AxisBramReader

/-!
# The progress report of axis_bram_reader

`sts_data` is the address less the valid bits of three stages.  The valid bit
behind the skid register also counts the word in front of it, and the address
starts over at a last address that need not be the last one of the memory.
-/

namespace RedPitayaNotes.AxisBramReader

open Clocked Elastic Counters

variable {p : Params}

/-! ## What the report leaves out -/

section Error

variable (last : ℕ) (s : State p)

/-- The word of the first stage is counted twice while it may enter the skid
register. -/
def doubled : Bool := s.buf0.outValid && s.buf1.inReady

/-- The addresses that the words on their way have passed without counting: the
memory as often as the address started over, and the last one of a reader that
stops there. -/
def passed : ℕ :=
  if p.continuous then
    (last + 1) *
      (((contents s).length + last - s.intAddrReg.toNat) / (last + 1))
  else (!s.intEnblReg && decide (s.intAddrReg.toNat = last)).toNat

def reportError : ℕ := (doubled s).toNat + passed last s

end Error

variable {last n : ℕ} {s : State p}

theorem length_contents (s : State p) :
    (contents s).length =
      (mAxisTvalid s).toNat + (!s.buf1.inReady).toNat + s.buf0.outValid.toNat := by
  have h₀ : ((stage0 s).contents).length = s.buf0.outValid.toNat := by
    rw [OutputBuffer.contents, OutputBuffer.outValid]
    change List.length (if s.buf0.intValidReg then _ else _) = _
    cases s.buf0.intValidReg <;> rfl
  have h₁ : s.buf1.contents.length = (!s.buf1.inReady).toNat := by
    rw [InputBuffer.contents, InputBuffer.inReady]
    cases s.buf1.intReadyReg <;> rfl
  have h₂ : s.buf2.contents.length = (mAxisTvalid s).toNat := by
    rw [OutputBuffer.contents, mAxisTvalid, OutputBuffer.outValid]
    cases s.buf2.intValidReg <;> rfl
  rw [contents, List.length_append, List.length_append, h₀, h₁, h₂]
  omega

/-- The three valid bits, against the words. -/
theorem valid_bits (s : State p) :
    s.buf0.outValid.toNat + (s.buf1.outValid s.buf0.outValid).toNat +
        (mAxisTvalid s).toNat =
      (contents s).length + (doubled s).toNat := by
  rw [length_contents, doubled, InputBuffer.outValid, InputBuffer.intValidWire,
    InputBuffer.inReady]
  cases s.buf0.outValid <;> cases s.buf1.intReadyReg <;> simp <;> omega

/-- Report, words and the word counted twice make up the address. -/
theorem stsData_modEq (s : State p) :
    (stsData s).toNat + (contents s).length + (doubled s).toNat ≡
      s.intAddrReg.toNat [MOD 2 ^ p.bramAddrWidth] := by
  have hadd : ∀ (x : BitVec p.bramAddrWidth) (b : Bool),
      (x + (BitVec.ofBool b).setWidth _).toNat ≡ x.toNat + b.toNat
        [MOD 2 ^ p.bramAddrWidth] := by
    intro x b
    rw [BitVec.toNat_add, BitVec.toNat_setWidth, BitVec.toNat_ofBool]
    exact (Nat.mod_modEq _ _).trans ((Nat.mod_modEq _ _).add_left _)
  have hsum : stsData s + (BitVec.ofBool (mAxisTvalid s)).setWidth _ +
      (BitVec.ofBool (s.buf1.outValid s.buf0.outValid)).setWidth _ +
      (BitVec.ofBool s.buf0.outValid).setWidth _ = s.intAddrReg := by
    rw [stsData, BitVec.sub_add_cancel, BitVec.sub_add_cancel,
      BitVec.sub_add_cancel]
  have h₂ := hadd (stsData s) (mAxisTvalid s)
  have h₁ := (hadd _ (s.buf1.outValid s.buf0.outValid)).trans (h₂.add_right _)
  have h₀ := (hadd _ s.buf0.outValid).trans (h₁.add_right _)
  have hvalid := valid_bits s
  have hcount : (stsData s).toNat + (contents s).length + (doubled s).toNat =
      (stsData s).toNat + (mAxisTvalid s).toNat +
        (s.buf1.outValid s.buf0.outValid).toNat + s.buf0.outValid.toNat := by
    omega
  rw [hsum] at h₀
  rw [hcount]
  exact h₀.symm

/-! ## The address -/

/-- Over how many blocks of `m` the last `k` of `q` blocks and `a` words reach. -/
theorem blocks_passed {last k a t q : ℕ} (ha : a ≤ last)
    (ht : t + k = q * (last + 1) + a) :
    a + (last + 1) * ((k + last - a) / (last + 1)) = t % (last + 1) + k := by
  have hlow := Nat.mul_div_le (k + last - a) (last + 1)
  have hhigh := Nat.lt_mul_div_succ (k + last - a)
    (show 0 < last + 1 by omega)
  generalize (k + last - a) / (last + 1) = j at hlow hhigh
  rw [Nat.mul_add, Nat.mul_one] at hhigh
  have hjq : j ≤ q := by
    by_contra hlt
    have hmul := Nat.mul_le_mul_left (last + 1) (Nat.succ_le_of_lt (not_le.mp hlt))
    rw [Nat.mul_succ, Nat.mul_comm _ q] at hmul
    omega
  obtain ⟨d, rfl⟩ := Nat.exists_eq_add_of_le hjq
  rw [Nat.mul_comm, Nat.mul_add] at ht
  have hplace : t = (last + 1) * d + (a + (last + 1) * j - k) := by omega
  rw [hplace, Nat.mul_add_mod, Nat.mod_eq_of_lt (by omega)]
  omega

theorem passed_add_addr (h : Counted last n s) (hlast : 1 ≤ last) {t : ℕ}
    (ht : t + (contents s).length = n) :
    s.intAddrReg.toNat + passed last s =
      address p last t + (contents s).length := by
  have haddr := h.addr
  have hle := h.addr_le
  rw [passed, address]
  cases hcontinuous : p.continuous with
  | true =>
      rw [hcontinuous, if_pos rfl] at haddr
      rw [if_pos rfl, if_pos rfl]
      apply blocks_passed hle (q := n / (last + 1))
      rw [ht, haddr, Nat.mul_comm]
      exact (Nat.div_add_mod n (last + 1)).symm
  | false =>
      have hbound := h.bound hcontinuous
      rw [hcontinuous, if_neg Bool.false_ne_true] at haddr
      rw [if_neg Bool.false_ne_true, if_neg Bool.false_ne_true]
      by_cases hended : n = last + 1
      · rw [h.ended ⟨hcontinuous, hended⟩, haddr, Nat.min_eq_right (by omega)]
        simp
        omega
      · have hrunning :
            (!s.intEnblReg && decide (s.intAddrReg.toNat = last)) = false := by
          cases henbl : s.intEnblReg with
          | true => rfl
          | false =>
              rcases h.disabled henbl with hzero | hend
              · rw [haddr, hzero]
                simp
                omega
              · exact absurd hend.2 hended
        rw [hrunning, haddr]
        simp
        omega

/-- Only a reader that has stopped with everything transferred reports a number
that is not an address. -/
theorem address_le (h : Counted last n s) (hlast : 1 ≤ last) {t : ℕ}
    (ht : t + (contents s).length = n) :
    address p last t ≤ last ∨ reportError last s = 1 := by
  have haddr := passed_add_addr h hlast ht
  have hcounted := h.addr
  rw [address] at haddr ⊢
  cases hcontinuous : p.continuous with
  | true =>
      rw [if_pos rfl]
      exact Or.inl (Nat.le_of_lt_succ (Nat.mod_lt t (Nat.succ_pos last)))
  | false =>
      have hbound := h.bound hcontinuous
      rw [hcontinuous, if_neg Bool.false_ne_true] at haddr hcounted
      rw [if_neg Bool.false_ne_true]
      by_cases hrunning : t ≤ last
      · exact Or.inl hrunning
      · right
        have hlen := length_contents s
        have hvalid : s.buf0.outValid = false := by
          cases hvalid : s.buf0.outValid with
          | false => rfl
          | true =>
              rw [hvalid, Bool.toNat_true] at hlen
              omega
        rw [reportError, doubled, hvalid, Bool.false_and, Bool.toNat_false]
        omega

/-- In a state that has transferred `t` beats. -/
theorem stsData_eq_iff (h : Counted last n s) (hlast : 1 ≤ last) {t : ℕ}
    (ht : t + (contents s).length = n) :
    (stsData s).toNat = address p last t ↔
      2 ^ p.bramAddrWidth ∣ reportError last s := by
  have hwidth : last < 2 ^ p.bramAddrWidth := by
    rw [← h.data]
    exact s.intDataReg.isLt
  have haddr := passed_add_addr h hlast ht
  have hsts : (stsData s).toNat + reportError last s ≡ address p last t
      [MOD 2 ^ p.bramAddrWidth] := by
    have hsum := (stsData_modEq s).add_right (passed last s)
    rw [haddr] at hsum
    apply Nat.ModEq.add_right_cancel' (contents s).length
    have hcomm : (stsData s).toNat + reportError last s + (contents s).length =
        (stsData s).toNat + (contents s).length + (doubled s).toNat +
          passed last s := by
      rw [reportError]
      omega
    rw [hcomm]
    exact hsum
  constructor
  · intro heq
    rw [← heq] at hsts
    exact (Nat.modEq_zero_iff_dvd).mp
      (Nat.ModEq.add_left_cancel' (stsData s).toNat hsts)
  · intro hdvd
    rcases address_le h hlast ht with hle | hone
    · have hzero := (Nat.modEq_zero_iff_dvd).mpr hdvd
      have hmod := ((hzero.add_left (stsData s).toNat).symm).trans hsts
      exact hmod.eq_of_lt_of_lt (stsData s).isLt (hle.trans_lt hwidth)
    · rw [hone] at hdvd
      have hbound := Nat.le_of_dvd one_pos hdvd
      omega

theorem IsReset.report {s : State p} (h : IsReset s) {last : ℕ}
    (hlast : 1 ≤ last) : (stsData s).toNat = 0 ∧ reportError last s = 0 := by
  have hbuf1 : s.buf1.outValid s.buf0.outValid = false := by
    rw [InputBuffer.outValid, InputBuffer.intValidWire, h.buf1,
      OutputBuffer.outValid, h.buf0]
    rfl
  have hlen : (contents s).length = 0 := by
    rw [length_contents, mAxisTvalid, OutputBuffer.outValid,
      OutputBuffer.outValid, InputBuffer.inReady, h.buf0, h.buf1, h.buf2]
    rfl
  refine ⟨?_, ?_⟩
  · rw [stsData, mAxisTvalid, hbuf1, OutputBuffer.outValid,
      OutputBuffer.outValid, h.buf0, h.buf2, h.intAddrReg]
    simp
  · rw [reportError, doubled, passed, OutputBuffer.outValid, h.buf0, hlen,
      h.intAddrReg, h.intEnblReg]
    have hne : ¬0 = last := by omega
    split <;> simp [hne]

/-- From reset, with a constant `cfg_data`, the report is the address of the
oldest beat that has not been transferred in exactly the states whose error is a
multiple of the size of the memory. -/
theorem stsData_run_iff (mem : Memory p) {last : BitVec p.bramAddrWidth}
    (hlast : 1 ≤ last.toNat) {s : State p} (h : IsReset s)
    {inputs : List (Input p)} (hcfg : ∀ i ∈ inputs, i.cfgData = last) :
    (stsData (run (next mem) s inputs)).toNat =
        address p last.toNat
          ((trace (next mem) s inputs).flatMap transferred).length ↔
      2 ^ p.bramAddrWidth ∣ reportError last.toNat (run (next mem) s inputs) := by
  cases inputs with
  | nil =>
      obtain ⟨hsts, herror⟩ := h.report hlast
      rw [run_nil, hsts, herror]
      simp [address]
  | cons i inputs =>
      rw [List.forall_mem_cons] at hcfg
      obtain ⟨hfirst, hbooks⟩ := h.books mem i
      rw [hcfg.1] at hbooks
      obtain ⟨n, hrun⟩ := run_books hbooks hlast inputs
        fun j hj => congrArg BitVec.toNat (hcfg.2 j hj)
      have hlength := congrArg List.length hrun.words
      rw [List.length_append, words, List.length_map, List.length_range]
        at hlength
      rw [flatMap_transferred, List.length_map, trace_cons, List.flatMap_cons,
        hfirst, List.nil_append, run_cons]
      exact stsData_eq_iff hrun.counted hlast hlength

/-! ## A stall -/

/-- A reader of the first six of eight words, again and again. -/
def eightWords : Params := ⟨8, 8, 3, true⟩

def eightMemory : Memory eightWords := fun a => a.setWidth 8

def atReset : State eightWords :=
  ⟨0, 0, false, ⟨true, false⟩, ⟨3, true⟩, ⟨4, false⟩, 9⟩

/-- The consumer takes two words and then nothing for three cycles. -/
def stalling : List (Input eightWords) :=
  (List.range 9).map fun k => ⟨5, decide (k < 6)⟩

/-- With two words transferred and three on their way the report is right. -/
theorem stsData_stalled :
    let s := run (next eightMemory) atReset stalling
    let sent := (trace (next eightMemory) atReset stalling).flatMap transferred
    (stsData s).toNat = address eightWords 5 sent.length ∧
      sent.length = 2 ∧ (contents s).length = 3 ∧ s.intAddrReg = 5 :=
  have hlast : 1 ≤ (5 : BitVec eightWords.bramAddrWidth).toNat := by decide
  have hreset : IsReset atReset := ⟨rfl, rfl, rfl, rfl, rfl, rfl⟩
  have hcfg : ∀ i ∈ stalling, i.cfgData = 5 := by decide
  ⟨(stsData_run_iff eightMemory hlast hreset hcfg).mpr (by decide),
    by decide, by decide, by decide⟩

/-! ## Three cycles after reset -/

def fourWords : Params := ⟨8, 8, 2, true⟩

def resetState : State fourWords :=
  ⟨0, 0, false, ⟨true, false⟩, ⟨3, true⟩, ⟨4, false⟩, 9⟩

def fourMemory : Memory fourWords := fun a => a.setWidth 8

/-- The last address is 2, and the consumer is ready. -/
def flowing (cycles : ℕ) : List (Input fourWords) :=
  List.replicate cycles ⟨2, true⟩

/-- With the first word in the first stage the report is 3, and no beat has been
transferred. -/
theorem stsData_first_word :
    IsReset resetState ∧
      (stsData (run (next fourMemory) resetState (flowing 3))).toNat = 3 ∧
      (stsData (run (next fourMemory) resetState (flowing 3))).toNat ≠
        address fourWords 2
          ((trace (next fourMemory) resetState (flowing 3)).flatMap
            transferred).length :=
  ⟨⟨rfl, rfl, rfl, rfl, rfl, rfl⟩, by decide⟩

end RedPitayaNotes.AxisBramReader
