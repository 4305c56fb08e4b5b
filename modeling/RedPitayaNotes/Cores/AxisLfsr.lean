import Mathlib.Tactic.NormNum.Prime
import RedPitayaNotes.Support.BitPolynomial
import RedPitayaNotes.Support.Bits
import RedPitayaNotes.Support.Clocked
import RedPitayaNotes.Support.LinearPeriod

/-!
# The axis_lfsr core

`cores/axis_lfsr.v` is a shift register that takes in, at every step, whether two
of its bits are equal.  Its low 63 bits move on their own, like a sequence with
the recurrence of `X ^ 63 + X + 1`, and that polynomial gives them the longest
period there is.
-/

namespace RedPitayaNotes.AxisLfsr

open Clocked Bits Function Polynomial BitPolynomial LinearPeriod

/-- The slice of the register that is shifted must be there. -/
structure Params where
  axisTdataWidth : ℕ := 64
  /-- `HAS_TREADY == "TRUE"` -/
  hasTready : Bool := false
  axisTdata_ge : 63 ≤ axisTdataWidth

structure State (p : Params) where
  intLfsrReg : BitVec p.axisTdataWidth
  intEnblReg : Bool

variable {p : Params}

/-- `{int_lfsr_reg[62:0], int_lfsr_reg[62] ~^ int_lfsr_reg[61]}` -/
def feedback (intLfsrReg : BitVec p.axisTdataWidth) : BitVec 64 :=
  intLfsrReg.extractLsb' 0 63 ++
    BitVec.ofBool (!(intLfsrReg.getLsbD 62 ^^ intLfsrReg.getLsbD 61))

section Wires

variable (s : State p) (mAxisTready : Bool)

/-- The register moves in the cycle. -/
def steps : Bool := s.intEnblReg && (mAxisTready || !p.hasTready)

def intLfsrNext : BitVec p.axisTdataWidth :=
  if steps s mAxisTready then (feedback s.intLfsrReg).setWidth _
  else s.intLfsrReg

def intEnblNext : Bool := if !s.intEnblReg then true else s.intEnblReg

def mAxisTdata : BitVec p.axisTdataWidth := s.intLfsrReg

def mAxisTvalid : Bool := s.intEnblReg

end Wires

/-- `64'h85fac8a1658d6f0d` -/
def seed : BitVec 64 := 0x85fac8a1658d6f0d#64

/-- The registers after an edge in reset. -/
def reset : State p := ⟨seed.setWidth _, false⟩

/-- The `always` blocks at a clock edge. -/
def step (aresetn : Bool) (s : State p) (mAxisTready : Bool) : State p :=
  if !aresetn then reset
  else ⟨intLfsrNext s mAxisTready, intEnblNext s⟩

/-- An edge out of reset. -/
def next (s : State p) (mAxisTready : Bool) : State p :=
  step true s mAxisTready

/-! ## The low bits -/

/-- The low 63 bits of the register. -/
def low (x : BitVec p.axisTdataWidth) : BitVec 63 := x.setWidth 63

/-- A step of the low bits. -/
def lowStep (x : BitVec 63) : BitVec 63 :=
  shiftIn x (!(x.getLsbD 62 ^^ x.getLsbD 61))

theorem low_feedback (x : BitVec p.axisTdataWidth) :
    low ((feedback x).setWidth p.axisTdataWidth) = lowStep (low x) := by
  have hwidth := p.axisTdata_ge
  apply BitVec.eq_of_getLsbD_eq
  intro j hj
  have hj' : j < p.axisTdataWidth := Nat.lt_of_lt_of_le hj hwidth
  rw [lowStep, getLsbD_shiftIn _ _ hj]
  simp only [low, feedback, BitVec.getLsbD_setWidth, BitVec.getLsbD_append,
    BitVec.getLsbD_extractLsb', BitVec.getLsbD_ofBool, hj, hj', decide_true,
    Bool.true_and, Nat.lt_one_iff]
  cases j with
  | zero => simp
  | succ j =>
      have hlow : j < 63 := by omega
      simp [hlow]

/-- The value in which the register would stay. -/
theorem lowStep_allOnes : lowStep (BitVec.allOnes 63) = BitVec.allOnes 63 := by
  decide +kernel

/-! ## The sequence of the oldest bits -/

/-- Whether the oldest bit is low, step by step. -/
def oldest (x : BitVec 63) (n : ℕ) : ZMod 2 :=
  if (lowStep^[n] x).getLsbD 62 then 0 else 1

theorem oldest_iterate (x : BitVec 63) (m n : ℕ) :
    oldest (lowStep^[m] x) n = oldest x (n + m) := by
  rw [oldest, oldest, iterate_add_apply]

/-- A bit is the oldest one when those above it have gone. -/
theorem getLsbD_iterate_lowStep (x : BitVec 63) {i : ℕ} (hi : i ≤ 62) :
    (lowStep^[i] x).getLsbD 62 = x.getLsbD (62 - i) := by
  induction i generalizing x with
  | zero => rfl
  | succ i ih =>
      rw [iterate_succ_apply, ih _ (by omega), lowStep,
        getLsbD_shiftIn _ _ (by omega), if_neg (by omega)]
      congr 1

theorem semiconj_oldest : Semiconj oldest lowStep (shift (ZMod 2)) := by
  intro x
  funext n
  exact oldest_iterate x 1 n

theorem oldest_allOnes : oldest (BitVec.allOnes 63) = 0 := by
  funext n
  rw [oldest, iterate_fixed lowStep_allOnes, if_pos (by decide), Pi.zero_apply]

theorem oldest_injective : Injective oldest := by
  intro x y h
  apply BitVec.eq_of_getLsbD_eq
  intro j hj
  have hindex : 62 - (62 - j) = j := by omega
  have hbit := congrFun h (62 - j)
  rw [oldest, oldest, getLsbD_iterate_lowStep x (by omega),
    getLsbD_iterate_lowStep y (by omega), hindex] at hbit
  revert hbit
  cases x.getLsbD j <;> cases y.getLsbD j <;> decide

/-- 63 steps later the oldest bit is what the two oldest ones have left. -/
theorem oldest_add_63 (x : BitVec 63) (n : ℕ) :
    oldest x (n + 63) = oldest x (n + 1) + oldest x n := by
  have hnew (y : BitVec 63) :
      oldest y 63 = oldest y 1 + oldest y 0 := by
    have hlast : (lowStep^[63] y).getLsbD 62 =
        !(y.getLsbD 62 ^^ y.getLsbD 61) := by
      rw [iterate_succ_apply, getLsbD_iterate_lowStep _ (Nat.le_refl 62),
        lowStep, getLsbD_shiftIn _ _ (by omega), if_pos rfl]
    rw [oldest, oldest, oldest, hlast,
      getLsbD_iterate_lowStep y (show 1 ≤ 62 by decide), iterate_zero_apply]
    cases y.getLsbD 62 <;> cases y.getLsbD 61 <;> decide
  have hstep := hnew (lowStep^[n] x)
  rw [oldest_iterate, oldest_iterate, oldest_iterate] at hstep
  rw [Nat.add_comm n 63, Nat.add_comm n 1, hstep, Nat.zero_add]

/-! ## The feedback polynomial -/

/-- The bits of `X ^ 63 + X + 1`. -/
def taps : ℕ := 2 ^ 63 + 3

theorem toPoly_taps : toPoly taps = X ^ 63 + X + 1 := by
  have htaps : taps = 2 ^ 63 ^^^ 2 * 1 ^^^ 1 := by decide
  rw [htaps, toPoly_xor, toPoly_xor, toPoly_two_pow, toPoly_two_mul, toPoly_one,
    mul_one]

theorem aeval_oldest (x : BitVec 63) :
    aeval (shift (ZMod 2)) (toPoly taps) (oldest x) = 0 := by
  rw [toPoly_taps]
  funext n
  simp only [map_add, map_pow, aeval_X, map_one, LinearMap.add_apply,
    Pi.add_apply, shift_pow_apply, Module.End.one_apply, Pi.zero_apply]
  change oldest x (n + 63) + oldest x (n + 1) + oldest x n = 0
  rw [oldest_add_63]
  generalize oldest x (n + 1) = a
  generalize oldest x n = b
  revert a b
  decide

def period : ℕ := 2 ^ 63 - 1

/-- The primes of the period, each with an inverse of `X ^ (period / q) - 1`. -/
def inverses : List (ℕ × ℕ) :=
  [(7, 77692853498478821), (73, 77975174494975411),
    (127, 1331185754538942234), (337, 1606996623144895580),
    (92737, 5048504963276231146), (649657, 7285145052996081200)]

theorem certifies_taps : certifies taps period inverses = true := by
  decide +kernel

/-- The primes that divide the period. -/
def factors : List ℕ := [7, 7, 73, 127, 337, 92737, 649657]

theorem prod_factors : factors.prod = period := by
  decide

theorem prime_of_mem_factors : ∀ r ∈ factors, r.Prime := by
  simp only [factors, List.forall_mem_cons]
  norm_num

theorem exists_inverse {q : ℕ} (hprime : q.Prime) (hq : q ∣ period) :
    ∃ x ∈ inverses, x.1 = q := by
  rw [← prod_factors] at hq
  obtain ⟨r, hr, hqr⟩ := (Prime.dvd_prod_iff hprime.prime).mp hq
  obtain rfl : q = r :=
    (Nat.prime_dvd_prime_iff_eq hprime (prime_of_mem_factors r hr)).mp hqr
  simp only [factors, List.mem_cons, List.not_mem_nil, or_false] at hr
  rcases hr with rfl | rfl | rfl | rfl | rfl | rfl | rfl <;> simp [inverses]

/-- From every value but the one in which it would stay, the register takes all
others before it comes back. -/
theorem minimalPeriod_lowStep {x : BitVec 63} (hx : x ≠ BitVec.allOnes 63) :
    minimalPeriod lowStep x = period := by
  have hne : oldest x ≠ 0 := by
    rw [← oldest_allOnes]
    exact oldest_injective.ne hx
  have hshift : minimalPeriod (shift (ZMod 2)) (oldest x) = period :=
    minimalPeriod_of_certifies certifies_taps
      (fun _ hprime hq => exists_inverse hprime hq) (aeval_oldest x) hne
  rw [← hshift, minimalPeriod_eq_minimalPeriod_iff]
  intro n
  have hiterate := (semiconj_oldest.iterate_right n) x
  rw [IsPeriodicPt, IsPeriodicPt, IsFixedPt, IsFixedPt, ← hiterate,
    oldest_injective.eq_iff]

theorem iterate_lowStep_ne_allOnes {x : BitVec 63}
    (hx : x ≠ BitVec.allOnes 63) (n : ℕ) :
    lowStep^[n] x ≠ BitVec.allOnes 63 := by
  intro hones
  have hperiod := minimalPeriod_lowStep hx
  have hmem : x ∈ periodicPts lowStep := by
    apply minimalPeriod_pos_iff_mem_periodicPts.mp
    rw [hperiod]
    decide
  have hfixed : minimalPeriod lowStep (BitVec.allOnes 63) = 1 :=
    minimalPeriod_eq_one_iff_isFixedPt.mpr lowStep_allOnes
  rw [← hones, minimalPeriod_apply_iterate hmem, hperiod] at hfixed
  exact absurd hfixed (by decide)

/-! ## Runs from reset -/

theorem low_reset : low (reset : State p).intLfsrReg = seed.setWidth 63 := by
  rw [low, reset, BitVec.setWidth_setWidth_of_le _ p.axisTdata_ge]

theorem low_next (s : State p) (mAxisTready : Bool) :
    low (next s mAxisTready).intLfsrReg =
      lowStep^[(steps s mAxisTready).toNat] (low s.intLfsrReg) := by
  have hnext : (next s mAxisTready).intLfsrReg = intLfsrNext s mAxisTready :=
    rfl
  rw [hnext, intLfsrNext]
  cases steps s mAxisTready with
  | false => rfl
  | true => exact low_feedback s.intLfsrReg

/-- The steps taken in a run. -/
def stepCount (s : State p) (inputs : List Bool) : ℕ :=
  (trace next s inputs).countP fun c => steps c.state c.input

theorem low_run (s : State p) (inputs : List Bool) :
    low (run next s inputs).intLfsrReg =
      lowStep^[stepCount s inputs] (low s.intLfsrReg) := by
  induction inputs generalizing s with
  | nil => rfl
  | cons mAxisTready inputs ih =>
      have hcount : stepCount s (mAxisTready :: inputs) =
          stepCount (next s mAxisTready) inputs +
            (steps s mAxisTready).toNat := by
        rw [stepCount, trace_cons, List.countP_cons]
        cases steps s mAxisTready <;> rfl
      rw [run_cons, ih, hcount, iterate_add_apply, low_next]

/-- The register is enabled after the first edge, and then moves in every cycle
in which it is not held back. -/
theorem stepCount_reset (mAxisTready : Bool) (inputs : List Bool) :
    stepCount (reset : State p) (mAxisTready :: inputs) =
      inputs.countP fun ready => ready || !p.hasTready := by
  have henabled : ∀ s : State p, s.intEnblReg = true →
      stepCount s inputs = inputs.countP fun ready => ready || !p.hasTready := by
    induction inputs with
    | nil => exact fun _ _ => rfl
    | cons ready inputs ih =>
        intro s hs
        have hnext : (next s ready).intEnblReg = true := by
          change intEnblNext s = true
          rw [intEnblNext, hs]
          rfl
        have hrest := ih (next s ready) hnext
        rw [stepCount] at hrest
        rw [stepCount, trace_cons, List.countP_cons, List.countP_cons, hrest,
          steps, hs, Bool.true_and]
  exact henabled (next reset mAxisTready) rfl

theorem stepCount_reset_eq (inputs : List Bool) :
    stepCount (reset : State p) inputs =
      inputs.tail.countP fun ready => ready || !p.hasTready := by
  cases inputs with
  | nil => rfl
  | cons mAxisTready inputs => exact stepCount_reset mAxisTready inputs

/-- From reset the low bits are never all ones, and they are those of the seed
exactly after every `2 ^ 63 - 1` steps: the cycle after the reset enables the
register, and every later one that does not hold it back is a step. -/
theorem maximal_length (p : Params) (inputs : List Bool) :
    low (run next (reset : State p) inputs).intLfsrReg ≠ BitVec.allOnes 63 ∧
      (low (run next (reset : State p) inputs).intLfsrReg =
          low (reset : State p).intLfsrReg ↔
        2 ^ 63 - 1 ∣
          inputs.tail.countP fun ready => ready || !p.hasTready) := by
  have hseed : seed.setWidth 63 ≠ BitVec.allOnes 63 := by decide
  rw [← stepCount_reset_eq, low_run, low_reset]
  constructor
  · exact iterate_lowStep_ne_allOnes hseed _
  · have hdvd := isPeriodicPt_iff_minimalPeriod_dvd (f := lowStep)
      (x := seed.setWidth 63) (n := stepCount (reset : State p) inputs)
    rw [minimalPeriod_lowStep hseed] at hdvd
    exact hdvd

/-- Two steps, with a cycle before each of them in which the register is not
enabled yet or held back, and the seed has not come back. -/
theorem maximal_length_twoSteps :
    let p : Params := ⟨64, true, by decide⟩
    let s : State p := run next reset [true, true, false, true]
    s.intLfsrReg = 0x17eb22859635bc37#64 ∧
      low s.intLfsrReg ≠ low (reset : State p).intLfsrReg := by
  intro p s
  refine ⟨by decide +kernel, fun hback => ?_⟩
  have hdvd := (maximal_length p [true, true, false, true]).2.mp hback
  exact absurd hdvd (by decide)

end RedPitayaNotes.AxisLfsr
