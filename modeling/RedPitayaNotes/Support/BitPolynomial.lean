import Mathlib.Algebra.Algebra.ZMod
import Mathlib.Algebra.CharP.Two
import Mathlib.Algebra.Field.ZMod
import Mathlib.RingTheory.AdjoinRoot
import Mathlib.RingTheory.Coprime.Lemmas
import RedPitayaNotes.Support.LinearPeriod

/-!
# Polynomials over two elements as numbers

A number stands for the polynomial whose coefficients are its bits.  This module
computes powers of `X` modulo such a polynomial, and checks a certificate that
`X` has a given order and that no proper part of the order will do.  The order
is then the period of the linear maps that satisfy the polynomial.
-/

namespace BitPolynomial

open Polynomial

/-- The polynomial whose coefficients are the bits of `a`. -/
noncomputable def toPoly (a : ℕ) : (ZMod 2)[X] :=
  ∑ i ∈ Finset.range (a + 1), if a.testBit i then X ^ i else 0

theorem coeff_toPoly (a i : ℕ) :
    (toPoly a).coeff i = if a.testBit i then 1 else 0 := by
  have hterm (j : ℕ) :
      (if a.testBit j then X ^ j else 0 : (ZMod 2)[X]).coeff i =
        if i = j then (if a.testBit j then 1 else 0) else 0 := by
    rw [apply_ite (coeff · i), coeff_X_pow, coeff_zero]
    split_ifs <;> rfl
  rw [toPoly, finsetSum_coeff, Finset.sum_congr rfl fun j _ => hterm j,
    Finset.sum_ite_eq]
  split_ifs with hi hbit hbit
  · rfl
  · rfl
  · rw [Finset.mem_range, Nat.not_lt] at hi
    have hlt : a < 2 ^ i :=
      Nat.lt_trans (Nat.lt_two_pow_self) (Nat.pow_lt_pow_right (by decide) hi)
    rw [Nat.testBit_lt_two_pow hlt] at hbit
    cases hbit
  · rfl

theorem toPoly_xor (a b : ℕ) : toPoly (a ^^^ b) = toPoly a + toPoly b := by
  ext i
  rw [coeff_add, coeff_toPoly, coeff_toPoly, coeff_toPoly, Nat.testBit_xor]
  cases a.testBit i <;> cases b.testBit i <;> decide

@[simp] theorem toPoly_zero : toPoly 0 = 0 := by
  ext i
  simp [coeff_toPoly]

@[simp] theorem toPoly_one : toPoly 1 = 1 := by
  ext i
  rw [coeff_toPoly, coeff_one]
  cases i with
  | zero => simp
  | succ i => simp [Nat.testBit_succ]

theorem toPoly_two_mul (a : ℕ) : toPoly (2 * a) = X * toPoly a := by
  ext i
  cases i with
  | zero => simp [coeff_toPoly]
  | succ i =>
      rw [coeff_X_mul, coeff_toPoly, coeff_toPoly, Nat.testBit_succ,
        Nat.mul_div_cancel_left a (by decide)]

theorem toPoly_two_mul_add_one (a : ℕ) :
    toPoly (2 * a + 1) = X * toPoly a + 1 := by
  ext i
  rw [coeff_add, coeff_one]
  cases i with
  | zero => simp [coeff_toPoly]
  | succ i =>
      have hhalf : (2 * a + 1) / 2 = a := by omega
      rw [coeff_X_mul, coeff_toPoly, coeff_toPoly, Nat.testBit_succ, hhalf]
      simp

theorem toPoly_two_pow (n : ℕ) : toPoly (2 ^ n) = X ^ n := by
  induction n with
  | zero => simp
  | succ n ih => rw [Nat.pow_succ', toPoly_two_mul, ih, pow_succ']

/-! ## Arithmetic modulo a polynomial -/

variable (f : ℕ)

/-- `X * a` modulo `f`. -/
def timesX (a : ℕ) : ℕ :=
  if (2 * a).testBit f.log2 then (2 * a) ^^^ f else 2 * a

/-- The product of `b` and the lowest bits of `a`, by Horner's rule. -/
def mulBits (b : ℕ) : ℕ → ℕ → ℕ
  | 0, _ => 0
  | k + 1, a =>
      let r := timesX f (mulBits b k (a / 2))
      if a % 2 = 1 then r ^^^ b else r

def mulMod (a b : ℕ) : ℕ := mulBits f b (a.log2 + 1) a

/-- `X` to the power of the lowest bits of `n`, by squaring. -/
def powBits : ℕ → ℕ → ℕ
  | 0, _ => 1
  | k + 1, n =>
      let r := powBits k (n / 2)
      let s := mulMod f r r
      if n % 2 = 1 then timesX f s else s

def powX (n : ℕ) : ℕ := powBits f (n.log2 + 1) n

/-- The residue of a number as a polynomial. -/
noncomputable def residue (a : ℕ) : AdjoinRoot (toPoly f) :=
  AdjoinRoot.mk (toPoly f) (toPoly a)

theorem residue_xor (a b : ℕ) :
    residue f (a ^^^ b) = residue f a + residue f b := by
  rw [residue, toPoly_xor, map_add]
  rfl

@[simp] theorem residue_one : residue f 1 = 1 := by
  rw [residue, toPoly_one, map_one]

theorem residue_two_mul (a : ℕ) :
    residue f (2 * a) = AdjoinRoot.root (toPoly f) * residue f a := by
  rw [residue, toPoly_two_mul, map_mul, AdjoinRoot.mk_X]
  rfl

theorem residue_eq (a : ℕ) :
    residue f a = AdjoinRoot.root (toPoly f) * residue f (a / 2) +
      if a % 2 = 1 then 1 else 0 := by
  rcases Nat.mod_two_eq_zero_or_one a with h | h
  · have ha : a = 2 * (a / 2) := by omega
    rw [if_neg (by omega), add_zero]
    conv_lhs => rw [ha]
    exact residue_two_mul f (a / 2)
  · have ha : a = 2 * (a / 2) + 1 := by omega
    rw [if_pos h]
    conv_lhs => rw [ha]
    rw [residue, toPoly_two_mul_add_one, map_add, map_mul, AdjoinRoot.mk_X,
      map_one]
    rfl

theorem residue_timesX (a : ℕ) :
    residue f (timesX f a) = AdjoinRoot.root (toPoly f) * residue f a := by
  have hself : residue f f = 0 := AdjoinRoot.mk_self
  rw [timesX, ← residue_two_mul]
  split_ifs
  · rw [residue_xor, hself, add_zero]
  · rfl

theorem residue_mulBits (b : ℕ) {k a : ℕ} (ha : a < 2 ^ k) :
    residue f (mulBits f b k a) = residue f a * residue f b := by
  induction k generalizing a with
  | zero =>
      have hzero : a = 0 := by omega
      rw [mulBits, hzero, residue, toPoly_zero, map_zero, zero_mul]
  | succ k ih =>
      have hhalf : a / 2 < 2 ^ k := by
        rw [Nat.pow_succ] at ha
        omega
      have hr : residue f (timesX f (mulBits f b k (a / 2))) =
          AdjoinRoot.root (toPoly f) * residue f (a / 2) * residue f b := by
        rw [residue_timesX, ih hhalf, mul_assoc]
      rw [mulBits, residue_eq f a, add_mul, ← hr]
      split_ifs
      · rw [residue_xor, one_mul]
      · rw [zero_mul, add_zero]

theorem residue_mulMod (a b : ℕ) :
    residue f (mulMod f a b) = residue f a * residue f b :=
  residue_mulBits f b Nat.lt_log2_self

theorem residue_powBits {k n : ℕ} (hn : n < 2 ^ k) :
    residue f (powBits f k n) = AdjoinRoot.root (toPoly f) ^ n := by
  induction k generalizing n with
  | zero =>
      have hzero : n = 0 := by omega
      rw [powBits, hzero, residue_one, pow_zero]
  | succ k ih =>
      have hhalf : n / 2 < 2 ^ k := by
        rw [Nat.pow_succ] at hn
        omega
      have hs : residue f (mulMod f (powBits f k (n / 2)) (powBits f k (n / 2))) =
          AdjoinRoot.root (toPoly f) ^ (2 * (n / 2)) := by
        rw [residue_mulMod, ih hhalf, ← pow_add, Nat.two_mul]
      rw [powBits]
      split_ifs with hodd
      · have hn' : n = 2 * (n / 2) + 1 := by omega
        conv_rhs => rw [hn', pow_succ']
        rw [residue_timesX, hs]
      · have hn' : n = 2 * (n / 2) := by omega
        conv_rhs => rw [hn']
        exact hs

theorem residue_powX (n : ℕ) :
    residue f (powX f n) = AdjoinRoot.root (toPoly f) ^ n :=
  residue_powBits f Nat.lt_log2_self

/-! ## Certificates -/

/-- `X ^ n` is 1 modulo `f`, and for each pair of a number `q` and a polynomial
the polynomial is an inverse of `X ^ (n / q) - 1`. -/
def certifies (n : ℕ) (inverses : List (ℕ × ℕ)) : Bool :=
  powX f n == 1 && inverses.all fun x =>
    mulMod f x.2 (powX f (n / x.1) ^^^ 1) == 1

variable {f} {n : ℕ} {inverses : List (ℕ × ℕ)}

theorem dvd_of_certifies (h : certifies f n inverses = true) :
    toPoly f ∣ X ^ n - 1 := by
  have hpow : powX f n = 1 := by
    simpa using (Bool.and_eq_true_iff.mp h).1
  have hroot := residue_powX f n
  rw [hpow, residue_one] at hroot
  rw [← AdjoinRoot.mk_eq_zero, map_sub, map_pow, AdjoinRoot.mk_X, map_one,
    ← hroot, sub_self]

theorem isCoprime_of_certifies (h : certifies f n inverses = true)
    {x : ℕ × ℕ} (hx : x ∈ inverses) :
    IsCoprime (toPoly f) (X ^ (n / x.1) - 1) := by
  have hmul : mulMod f x.2 (powX f (n / x.1) ^^^ 1) = 1 := by
    have hall := (Bool.and_eq_true_iff.mp h).2
    simpa using List.all_eq_true.mp hall x hx
  have hresidue := residue_mulMod f x.2 (powX f (n / x.1) ^^^ 1)
  rw [hmul, residue_one, residue_xor, residue_powX, residue_one] at hresidue
  have hdvd : toPoly f ∣ toPoly x.2 * (X ^ (n / x.1) - 1) - 1 := by
    rw [← AdjoinRoot.mk_eq_zero, CharTwo.sub_eq_add (X ^ (n / x.1)), map_sub,
      map_mul, map_add, map_pow, AdjoinRoot.mk_X, map_one]
    exact sub_eq_zero.mpr hresidue.symm
  obtain ⟨g, hg⟩ := hdvd
  refine ⟨-g, toPoly x.2, ?_⟩
  have hsum := sub_eq_iff_eq_add.mp hg
  rw [hsum]
  ring

/-- With an inverse for each prime of `n`, a linear map that satisfies the
polynomial on a vector has the period `n` on it. -/
theorem minimalPeriod_of_certifies (h : certifies f n inverses = true)
    (hprimes : ∀ q, q.Prime → q ∣ n → ∃ x ∈ inverses, x.1 = q)
    {V : Type*} [AddCommGroup V] [Module (ZMod 2) V] {E : Module.End (ZMod 2) V}
    {v : V} (hv : aeval E (toPoly f) v = 0) (hne : v ≠ 0) :
    Function.minimalPeriod E v = n := by
  refine LinearPeriod.minimalPeriod_eq (dvd_of_certifies h) ?_ hv hne
  intro q hprime hq
  obtain ⟨x, hx, rfl⟩ := hprimes q hprime hq
  exact isCoprime_of_certifies h hx

end BitPolynomial
