import Mathlib.Algebra.Polynomial.AlgebraMap
import Mathlib.Dynamics.PeriodicPts.Defs
import Mathlib.RingTheory.Coprime.Basic

/-!
# Periods of linear maps

A linear map that satisfies a polynomial on a vector has, on that vector, the
period that `X` has modulo the polynomial.  The instance that shift registers
need is the shift of sequences that satisfy a recurrence.
-/

namespace LinearPeriod

open Polynomial Function

section Map

variable {K V : Type*} [CommRing K] [AddCommGroup V] [Module K V]
  {E : Module.End K V} {f : K[X]} {v : V} {n : ℕ}

/-- What the polynomial divides kills the vector too. -/
theorem aeval_eq_zero_of_dvd (hv : aeval E f v = 0) {g : K[X]} (h : f ∣ g) :
    aeval E g v = 0 := by
  obtain ⟨c, rfl⟩ := h
  rw [mul_comm, map_mul, Module.End.mul_apply, hv, map_zero]

theorem isPeriodicPt_iff (n : ℕ) :
    IsPeriodicPt E n v ↔ aeval E (X ^ n - 1 : K[X]) v = 0 := by
  rw [map_sub, map_pow, aeval_X, map_one, LinearMap.sub_apply,
    Module.End.pow_apply, Module.End.one_apply, sub_eq_zero]
  rfl

/-- A number of steps that is coprime to the polynomial moves the vector. -/
theorem not_isPeriodicPt_of_isCoprime (hv : aeval E f v = 0) (hne : v ≠ 0)
    (h : IsCoprime f (X ^ n - 1)) : ¬ IsPeriodicPt E n v := by
  rw [isPeriodicPt_iff]
  intro hn
  obtain ⟨a, b, hab⟩ := h
  have hone := congrArg (fun g => aeval E g v) hab
  simp only [map_add, map_mul, map_one, LinearMap.add_apply,
    Module.End.mul_apply, Module.End.one_apply, hv, map_zero, zero_add]
    at hone
  rw [hn, map_zero] at hone
  exact hne hone.symm

/-- A proper divisor divides the number over one of its primes. -/
theorem exists_prime_dvd_div {m : ℕ} (hdvd : m ∣ n) (hne : m ≠ n) :
    ∃ q, q.Prime ∧ q ∣ n ∧ m ∣ n / q := by
  obtain ⟨k, rfl⟩ := hdvd
  have hk : k ≠ 1 := by
    rintro rfl
    exact hne (Nat.mul_one m).symm
  have hq := Nat.minFac_dvd k
  refine ⟨k.minFac, Nat.minFac_prime hk, hq.mul_left m, ?_⟩
  rw [Nat.mul_div_assoc m hq]
  exact Nat.dvd_mul_right m _

/-- When `X` has order `n` modulo the polynomial, and every power of it over a
prime of `n` differs from 1 by a unit, the period is `n`. -/
theorem minimalPeriod_eq (hdvd : f ∣ X ^ n - 1)
    (hcoprime : ∀ q, q.Prime → q ∣ n → IsCoprime f (X ^ (n / q) - 1))
    (hv : aeval E f v = 0) (hne : v ≠ 0) : minimalPeriod E v = n := by
  have hperiodic : IsPeriodicPt E n v :=
    (isPeriodicPt_iff n).mpr (aeval_eq_zero_of_dvd hv hdvd)
  by_contra hproper
  obtain ⟨q, hprime, hq, hm⟩ :=
    exists_prime_dvd_div hperiodic.minimalPeriod_dvd hproper
  exact not_isPeriodicPt_of_isCoprime hv hne (hcoprime q hprime hq)
    (isPeriodicPt_iff_minimalPeriod_dvd.mpr hm)

end Map

/-! ## Sequences -/

section Shift

variable (K : Type*) [CommRing K]

/-- The shift of sequences. -/
def shift : Module.End K (ℕ → K) := LinearMap.funLeft K K Nat.succ

variable {K}

theorem shift_pow_apply (n : ℕ) (a : ℕ → K) (i : ℕ) :
    (shift K ^ n) a i = a (i + n) := by
  induction n generalizing a with
  | zero => rfl
  | succ n ih =>
      rw [pow_succ, Module.End.mul_apply, ih]
      rfl

end Shift

end LinearPeriod
