import Mathlib.FieldTheory.Finite.Basic

/-! # The strong test for primes

Write `n - 1` as `2 ^ s * d` with an odd `d`. The base `a` passes the test when `a ^ d` is 1 modulo
`n`, or when one of `a ^ d`, `a ^ (2 * d)`, ..., `a ^ (2 ^ (s - 1) * d)` is -1. A prime is passed by
every base that it does not divide (`passes_of_prime`). -/

namespace StrongPrimes

variable {n a s t d e p : Nat}

/-- A square root of 1 is 1 or -1, so repeated squaring goes from -1 to 1 or starts with 1. -/
theorem eq_one_or_eq_neg_one {R : Type*} [Ring R] [NoZeroDivisors R] {x : R}
    (h : x ^ 2 ^ s = 1) : x = 1 ∨ ∃ i < s, x ^ 2 ^ i = -1 := by
  induction s with
  | zero => exact .inl (by rwa [pow_zero, pow_one] at h)
  | succ s ih =>
    rw [pow_succ, pow_mul, sq_eq_one_iff] at h
    rcases h with h | h
    · exact (ih h).imp_right fun ⟨i, hi, hx⟩ => ⟨i, Nat.lt_succ_of_lt hi, hx⟩
    · exact .inr ⟨s, Nat.lt_succ_self s, h⟩

/-- The base `a` passes the test of `n`. -/
def Passes (n a s d : Nat) : Prop :=
  (a : ZMod n) ^ d = 1 ∨ ∃ i < s, (a : ZMod n) ^ (2 ^ i * d) = -1

/-- A prime passes. -/
theorem passes_of_prime (hp : p.Prime) (hsd : p - 1 = 2 ^ s * d) (ha : ¬ p ∣ a) :
    Passes p a s d := by
  have := Fact.mk hp
  have hne : (a : ZMod p) ≠ 0 := mt (ZMod.natCast_eq_zero_iff a p).mp ha
  have hfermat := ZMod.pow_card_sub_one_eq_one hne
  rw [hsd, Nat.mul_comm, pow_mul] at hfermat
  refine (eq_one_or_eq_neg_one hfermat).imp_right fun ⟨i, hi, hx⟩ => ⟨i, hi, ?_⟩
  rwa [Nat.mul_comm, pow_mul]

/-- The odd part of a number and the power of two are unique. -/
theorem eq_of_two_pow_mul (hd : Odd d) (he : Odd e) (h : 2 ^ s * d = 2 ^ t * e) :
    s = t ∧ d = e := by
  have hhalf (k x : Nat) : 2 ^ (k + 1) * x = 2 * (2 ^ k * x) := by rw [pow_succ', mul_assoc]
  obtain ⟨a, ha⟩ := hd
  obtain ⟨b, hb⟩ := he
  induction s generalizing t with
  | zero =>
    cases t with
    | zero => exact ⟨rfl, by rwa [pow_zero, one_mul, one_mul] at h⟩
    | succ t =>
      rw [pow_zero, one_mul, hhalf] at h
      omega
  | succ s ih =>
    cases t with
    | zero =>
      rw [pow_zero, one_mul, hhalf] at h
      omega
    | succ t =>
      rw [hhalf, hhalf] at h
      exact (ih (Nat.eq_of_mul_eq_mul_left two_pos h)).imp_left (congrArg _)

/-- The test of `n` with the base `a`. -/
def Probable (n a : Nat) : Prop := ∃ s d, Odd d ∧ n - 1 = 2 ^ s * d ∧ Passes n a s d

theorem probable_iff (hd : Odd d) (hsd : n - 1 = 2 ^ s * d) : Probable n a ↔ Passes n a s d := by
  refine ⟨fun ⟨t, e, he, hte, h⟩ => ?_, fun h => ⟨s, d, hd, hsd, h⟩⟩
  obtain ⟨rfl, rfl⟩ := eq_of_two_pow_mul hd he (hsd.symm.trans hte)
  exact h

end StrongPrimes
