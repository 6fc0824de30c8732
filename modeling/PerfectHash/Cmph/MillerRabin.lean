import PerfectHash.Cmph
import PerfectHash.Lib.StrongPrimes
import Mathlib.Tactic.NormNum.Prime

/-! # The test for primes (`miller_rabin.c`)

After a trial division by 2, 3, 5 and 7 a number has to pass the strong test with the bases 2, 7 and
61 (`checkPrimality_iff`). Each prime passes, but for those that are a divisor or divide a base
(`checkPrimality_prime`). -/

namespace PerfectHash.Cmph

open StrongPrimes

/-- The value of an operation on `cmph_uint64`. -/
def u64 (x : Nat) : Nat := x % 18446744073709551616

/-- The loop of `int_pow`. -/
def intPowLoop (n : Nat) : Nat → Nat → Nat → Nat → Option Nat
  | 0, _, _, _ => none
  | turns + 1, aPow, d, res => do
    if d = 0 then return res
    if n = 0 then none
    let res := if d &&& 1 = 1 then u64 (res * aPow) % n else res
    intPowLoop n turns (u64 (aPow * aPow) % n) (d / 2) res

/-- `int_pow` -/
def intPow (a d n : Nat) : Option Nat := intPowLoop n 65 a d 1

/-- The loop of `check_witness`, with the turns that are left. -/
def checkWitnessLoop (n : Nat) : Nat → Nat → Bool
  | 0, _ => false
  | turns + 1, aExp =>
    let aExp := u64 (aExp * aExp) % n
    if aExp = n - 1 then true else checkWitnessLoop n turns aExp

/-- `check_witness` -/
def checkWitness (aExpD n s : Nat) : Bool :=
  if aExpD = 1 ∨ aExpD = n - 1 then true else checkWitnessLoop n (s - 1) aExpD

/-- The loop of `check_primality` that takes the twos out of `n - 1`. -/
def decompose : Nat → Nat → Nat → Option (Nat × Nat)
  | 0, _, _ => none
  | turns + 1, s, d =>
    let s := s + 1
    let d := d / 2
    if d % 2 = 0 then decompose turns s d else some (s, d)

/-- The bases of the test, in turn. -/
def checkBases (n s d : Nat) : List Nat → Option Bool
  | [] => some true
  | a :: bases => do
    let aExpD ← intPow a d n
    if checkWitness aExpD n s then checkBases n s d bases else return false

/-- `check_primality` -/
def checkPrimality (n : Nat) : Option Bool := do
  if n % 2 = 0 then return false
  if n % 3 = 0 then return false
  if n % 5 = 0 then return false
  if n % 7 = 0 then return false
  let (s, d) ← decompose 64 0 (n - 1)
  checkBases n s d [2, 7, 61]

variable {n a d s x p turns res : Nat}

/-! ## The functions -/

theorem u64_of_lt (h : x < 2 ^ 64) : u64 x = x := Nat.mod_eq_of_lt h

theorem mul_lt (ha : a < 2 ^ 32) (hx : x < 2 ^ 32) : a * x < 2 ^ 64 :=
  (Nat.mul_lt_mul'' ha hx).trans_le (by decide)

theorem intPowLoop_eq (hn : 0 < n) (hlt : n < 2 ^ 32) (ha : a < 2 ^ 32) (hres : res < n)
    (hd : d < 2 ^ turns) : intPowLoop n (turns + 1) a d res = some (res * a ^ d % n) := by
  induction turns generalizing a d res with
  | zero =>
    obtain rfl : d = 0 := Nat.lt_one_iff.mp hd
    rw [pow_zero, mul_one, Nat.mod_eq_of_lt hres]
    rfl
  | succ turns ih =>
    rcases Nat.eq_zero_or_pos d with rfl | hpos
    · rw [pow_zero, mul_one, Nat.mod_eq_of_lt hres]
      rfl
    have hsq : a * a % n < n := Nat.mod_lt _ hn
    have hhalf : d / 2 < 2 ^ turns := by omega
    have hpow : a ^ d = a ^ (d % 2) * (a * a) ^ (d / 2) := by
      rw [← pow_two, ← pow_mul, ← pow_add, Nat.mod_add_div]
    rw [intPowLoop, if_neg hpos.ne', if_neg hn.ne', Nat.and_one_is_mod, u64_of_lt (mul_lt ha ha)]
    split_ifs with hodd
    · rw [u64_of_lt (mul_lt (hres.trans hlt) ha),
        ih (hsq.trans hlt) (Nat.mod_lt _ hn) hhalf, hpow, hodd, pow_one, ← mul_assoc]
      exact congrArg some ((Nat.mod_modEq _ n).mul ((Nat.mod_modEq _ n).pow _))
    · rw [ih (hsq.trans hlt) hres hhalf, hpow, Nat.mod_two_ne_one.mp hodd, pow_zero, one_mul]
      exact congrArg some ((Nat.mod_modEq _ n).pow _ |>.mul_left _)

theorem intPow_eq (hn : 1 < n) (hlt : n < 2 ^ 32) (ha : a < 2 ^ 32) (hd : d < 2 ^ 64) :
    intPow a d n = some (a ^ d % n) := by
  rw [intPow, intPowLoop_eq (by omega) hlt ha hn hd, one_mul]

theorem checkWitnessLoop_iff (hlt : n < 2 ^ 32) (hx : x < n) (turns : Nat) :
    checkWitnessLoop n turns x = true ↔ ∃ i < turns, x ^ 2 ^ (i + 1) % n = n - 1 := by
  induction turns generalizing x with
  | zero => simp [checkWitnessLoop]
  | succ turns ih =>
    have hsq (i : Nat) : (x * x % n) ^ 2 ^ i % n = x ^ 2 ^ (i + 1) % n := by
      rw [← Nat.pow_mod, ← pow_two, ← pow_mul, ← pow_succ']
    rw [Nat.exists_lt_succ_left, zero_add, pow_one, pow_two, checkWitnessLoop,
      u64_of_lt (mul_lt (hx.trans hlt) (hx.trans hlt))]
    by_cases h : x * x % n = n - 1
    · simp [h]
    · rw [if_neg h, ih (Nat.mod_lt _ (by omega))]
      simp [h, hsq]

theorem checkWitness_iff (hlt : n < 2 ^ 32) (hx : x < n) (hs : 0 < s) :
    checkWitness x n s = true ↔ x = 1 ∨ ∃ i < s, x ^ 2 ^ i % n = n - 1 := by
  obtain ⟨s, rfl⟩ := Nat.exists_eq_succ_of_ne_zero hs.ne'
  rw [Nat.succ_eq_add_one, Nat.exists_lt_succ_left, pow_zero, pow_one, Nat.mod_eq_of_lt hx,
    ← or_assoc, checkWitness, Nat.add_sub_cancel, ← checkWitnessLoop_iff hlt hx]
  by_cases h : x = 1 ∨ x = n - 1
  · simp [h]
  · simp [h]

/-- The test of a base, on the power that `int_pow` computes. -/
theorem checkWitness_pow (hn : 1 < n) (hlt : n < 2 ^ 32) (hs : 0 < s) :
    checkWitness (a ^ d % n) n s = true ↔ Passes n a s d := by
  have hone : a ^ d % n = 1 ↔ (a : ZMod n) ^ d = 1 := by
    rw [← Nat.cast_pow, ← Nat.cast_one (R := ZMod n), ZMod.natCast_eq_natCast_iff',
      Nat.mod_eq_of_lt hn]
  have hneg : ((n - 1 : Nat) : ZMod n) = -1 := by
    rw [Nat.cast_sub hn.le, ZMod.natCast_self, Nat.cast_one, zero_sub]
  rw [checkWitness_iff hlt (Nat.mod_lt _ (by omega)) hs, hone]
  refine or_congr_right (exists_congr fun i => and_congr_right fun _ => ?_)
  rw [← Nat.pow_mod, ← pow_mul, Nat.mul_comm, ← hneg, ← Nat.cast_pow,
    ZMod.natCast_eq_natCast_iff', Nat.mod_eq_of_lt (Nat.sub_lt (by omega) one_pos)]

theorem decompose_spec (turns s : Nat) (hd : 0 < d) (hlt : d < 2 ^ (turns + 1)) (h2 : d % 2 = 0) :
    ∃ s' d', decompose turns s d = some (s', d') ∧ Odd d' ∧ s < s' ∧ d = 2 ^ (s' - s) * d' := by
  induction turns generalizing s d with
  | zero => omega
  | succ turns ih =>
    rw [decompose]
    split_ifs with h
    · obtain ⟨s', d', hrun, hodd, hs, hd'⟩ := ih (s + 1) (by omega) (by omega) h
      refine ⟨s', d', hrun, hodd, by omega, ?_⟩
      rw [show s' - s = s' - (s + 1) + 1 by omega, pow_succ', mul_assoc, ← hd']
      omega
    · refine ⟨s + 1, d / 2, rfl, Nat.odd_iff.mpr (by omega), Nat.lt_succ_self s, ?_⟩
      rw [Nat.add_sub_cancel_left, pow_one]
      omega

/-- For 1 the loop of `check_primality` does not end. -/
theorem decompose_zero : decompose turns s 0 = none := by
  induction turns generalizing s with
  | zero => rfl
  | succ turns ih => exact ih

theorem checkBases_eq (hn : 1 < n) (hlt : n < 2 ^ 32) (hs : 0 < s) (hd : d < 2 ^ 64)
    (bases : List Nat) (hbases : ∀ a ∈ bases, a < 2 ^ 32) :
    ∃ b, checkBases n s d bases = some b ∧ (b = true ↔ ∀ a ∈ bases, Passes n a s d) := by
  induction bases with
  | nil => exact ⟨true, rfl, by simp⟩
  | cons a bases ih =>
    obtain ⟨ha, hbases⟩ := List.forall_mem_cons.mp hbases
    rw [checkBases, intPow_eq hn hlt ha hd, Option.bind_eq_bind, Option.bind_some]
    simp only [List.forall_mem_cons, ← checkWitness_pow (a := a) (d := d) hn hlt hs]
    split_ifs with h
    · simpa [h] using ih hbases
    · exact ⟨false, rfl, by simp [h]⟩

/-! ## The test -/

/-- The numbers that `check_primality` accepts. -/
def Accepted (n : Nat) : Prop := (∀ q ∈ [2, 3, 5, 7], ¬ q ∣ n) ∧ ∀ a ∈ [2, 7, 61], Probable n a

theorem checkPrimality_spec (hn : 1 < n) (hlt : n < 2 ^ 32) :
    ∃ b, checkPrimality n = some b ∧ (b = true ↔ Accepted n) := by
  have hdvd (q : Nat) (h : n % q = 0) (hq : q ∈ [2, 3, 5, 7]) : (false = true ↔ Accepted n) :=
    iff_of_false nofun fun hn => hn.1 q hq (Nat.dvd_of_mod_eq_zero h)
  rw [checkPrimality]
  split_ifs with h2 h3 h5 h7
  · exact ⟨false, rfl, hdvd 2 h2 (by decide)⟩
  · exact ⟨false, rfl, hdvd 3 h3 (by decide)⟩
  · exact ⟨false, rfl, hdvd 5 h5 (by decide)⟩
  · exact ⟨false, rfl, hdvd 7 h7 (by decide)⟩
  obtain ⟨s, d, hrun, hodd, hs, hsd⟩ := decompose_spec 64 0
    (show 0 < n - 1 by omega) (by omega) (by omega)
  have hd : d < 2 ^ 64 := by
    have := Nat.le_mul_of_pos_left d (Nat.two_pow_pos (s - 0))
    omega
  obtain ⟨b, hbases, hb⟩ := checkBases_eq hn hlt hs hd [2, 7, 61] (by decide)
  refine ⟨b, ?_, hb.trans ?_⟩
  · rw [hrun, Option.bind_eq_bind, Option.bind_some]
    exact hbases
  · simp only [Accepted, probable_iff hodd hsd, Nat.dvd_iff_mod_eq_zero]
    simp [h2, h3, h5, h7]

/-- For each 32-bit number but 1, with which it never ends, `check_primality` tells whether the
number has none of the divisors 2, 3, 5 and 7 and passes the strong test with the bases 2, 7 and 61. -/
theorem checkPrimality_iff (hlt : n < 2 ^ 32) :
    (checkPrimality n = none ↔ n = 1) ∧ (checkPrimality n = some true ↔ n ≠ 1 ∧ Accepted n) := by
  rcases Nat.lt_trichotomy n 1 with h | rfl | h
  · obtain rfl : n = 0 := by omega
    exact ⟨by decide, iff_of_false nofun fun h => h.2.1 2 (by decide) (dvd_zero 2)⟩
  · have hnone : checkPrimality 1 = none := by
      rw [checkPrimality, decompose_zero]
      rfl
    rw [hnone]
    exact ⟨iff_of_true rfl rfl, iff_of_false nofun fun h => h.1 rfl⟩
  · obtain ⟨b, hrun, hb⟩ := checkPrimality_spec h hlt
    rw [hrun, Option.some.injEq, hb]
    exact ⟨iff_of_false nofun h.ne', iff_and_self.mpr fun _ => h.ne'⟩

theorem accepted_of_prime (hp : p.Prime) (h : p ∉ [2, 3, 5, 7, 61]) : Accepted p := by
  have hprime : ∀ q ∈ [2, 3, 5, 7, 61], q.Prime := by norm_num
  obtain ⟨s, d, hodd, hsd⟩ := Nat.exists_eq_two_pow_mul_odd (Nat.sub_pos_of_lt hp.one_lt).ne'
  refine ⟨fun q hq hdvd => ?_, fun a ha => ⟨s, d, hodd, hsd, passes_of_prime hp hsd fun hdvd => ?_⟩⟩
  · have hq : q ∈ [2, 3, 5, 7, 61] := List.mem_append_left [61] hq
    exact h ((Nat.prime_dvd_prime_iff_eq (hprime q hq) hp).mp hdvd ▸ hq)
  · have ha : a ∈ [2, 3, 5, 7, 61] := by
      revert ha
      simp only [List.mem_cons]
      tauto
    exact h ((Nat.prime_dvd_prime_iff_eq hp (hprime a ha)).mp hdvd ▸ ha)

theorem checkPrimality_iff_eleven : checkPrimality 11 = some true :=
  (checkPrimality_iff (by decide)).2.mpr
    ⟨by decide, accepted_of_prime (by norm_num) (by decide)⟩

/-- Of the 32-bit primes `check_primality` accepts all but 2, 3, 5, 7 and 61. -/
theorem checkPrimality_prime (hp : p.Prime) (hlt : p < 2 ^ 32) :
    checkPrimality p = some (decide (p ∉ [2, 3, 5, 7, 61])) := by
  by_cases h : p ∈ [2, 3, 5, 7, 61]
  · fin_cases h <;> rfl
  obtain ⟨b, hrun, hb⟩ := checkPrimality_spec hp.one_lt hlt
  rw [hrun, decide_eq_true h, hb.mpr (accepted_of_prime hp h)]

theorem checkPrimality_prime_sixtyOne : checkPrimality 61 = some false :=
  checkPrimality_prime (by norm_num) (by decide)

end PerfectHash.Cmph
