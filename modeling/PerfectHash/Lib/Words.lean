import PerfectHash.Lib.CValues
import Mathlib.Data.Int.Bitwise

/-! # The words of integers

The word of an integer in two's complement keeps its lowest bits. Conversions to types with at
least as many bits do not change it, and the bitwise operations on integers act on the words. -/

namespace Words

open CValues

/-- A conversion to a type with at least as many bits keeps the word. -/
theorem ofInt_conv {w : Nat} {t : IntType} (h : w ≤ t.bits) (x : Int) :
    BitVec.ofInt w (t.conv x) = BitVec.ofInt w x := by
  have hdvd : ((2 ^ w : Nat) : Int) ∣ 2 ^ t.bits := by
    push_cast
    exact pow_dvd_pow 2 h
  refine BitVec.eq_of_toNat_eq ?_
  rw [BitVec.toNat_ofInt, BitVec.toNat_ofInt, ← Int.emod_emod_of_dvd _ hdvd, IntType.conv_emod,
    Int.emod_emod_of_dvd _ hdvd]

/-- The exclusive or of two integers has the exclusive or of their words. -/
theorem ofInt_xor (w : Nat) (x y : Int) :
    BitVec.ofInt w (x.xor y) = BitVec.ofInt w x ^^^ BitVec.ofInt w y := by
  have hnot (n : Nat) : BitVec.ofInt w (.negSucc n) = ~~~BitVec.ofNat w n :=
    BitVec.ofInt_negSucc_eq_not_ofNat
  cases x with
  | ofNat m =>
    cases y with
    | ofNat n => exact BitVec.ofNat_xor
    | negSucc n =>
      change BitVec.ofInt w (.negSucc (m ^^^ n)) = BitVec.ofNat w m ^^^ _
      rw [hnot, hnot, BitVec.ofNat_xor, BitVec.not_xor_right]
  | negSucc m =>
    cases y with
    | ofNat n =>
      change BitVec.ofInt w (.negSucc (m ^^^ n)) = _ ^^^ BitVec.ofNat w n
      rw [hnot, hnot, BitVec.ofNat_xor, BitVec.not_xor_left]
    | negSucc n =>
      change BitVec.ofNat w (m ^^^ n) = _
      rw [hnot, hnot, BitVec.ofNat_xor, ← BitVec.not_xor_left, ← BitVec.not_xor_right,
        BitVec.not_not]

/-- An integer masked to `w` bits is the number of its word. -/
theorem land_mask (w : Nat) (x : Int) :
    x.land ((2 ^ w - 1 : Nat) : Int) = ((BitVec.ofInt w x).toNat : Int) := by
  cases x with
  | ofNat m =>
    change ((m &&& (2 ^ w - 1) : Nat) : Int) = ((BitVec.ofNat w m).toNat : Int)
    rw [Nat.and_two_pow_sub_one_eq_mod, BitVec.toNat_ofNat]
  | negSucc m =>
    change ((Nat.ldiff (2 ^ w - 1) m : Nat) : Int) = _
    rw [BitVec.ofInt_negSucc_eq_not_ofNat, Int.ofNat_inj]
    refine Nat.eq_of_testBit_eq fun i => ?_
    rw [Nat.testBit_ldiff, Nat.testBit_two_pow_sub_one, ← BitVec.getLsbD, BitVec.getLsbD_not,
      BitVec.getLsbD_ofNat]
    by_cases h : i < w <;> simp [h]

end Words
