import PerfectHash.HanovPP
import Mathlib.Data.Nat.Bitwise

/-! # The FNV hash

`fnv` computes in 64 bits and cuts the result to 32. Truncation commutes with every step, so this
is the same as computing in 32 bits throughout (`fnv_eq`). Hence the hash depends on the seed only
modulo `2 ^ 32`, and its lowest bit is the lowest bit of the seed plus that of the bytes. -/

namespace PerfectHash.HanovPP

/-- One step of FNV-1 in 32-bit arithmetic. -/
def fnvStep (d : BitVec 32) (c : UInt8) : BitVec 32 :=
  d * BitVec.ofNat 32 fnvPrime ^^^ BitVec.ofNat 32 c.toNat

theorem fnvStep_inj {d : BitVec 32} {c c' : UInt8} (h : fnvStep d c = fnvStep d c') : c = c' := by
  rw [fnvStep, fnvStep, BitVec.xor_right_inj] at h
  have hnat := congrArg BitVec.toNat h
  have := c.toNat_lt
  have := c'.toNat_lt
  simp only [BitVec.toNat_ofNat] at hnat
  exact UInt8.toNat_inj.mp (by omega)

/-- The word that a seed stands for. -/
def seedWord (seed : Nat) : BitVec 32 := BitVec.ofNat 32 (if seed = 0 then fnvPrime else seed)

private theorem mask_eq (x : BitVec 64) : (x &&& 0xffffffff).toNat = (x.setWidth 32).toNat := by
  rw [BitVec.toNat_and, BitVec.toNat_setWidth]
  exact Nat.and_two_pow_sub_one_eq_mod _ 32

private theorem setWidth_foldl (key : Bytes) (d : BitVec 64) :
    (key.foldl (fun d c => d * BitVec.ofNat 64 fnvPrime ^^^ BitVec.ofNat 64 c.toNat)
        d).setWidth 32 =
      key.foldl fnvStep (d.setWidth 32) := by
  induction key generalizing d with
  | nil => rfl
  | cons c key ih =>
    rw [List.foldl_cons, ih, List.foldl_cons, fnvStep, BitVec.setWidth_xor,
      BitVec.setWidth_mul _ _ (by decide), BitVec.setWidth_ofNat_of_le (by decide),
      BitVec.setWidth_ofNat_of_le (by decide)]

/-- The 64-bit hash cut to 32 bits is the 32-bit hash. -/
theorem fnv_eq (key : Bytes) (seed : Nat) :
    fnv key seed = (key.foldl fnvStep (seedWord seed)).toNat := by
  rw [fnv, mask_eq, setWidth_foldl, BitVec.setWidth_ofNat_of_le (by decide), seedWord]

/-! ## Seeds -/

theorem fnv_congr (hd : d ≠ 0) (hd' : d' ≠ 0) (h : d % 2 ^ 32 = d' % 2 ^ 32) (key : Bytes) :
    fnv key d = fnv key d' := by
  have : seedWord d = seedWord d' := by
    rw [seedWord, seedWord, if_neg hd, if_neg hd']
    exact BitVec.eq_of_toNat_eq (by simpa using h)
  rw [fnv_eq, fnv_eq, this]

/-- Every seed from 1 on acts as one of the seeds `1 .. 2 ^ 32`. -/
theorem exists_seed_le (hd : 1 ≤ d) :
    ∃ d', 1 ≤ d' ∧ d' ≤ 2 ^ 32 ∧ ∀ key, fnv key d = fnv key d' := by
  refine ⟨(d - 1) % 2 ^ 32 + 1, by omega, by omega, fnv_congr (by omega) (by omega) (by omega)⟩

/-- The prime has an inverse modulo `2 ^ 32`. -/
theorem fnvPrime_mul_inverse : BitVec.ofNat 32 fnvPrime * 0x359c449b#32 = 1#32 := by decide

theorem fnvStep_left_inj {d d' : BitVec 32} {c : UInt8} (h : fnvStep d c = fnvStep d' c) :
    d = d' := by
  rw [fnvStep, fnvStep, BitVec.xor_left_inj] at h
  have hmul := congrArg (· * 0x359c449b#32) h
  simpa only [BitVec.mul_assoc, fnvPrime_mul_inverse, BitVec.mul_one] using hmul

/-- No two of the seeds `1 .. 2 ^ 32` give a key the same hash. -/
theorem fnv_inj (hd : 1 ≤ d ∧ d ≤ 2 ^ 32) (hd' : 1 ≤ d' ∧ d' ≤ 2 ^ 32)
    (h : fnv key d = fnv key d') : d = d' := by
  have hword : seedWord d = seedWord d' := by
    rw [fnv_eq, fnv_eq] at h
    have hfold := BitVec.eq_of_toNat_eq h
    clear h
    generalize seedWord d = w at hfold ⊢
    generalize seedWord d' = w' at hfold ⊢
    induction key generalizing w w' with
    | nil => exact hfold
    | cons c key ih => exact fnvStep_left_inj (ih _ _ hfold)
  rw [seedWord, seedWord, if_neg (by omega), if_neg (by omega)] at hword
  have hnat := congrArg BitVec.toNat hword
  rw [BitVec.toNat_ofNat, BitVec.toNat_ofNat] at hnat
  omega

theorem fnv_lt (key : Bytes) (seed : Nat) : fnv key seed < 2 ^ 32 := by
  rw [fnv_eq]
  exact BitVec.isLt _

/-! ## The lowest bit -/

/-- The lowest bit of the hash is the lowest bit of the sum of the seed and the bytes. -/
theorem fnv_mod_two (key : Bytes) (seed : Nat) :
    fnv key seed % 2 = ((seedWord seed).toNat + (key.map UInt8.toNat).sum) % 2 := by
  rw [fnv_eq]
  generalize seedWord seed = d
  induction key generalizing d with
  | nil => simp
  | cons c key ih =>
    have hstep : (fnvStep d c).toNat % 2 = (d.toNat + c.toNat) % 2 := by
      rw [fnvStep, BitVec.toNat_xor, Nat.xor_mod_two_eq, BitVec.toNat_mul, BitVec.toNat_ofNat,
        BitVec.toNat_ofNat]
      simp only [fnvPrime]
      omega
    rw [List.foldl_cons, ih, List.map_cons, List.sum_cons]
    omega

/-- Two keys with one hash modulo an even number under one seed agree modulo 2 under every
seed. -/
theorem fnv_mod_two_eq {size : Nat} (heven : 2 ∣ size)
    (h : fnv k s % size = fnv k' s % size) (d : Nat) : fnv k d % 2 = fnv k' d % 2 := by
  have hs : fnv k s % 2 = fnv k' s % 2 := by
    rw [← Nat.mod_mod_of_dvd _ heven, h, Nat.mod_mod_of_dvd _ heven]
  rw [fnv_mod_two, fnv_mod_two] at hs ⊢
  omega

end PerfectHash.HanovPP
