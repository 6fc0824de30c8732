import PerfectHash.HanovPP.SaveC
import PerfectHash.Lib.Words

/-! # The hash in Perl and in C (`hash`, `c_hash_impl`)

Under `use integer` the Perl method computes in signed 64-bit integers and masks the result at the
end. The generated function computes in 32-bit words. In every turn the word in C is the word of the
integer in Perl, so the results are the same (`agrees_of_lt`). But the generated function takes
the length of the key as an `int`, so from `2 ^ 31` bytes on it leaves out bytes at the end. -/

namespace PerfectHash.HanovPP

open CValues C

/-- One turn of the loop of `hash`. -/
def ivStep (d : Int) (c : UInt8) : Int := (long.conv (d * fnvPrime)).xor c.toNat

/-- `HanovPP::hash` in the integers of `use integer`. -/
def ivHash (key : Bytes) (seed : Int) : Int :=
  let d := if seed ≠ 0 then seed else fnvPrime
  (key.foldl ivStep d).land 0xffffffff

/-- The generated hash of a key, whatever follows the key in memory, is the one in Perl. Its length
is converted to an `int`. -/
def Agrees (key : Bytes) (seed : Nat) : Prop :=
  ∀ rest, ∃ h, cHash (BitVec.ofNat 32 seed) (key ++ rest) (int.conv key.length) = some h ∧
    ivHash key seed = h.toNat

variable {key k : Bytes} {c c' : UInt8} {seed : Nat}

/-! ## The integers and their words -/

/-- One turn in Perl is one turn in C on the words. -/
theorem ofInt_ivStep (d : Int) (c : UInt8) :
    BitVec.ofInt 32 (ivStep d c) = fnvStep (BitVec.ofInt 32 d) c := by
  rw [ivStep, Words.ofInt_xor, Words.ofInt_conv (by decide), BitVec.ofInt_mul, fnvStep,
    BitVec.ofInt_natCast, BitVec.ofInt_natCast]

theorem ofInt_foldl (key : Bytes) (d : Int) :
    BitVec.ofInt 32 (key.foldl ivStep d) = key.foldl fnvStep (BitVec.ofInt 32 d) :=
  (List.foldl_hom (BitVec.ofInt 32) fun d c => (ofInt_ivStep d c).symm).symm

theorem ivHash_eq (key : Bytes) (seed : Nat) :
    ivHash key seed = (key.foldl fnvStep (seedWord seed)).toNat := by
  have hword : BitVec.ofInt 32 (if (seed : Int) ≠ 0 then (seed : Int) else fnvPrime) =
      seedWord seed := by
    by_cases hseed : seed = 0
    · rw [hseed]
      rfl
    · rw [if_pos (Int.natCast_ne_zero.mpr hseed), seedWord, if_neg hseed, BitVec.ofInt_natCast]
  rw [ivHash, ← hword, ← ofInt_foldl]
  exact Words.land_mask 32 _

/-- The hash of the tables is `hash`. -/
theorem fnv_eq_ivHash (key : Bytes) (seed : Nat) : (fnv key seed : Int) = ivHash key seed := by
  rw [fnv_eq, ivHash_eq]

/-! ## The bytes that are hashed -/

/-- The generated function takes the first bytes, as many as the `int` says. -/
theorem cHash_key (hseed : seed < 2 ^ 32) (key rest : Bytes) :
    cHash (BitVec.ofNat 32 seed) (key ++ rest) (int.conv key.length) =
      some ((key.take (int.conv key.length).toNat).foldl fnvStep (seedWord seed)) := by
  have hle : (int.conv key.length).toNat ≤ key.length := by
    have := int_conv_natCast_le key.length
    omega
  have hle' : (int.conv key.length).toNat ≤ (key ++ rest).length := by
    rw [List.length_append]
    omega
  rw [cHash_eq _ hle', List.take_append_of_le_length hle, word_seed hseed]

theorem agrees_of_lt (hseed : seed < 2 ^ 32) (hlt : key.length < 2 ^ 31) : Agrees key seed := by
  intro rest
  refine ⟨_, cHash_key hseed key rest, ?_⟩
  rw [ivHash_eq, int_conv_natCast hlt, Int.toNat_natCast, List.take_length]

/-- The last byte of a long key is hashed in Perl only. -/
theorem eq_of_agrees (hseed : seed < 2 ^ 32) (hlong : 2 ^ 31 ≤ k.length + 1)
    (hc : Agrees (k ++ [c]) seed) (hc' : Agrees (k ++ [c']) seed) : c = c' := by
  have hcut (b : UInt8) : (k ++ [b]).take (int.conv (k ++ [b]).length).toNat =
      k.take (int.conv (k.length + 1 : Nat)).toNat := by
    have := int_conv_lt (k.length + 1 : Nat)
    rw [List.length_append, List.length_singleton]
    exact List.take_append_of_le_length (by omega)
  have hperl (b : UInt8) (hb : Agrees (k ++ [b]) seed) :
      fnvStep (k.foldl fnvStep (seedWord seed)) b =
        (k.take (int.conv (k.length + 1 : Nat)).toNat).foldl fnvStep (seedWord seed) := by
    obtain ⟨h, hhash, heq⟩ := hb []
    rw [cHash_key hseed, hcut] at hhash
    rw [ivHash_eq, List.foldl_append, ← Option.some.inj hhash] at heq
    exact BitVec.toNat_inj.mp (Int.ofNat_inj.mp heq)
  exact fnvStep_inj ((hperl c hc).trans (hperl c' hc').symm)

/-- The two hashes agree on a key, and on the keys that differ from it in the last byte, exactly if
the length is an `int`. -/
theorem agrees_iff (hseed : seed < 2 ^ 32) (key : Bytes) :
    (∀ key' : Bytes, key'.length = key.length → key'.dropLast = key.dropLast →
        Agrees key' seed) ↔ key.length < 2 ^ 31 := by
  constructor
  · intro h
    by_contra hlong
    have hne : key ≠ [] := List.ne_nil_of_length_pos (by omega)
    have hlength : key.dropLast.length + 1 = key.length := by
      rw [List.length_dropLast]
      omega
    have hall (c : UInt8) : Agrees (key.dropLast ++ [c]) seed :=
      h _ (by rw [List.length_append, List.length_singleton, hlength]) List.dropLast_concat
    have heq : (0 : UInt8) = 1 := eq_of_agrees hseed (by omega) (hall 0) (hall 1)
    exact absurd heq (by decide)
  · intro hlt key' hlength _
    exact agrees_of_lt hseed (hlength ▸ hlt)

/-- The key `ab` has one hash under the seed 7. -/
theorem agrees_iff_ab : Agrees [97, 98] 7 :=
  (agrees_iff (by decide) [97, 98]).mpr (by decide) _ rfl rfl

/-- The seed stands for a word that a byte `h` sends to itself. -/
theorem foldl_h (n : Nat) :
    (List.replicate n 104).foldl fnvStep (seedWord 124702292) = seedWord 124702292 := by
  induction n with
  | zero => rfl
  | succ n ih =>
    have hstep : fnvStep (seedWord 124702292) 104 = seedWord 124702292 := by decide
    rw [List.replicate_succ, List.foldl_cons, hstep, ih]

/-- Of `2 ^ 31` bytes, all `h` but the last, the generated code hashes none. -/
theorem not_agrees : ¬ ∀ (key : Bytes) (seed : Nat), seed < 2 ^ 32 → Agrees key seed := by
  intro h
  have hseed : 124702292 < 2 ^ 32 := by decide
  have hlength : (List.replicate (2 ^ 31 - 1) (104 : UInt8)).length = 2 ^ 31 - 1 :=
    List.length_replicate
  have hfold := foldl_h (2 ^ 31 - 1)
  generalize List.replicate (2 ^ 31 - 1) (104 : UInt8) = k at hlength hfold
  obtain ⟨w, hhash, heq⟩ := h (k ++ [105]) 124702292 hseed []
  have hnone : (int.conv (k ++ [105]).length).toNat = 0 := by
    rw [List.length_append, List.length_singleton, hlength]
    decide
  rw [cHash_key hseed, hnone, List.take_zero] at hhash
  obtain rfl := Option.some.inj hhash
  rw [ivHash_eq, List.foldl_append, hfold] at heq
  exact absurd heq (by decide)

end PerfectHash.HanovPP
