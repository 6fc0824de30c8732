import PerfectHash.Cmph.Bitbool
import PerfectHash.Lib.Codes

/-! # Low bits of numbers

`compressed_seq.c` and `compressed_rank.c` split numbers in two: the low bits of all of them are in a
table of fields, and the high bits in a select structure. -/

namespace PerfectHash.Cmph

open BitString Codes

variable {t : List (BitVec 32)} {a : List Bool} {x r z idx total : Nat}

/-- `compressed_seq_i_log2` and `compressed_rank_i_log2`, from the number of halvings on -/
def iLog2 (x res : Nat) : Nat :=
  if x > 1 then iLog2 (x >>> 1) (res + 1) else res
termination_by x
decreasing_by
  rw [Nat.shiftRight_eq_div_pow]
  omega

theorem iLog2_eq (x res : Nat) : iLog2 x res = Nat.log2 x + res := by
  induction x, res using iLog2.induct with
  | case1 x res hx ih =>
    rw [iLog2, if_pos hx, ih, Nat.log2_def x, if_pos (show 2 ≤ x from hx),
      Nat.shiftRight_eq_div_pow, Nat.pow_one]
    omega
  | case2 x res hx =>
    rw [iLog2, if_neg hx, Nat.log2_def x, if_neg (show ¬2 ≤ x from hx), Nat.zero_add]

theorem remR_cases (hremR : (if iLog2 x 0 = 0 then 1 else iLog2 x 0) = r) :
    r = 1 ∨ 0 < r ∧ 2 ^ r ≤ x := by
  by_cases h0 : iLog2 x 0 = 0
  · rw [if_pos h0] at hremR
    exact .inl hremR.symm
  · rw [if_neg h0] at hremR
    rw [hremR] at h0
    rw [iLog2_eq, Nat.add_zero] at hremR
    refine .inr ⟨Nat.pos_of_ne_zero h0, hremR ▸ Nat.log2_self_le ?_⟩
    rintro rfl
    exact h0 hremR.symm

/-- The number of low bits of `n` numbers up to `total`. The table for them has at most `total` bits,
or one bit for each number. -/
theorem remR_spec {n : Nat} (hremR : (if iLog2 (total / n) 0 = 0 then 1 else iLog2 (total / n) 0) = r)
    (hlt : total < 2 ^ 32) :
    0 < r ∧ r < 32 ∧ n * r ≤ n + total ∧ (2 ≤ total → 2 ^ r ≤ total) := by
  rcases remR_cases hremR with rfl | ⟨hpos, hpow⟩
  · exact ⟨by decide, by decide, by omega, fun h => h⟩
  · have htotal := hpow.trans (Nat.div_le_self total n)
    refine ⟨hpos, ?_, ?_, fun _ => htotal⟩
    · by_contra h
      have h32 := Nat.pow_le_pow_right (n := 2) (by decide) (Nat.le_of_not_lt h)
      omega
    · calc n * r ≤ n * (total / n) :=
            Nat.mul_le_mul_left n (Nat.le_trans (Nat.le_of_lt Nat.lt_two_pow_self) hpow)
        _ ≤ total := Nat.mul_div_le total n
        _ ≤ n + total := Nat.le_add_left _ _

/-- The low bits of a number. -/
def remCode (remR : Nat) (x : Nat) : List Bool := word remR (BitVec.ofNat 32 x &&& mask remR)

@[simp] theorem length_remCode (r x : Nat) : (remCode r x).length = r := length_word _ _

theorem toNat_rem (hr : r < 32) (hx : x < 2 ^ 32) :
    (BitVec.ofNat 32 x &&& mask r).toNat = x % 2 ^ r := by
  rw [toNat_and_mask hr, BitVec.toNat_ofNat, Nat.mod_eq_of_lt hx]

theorem rem_lt (hr : r < 32) (x : Nat) : (BitVec.ofNat 32 x &&& mask r).toNat < 2 ^ r := by
  rw [toNat_and_mask hr]
  exact Nat.mod_lt _ (Nat.two_pow_pos r)

/-- The low bits of a number are stored in front of zeros. -/
theorem setBitsValue_zeros (hr : 0 < r) (hr32 : r < 32)
    (ht : bits t = a ++ List.replicate (r + z) false) (ha : a.length = idx * r)
    (hlt : idx * r < 2 ^ 32) (x : Nat) :
    ∃ t', setBitsValue t idx (BitVec.ofNat 32 x &&& mask r) r (mask r) = some t' ∧
      t'.length = t.length ∧ bits t' = a ++ remCode r x ++ List.replicate z false := by
  rw [setBitsValue, u32_of_eq (n := a.length) (by omega) (by rw [ha]; push_cast; rfl)]
  exact setField_zeros hr hr32 (rem_lt hr32 x) ht

/-- The low bits of a number in a table that starts with those of all of them. -/
theorem getBitsValue_rems {xs : List Nat} {t : List (BitVec 32)} {rest : List Bool}
    (ht : bits t = xs.flatMap (remCode r) ++ rest) (hr : 0 < r) (hr32 : r < 32)
    (hlt : xs.length * r < 2 ^ 32) (hidx : xs[idx]? = some x) :
    getBitsValue t idx r (mask r) = some (BitVec.ofNat 32 x &&& mask r) := by
  have hi := (List.getElem?_eq_some_iff.mp hidx).1
  have hmul : idx * r ≤ xs.length * r := Nat.mul_le_mul_right r (Nat.le_of_lt hi)
  have hlen : ((xs.take idx).flatMap (remCode r)).length = idx * r := by
    rw [length_flatMap_of_length fun y _ => length_remCode r y, List.length_take,
      Nat.min_eq_left (Nat.le_of_lt hi)]
  rw [flatMap_of_getElem? _ hidx, List.append_assoc, List.append_assoc, ← List.append_assoc] at ht
  have hfield := getField_append hr hr32 (rem_lt hr32 x) ht
  rw [hlen] at hfield
  rw [getBitsValue, u32_of_eq (n := idx * r) (by omega) (by push_cast; rfl), hfield]

end PerfectHash.Cmph
