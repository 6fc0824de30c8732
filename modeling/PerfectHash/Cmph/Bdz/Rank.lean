import PerfectHash.Cmph.Bdz
import PerfectHash.Lib.RankSelect

/-! # The ranks of BDZ

`ranktable` has the ranks at the multiples of `k`, and `rank` counts from there on. It is the number
of vertices in front of one that have a value other than 3 (`bdzRank_spec`). -/

namespace PerfectHash.Cmph

open RankSelect

variable {table : Bytes} {ranktable : List (BitVec 32)} {i k n v size count off len turns : Nat}

/-- The vertices with a value other than 3. -/
def taken (table : Bytes) : List Bool := (values table).map fun x => x ≠ unassigned

theorem taken_cons (b : UInt8) (table : Bytes) :
    taken (b :: table) = (byteValues b).map (fun x => decide (x ≠ unassigned)) ++ taken table := by
  rw [taken, values_cons, List.map_append]
  rfl

theorem drop_taken (table : Bytes) (v : Nat) : (taken table).drop (4 * v) = taken (table.drop v) := by
  induction v generalizing table with
  | zero => rfl
  | succ v ih =>
    cases table with
    | nil => exact List.drop_nil
    | cons b table =>
      rw [taken_cons, Nat.mul_succ, Nat.add_comm, ← List.drop_drop,
        show (4 : Nat) = ((byteValues b).map fun x => decide (x ≠ unassigned)).length from rfl,
        List.drop_left]
      exact ih table

/-- `bdz_lookup_table` counts the values of a byte that are not 3. -/
theorem bdzLookupTable_eq (b : UInt8) : bdzLookupTable[b.toNat]? =
    some (ones ((byteValues b).map fun x => decide (x ≠ unassigned))) := by
  have main : ∀ b : BitVec 8, bdzLookupTable[b.toNat]? =
      some (ones ((byteValues (UInt8.ofBitVec b)).map fun x => decide (x ≠ unassigned))) := by
    decide +kernel
  exact main b.toBitVec

/-- The ranks at a byte and behind it. -/
theorem rank_byte {b : UInt8} (hb : table[off]? = some b) :
    rank (taken table) (4 * (off + 1)) = rank (taken table) (4 * off) +
      ones ((byteValues b).map fun x => decide (x ≠ unassigned)) := by
  obtain ⟨hlt, rfl⟩ := List.getElem?_eq_some_iff.mp hb
  have hfour (a l : List Bool) (ha : a.length = 4) : rank (a ++ l) 4 = ones a := by
    rw [rank, List.take_left' ha]
  rw [Nat.mul_succ, rank_add, drop_taken, List.drop_eq_getElem_cons hlt, taken_cons, hfour _ _ rfl]

theorem rank_lt (hones : ones (taken table) < 2 ^ 32) (i : Nat) :
    rank (taken table) i < 2 ^ 32 := (rank_le _ i).trans_lt hones

/-- Counting the values of some bytes. -/
theorem countBytes_spec (hlen : off + len ≤ table.length) (hones : ones (taken table) < 2 ^ 32) :
    countBytes table (rank (taken table) (4 * off)) (List.range' off len) =
      some (rank (taken table) (4 * (off + len))) := by
  induction len generalizing off with
  | zero => rfl
  | succ len ih =>
    have hb := List.getElem?_eq_getElem (show off < table.length by omega)
    have hrank := rank_byte hb
    have hsum := rank_lt hones (4 * (off + 1))
    have hlen' : off + 1 + len ≤ table.length := by omega
    have ih := ih hlen'
    rw [hrank] at hsum
    rw [show off + 1 + len = off + (len + 1) by omega] at ih
    have hcons (count : Nat) (is : List Nat) : countBytes table count (off :: is) =
        countBytes table (u32 ((count + ones ((byteValues table[off]).map
          fun x => decide (x ≠ unassigned)) : Nat))) is := by
      simp only [countBytes, List.foldlM_cons, hb, Option.bind_eq_bind, Option.bind_some,
        bdzLookupTable_eq, Option.pure_def]
    rw [List.range'_succ, hcons, u32_natCast hsum, ← hrank, ih]

/-! ## The table -/

/-- The table has the ranks at the multiples of `k`, up to the entry number `i`. -/
def HasRanks (table : Bytes) (k : Nat) (ranktable : List (BitVec 32)) (i : Nat) : Prop :=
  ∀ j < i, ranktable[j]? = some (BitVec.ofNat 32 (rank (taken table) (j * k)))

theorem rankingLoop_spec {ranktablesize : Nat} (hsize : k = 4 * size)
    (hfit : ∀ i < ranktablesize, i * size ≤ table.length) (htable : table.length < 2 ^ 32)
    (hones : ones (taken table) < 2 ^ 32) (hlen : ranktable.length = ranktablesize)
    (hranks : HasRanks table k ranktable (i + 1)) (hi : i < ranktablesize)
    (hturns : ranktablesize - (i + 1) < turns) :
    ∃ ranktable', rankingLoop table size ranktablesize turns (i + 1) (i * size)
        (rank (taken table) (i * k)) (table.length - i * size) ranktable = some ranktable' ∧
      ranktable'.length = ranktablesize ∧ HasRanks table k ranktable' ranktablesize := by
  induction turns generalizing i ranktable with
  | zero => cases hturns
  | succ turns ih =>
    rw [rankingLoop]
    by_cases hend : i + 1 = ranktablesize
    · rw [if_pos hend]
      exact ⟨ranktable, rfl, hlen, hend ▸ hranks⟩
    · have hnext := hfit (i + 1) (by omega)
      rw [Nat.succ_mul] at hnext
      have hmin : (if size < table.length - i * size then size else table.length - i * size) =
          size := by split <;> omega
      have hcount := countBytes_spec hnext hones
      have hbytes (i : Nat) : 4 * (i * size) = i * k := by rw [hsize, Nat.mul_left_comm]
      rw [← Nat.succ_mul, hbytes, hbytes] at hcount
      have hoff : u32 ((i * size + size : Nat)) = (i + 1) * size := by
        rw [u32_natCast (by omega), Nat.succ_mul]
      have htotal : u32 (((table.length - i * size : Nat) : Int) - size) =
          table.length - (i + 1) * size := by
        rw [Nat.succ_mul]
        exact u32_of_eq (by omega) (by omega)
      have hlt : i + 1 < ranktablesize := by omega
      rw [if_neg hend]
      simp only [hmin, hcount, hoff, htotal, Option.bind_eq_bind, Option.bind_some]
      rw [write_of_lt (by omega), Option.bind_some]
      refine ih (List.length_set.trans hlen) (fun j hj => ?_) hlt (by omega)
      rw [List.getElem?_set]
      split
      · rename_i hij
        rw [← hij, if_pos (by omega)]
      · exact hranks j (by omega)

/-- `ranking` -/
theorem ranking_spec {ranktablesize : Nat} (hk : k = 4 * size) (hsize : k >>> 2 = size)
    (hlen : table.length = sizeG n) (hpos : 0 < ranktablesize)
    (hfit : ∀ i < ranktablesize, i * size ≤ sizeG n) (hn : sizeG n < 2 ^ 32)
    (hones : ones (taken table) < 2 ^ 32) :
    ∃ ranktable, ranking n k ranktablesize table = some ranktable ∧
      ranktable.length = ranktablesize ∧ HasRanks table k ranktable ranktablesize := by
  have hzero : rank (taken table) 0 = 0 := rfl
  have hranks : HasRanks table k ((List.replicate ranktablesize (0 : BitVec 32)).set 0 0) (0 + 1) := by
    intro j hj
    obtain rfl : j = 0 := by omega
    rw [List.getElem?_set_self (by rwa [List.length_replicate]), Nat.zero_mul, hzero]
    rfl
  obtain ⟨ranktable, hrun, hspec⟩ := rankingLoop_spec hk (hlen ▸ hfit) (hlen ▸ hn) hones
    (List.length_set.trans List.length_replicate) hranks hpos
    (show ranktablesize - (0 + 1) < ranktablesize by omega)
  refine ⟨ranktable, ?_, hspec⟩
  rw [Nat.zero_mul, Nat.zero_mul, hzero, Nat.sub_zero, hlen] at hrun
  rw [ranking, write_of_lt (by rwa [List.length_replicate]), hsize]
  exact hrun

/-! ## The query -/

/-- Counting single values. -/
theorem countValues_spec (hlen : off + len ≤ (values table).length)
    (hones : ones (taken table) < 2 ^ 32) :
    (List.range' off len).foldlM (fun baseRank i => do
        return if (← getValue table i) ≠ unassigned then u32 (baseRank + 1) else baseRank)
      (rank (taken table) off) = some (rank (taken table) (off + len)) := by
  induction len generalizing off with
  | zero => rfl
  | succ len ih =>
    have hx := List.getElem?_eq_getElem (show off < (values table).length by omega)
    have hlen' : off + 1 + len ≤ (values table).length := by omega
    have ih := ih hlen'
    have htaken : (taken table)[off]? = some true ↔ (values table)[off] ≠ unassigned := by
      rw [taken, List.getElem?_map, hx]
      exact Option.some_inj.trans decide_eq_true_iff
    have hsum := rank_lt hones (off + 1)
    have hnext : (if (values table)[off] ≠ unassigned then u32 ((rank (taken table) off : Int) + 1)
        else rank (taken table) off) = rank (taken table) (off + 1) := by
      rw [rank_succ] at hsum ⊢
      by_cases hne : (values table)[off] ≠ unassigned
      · rw [if_pos (htaken.mpr hne)] at hsum ⊢
        rw [if_pos hne]
        exact u32_of_eq hsum (by push_cast; rfl)
      · rw [if_neg hne, if_neg (mt htaken.mp hne), Nat.add_zero]
    rw [show off + 1 + len = off + (len + 1) by omega] at ih
    rw [List.range'_succ, List.foldlM_cons, getValue_eq, hx]
    simp only [Option.bind_eq_bind, Option.bind_some, Option.pure_def, hnext]
    exact ih

/-- `rank` is the number of vertices in front of one that have a value other than 3. -/
theorem bdzRank_spec {b : UInt8} (hb : 2 ≤ b.toNat)
    (hranks : HasRanks table (2 ^ b.toNat) ranktable i) (hi : v / 2 ^ b.toNat < i)
    (hv : v ≤ 4 * table.length) (hlt : v < 2 ^ 32) (hones : ones (taken table) < 2 ^ 32) :
    bdzRank b ranktable table v = some (rank (taken table) v) := by
  have hpow : 2 ^ b.toNat = 4 * 2 ^ (b.toNat - 2) := by
    rw [show 4 = 2 ^ 2 from rfl, ← Nat.pow_add, Nat.add_sub_cancel' hb]
  have hle : v / 2 ^ b.toNat * 2 ^ b.toNat ≤ v := Nat.div_mul_le_self v _
  have hentry := hranks _ hi
  have hword : (BitVec.ofNat 32 (rank (taken table) (v / 2 ^ b.toNat * 2 ^ b.toNat))).toNat =
      rank (taken table) (v / 2 ^ b.toNat * 2 ^ b.toNat) := by
    rw [BitVec.toNat_ofNat, Nat.mod_eq_of_lt (rank_lt hones _)]
  rw [← Nat.shiftRight_eq_div_pow] at hle hentry hword
  -- the bytes from the entry of the table on, then the values of the last byte
  have hbegin : u32 ((v >>> b.toNat <<< b.toNat : Nat)) >>> 2 = v >>> b.toNat * 2 ^ (b.toNat - 2) := by
    rw [Nat.shiftLeft_eq, u32_natCast (hle.trans_lt hlt), shiftRight_two, hpow, Nat.mul_left_comm,
      Nat.mul_div_cancel_left _ (by decide)]
  have hfour : 4 * (v >>> b.toNat * 2 ^ (b.toNat - 2)) = v >>> b.toNat * 2 ^ b.toNat := by
    rw [hpow, Nat.mul_left_comm]
  generalize v >>> b.toNat * 2 ^ (b.toNat - 2) = first at hbegin hfour
  have hlast : u32 ((max first (v / 4) <<< 2 : Nat)) = 4 * (v / 4) := by
    rw [Nat.max_eq_right (by omega), Nat.shiftLeft_eq, u32_natCast (by omega), Nat.mul_comm]
  have hbytes := countBytes_spec (show first + (v / 4 - first) ≤ table.length by omega) hones
  have hend : 4 * (v / 4) + (v - 4 * (v / 4)) ≤ (values table).length := by
    rw [length_values]
    omega
  have hvalues := countValues_spec hend hones
  rw [hfour, Nat.add_sub_cancel' (by omega)] at hbytes
  rw [Nat.add_sub_cancel' (by omega)] at hvalues
  rw [bdzRank, hentry]
  simp only [Option.bind_eq_bind, Option.bind_some, hword, hbegin, shiftRight_two, hbytes, hlast]
  exact hvalues

end PerfectHash.Cmph
