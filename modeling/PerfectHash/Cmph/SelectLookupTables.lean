import PerfectHash.Cmph
import PerfectHash.Lib.RankSelect

/-! # The tables of `select_lookup_tables.h`

The number of ones of each byte and their positions, as the header lists them, and that each entry
is right. -/

namespace PerfectHash.Cmph

open BitString RankSelect

/-- `rank_lookup_table` -/
def rankLookupTable : List Nat :=
  [0, 1, 1, 2, 1, 2, 2, 3, 1, 2, 2, 3, 2, 3, 3, 4, 1, 2, 2, 3, 2, 3, 3, 4, 2, 3, 3, 4, 3, 4, 4, 5,
   1, 2, 2, 3, 2, 3, 3, 4, 2, 3, 3, 4, 3, 4, 4, 5, 2, 3, 3, 4, 3, 4, 4, 5, 3, 4, 4, 5, 4, 5, 5, 6,
   1, 2, 2, 3, 2, 3, 3, 4, 2, 3, 3, 4, 3, 4, 4, 5, 2, 3, 3, 4, 3, 4, 4, 5, 3, 4, 4, 5, 4, 5, 5, 6,
   2, 3, 3, 4, 3, 4, 4, 5, 3, 4, 4, 5, 4, 5, 5, 6, 3, 4, 4, 5, 4, 5, 5, 6, 4, 5, 5, 6, 5, 6, 6, 7,
   1, 2, 2, 3, 2, 3, 3, 4, 2, 3, 3, 4, 3, 4, 4, 5, 2, 3, 3, 4, 3, 4, 4, 5, 3, 4, 4, 5, 4, 5, 5, 6,
   2, 3, 3, 4, 3, 4, 4, 5, 3, 4, 4, 5, 4, 5, 5, 6, 3, 4, 4, 5, 4, 5, 5, 6, 4, 5, 5, 6, 5, 6, 6, 7,
   2, 3, 3, 4, 3, 4, 4, 5, 3, 4, 4, 5, 4, 5, 5, 6, 3, 4, 4, 5, 4, 5, 5, 6, 4, 5, 5, 6, 5, 6, 6, 7,
   3, 4, 4, 5, 4, 5, 5, 6, 4, 5, 5, 6, 5, 6, 6, 7, 4, 5, 5, 6, 5, 6, 6, 7, 5, 6, 6, 7, 6, 7, 7, 8]

/-- `select_lookup_table` -/
def selectLookupTable : List (List Nat) :=
  [[255, 255, 255, 255, 255, 255, 255, 255], [0, 255, 255, 255, 255, 255, 255, 255],
   [1, 255, 255, 255, 255, 255, 255, 255], [0, 1, 255, 255, 255, 255, 255, 255],
   [2, 255, 255, 255, 255, 255, 255, 255], [0, 2, 255, 255, 255, 255, 255, 255],
   [1, 2, 255, 255, 255, 255, 255, 255], [0, 1, 2, 255, 255, 255, 255, 255],
   [3, 255, 255, 255, 255, 255, 255, 255], [0, 3, 255, 255, 255, 255, 255, 255],
   [1, 3, 255, 255, 255, 255, 255, 255], [0, 1, 3, 255, 255, 255, 255, 255],
   [2, 3, 255, 255, 255, 255, 255, 255], [0, 2, 3, 255, 255, 255, 255, 255],
   [1, 2, 3, 255, 255, 255, 255, 255], [0, 1, 2, 3, 255, 255, 255, 255],
   [4, 255, 255, 255, 255, 255, 255, 255], [0, 4, 255, 255, 255, 255, 255, 255],
   [1, 4, 255, 255, 255, 255, 255, 255], [0, 1, 4, 255, 255, 255, 255, 255],
   [2, 4, 255, 255, 255, 255, 255, 255], [0, 2, 4, 255, 255, 255, 255, 255],
   [1, 2, 4, 255, 255, 255, 255, 255], [0, 1, 2, 4, 255, 255, 255, 255],
   [3, 4, 255, 255, 255, 255, 255, 255], [0, 3, 4, 255, 255, 255, 255, 255],
   [1, 3, 4, 255, 255, 255, 255, 255], [0, 1, 3, 4, 255, 255, 255, 255],
   [2, 3, 4, 255, 255, 255, 255, 255], [0, 2, 3, 4, 255, 255, 255, 255],
   [1, 2, 3, 4, 255, 255, 255, 255], [0, 1, 2, 3, 4, 255, 255, 255],
   [5, 255, 255, 255, 255, 255, 255, 255], [0, 5, 255, 255, 255, 255, 255, 255],
   [1, 5, 255, 255, 255, 255, 255, 255], [0, 1, 5, 255, 255, 255, 255, 255],
   [2, 5, 255, 255, 255, 255, 255, 255], [0, 2, 5, 255, 255, 255, 255, 255],
   [1, 2, 5, 255, 255, 255, 255, 255], [0, 1, 2, 5, 255, 255, 255, 255],
   [3, 5, 255, 255, 255, 255, 255, 255], [0, 3, 5, 255, 255, 255, 255, 255],
   [1, 3, 5, 255, 255, 255, 255, 255], [0, 1, 3, 5, 255, 255, 255, 255],
   [2, 3, 5, 255, 255, 255, 255, 255], [0, 2, 3, 5, 255, 255, 255, 255],
   [1, 2, 3, 5, 255, 255, 255, 255], [0, 1, 2, 3, 5, 255, 255, 255],
   [4, 5, 255, 255, 255, 255, 255, 255], [0, 4, 5, 255, 255, 255, 255, 255],
   [1, 4, 5, 255, 255, 255, 255, 255], [0, 1, 4, 5, 255, 255, 255, 255],
   [2, 4, 5, 255, 255, 255, 255, 255], [0, 2, 4, 5, 255, 255, 255, 255],
   [1, 2, 4, 5, 255, 255, 255, 255], [0, 1, 2, 4, 5, 255, 255, 255],
   [3, 4, 5, 255, 255, 255, 255, 255], [0, 3, 4, 5, 255, 255, 255, 255],
   [1, 3, 4, 5, 255, 255, 255, 255], [0, 1, 3, 4, 5, 255, 255, 255],
   [2, 3, 4, 5, 255, 255, 255, 255], [0, 2, 3, 4, 5, 255, 255, 255], [1, 2, 3, 4, 5, 255, 255, 255],
   [0, 1, 2, 3, 4, 5, 255, 255], [6, 255, 255, 255, 255, 255, 255, 255],
   [0, 6, 255, 255, 255, 255, 255, 255], [1, 6, 255, 255, 255, 255, 255, 255],
   [0, 1, 6, 255, 255, 255, 255, 255], [2, 6, 255, 255, 255, 255, 255, 255],
   [0, 2, 6, 255, 255, 255, 255, 255], [1, 2, 6, 255, 255, 255, 255, 255],
   [0, 1, 2, 6, 255, 255, 255, 255], [3, 6, 255, 255, 255, 255, 255, 255],
   [0, 3, 6, 255, 255, 255, 255, 255], [1, 3, 6, 255, 255, 255, 255, 255],
   [0, 1, 3, 6, 255, 255, 255, 255], [2, 3, 6, 255, 255, 255, 255, 255],
   [0, 2, 3, 6, 255, 255, 255, 255], [1, 2, 3, 6, 255, 255, 255, 255],
   [0, 1, 2, 3, 6, 255, 255, 255], [4, 6, 255, 255, 255, 255, 255, 255],
   [0, 4, 6, 255, 255, 255, 255, 255], [1, 4, 6, 255, 255, 255, 255, 255],
   [0, 1, 4, 6, 255, 255, 255, 255], [2, 4, 6, 255, 255, 255, 255, 255],
   [0, 2, 4, 6, 255, 255, 255, 255], [1, 2, 4, 6, 255, 255, 255, 255],
   [0, 1, 2, 4, 6, 255, 255, 255], [3, 4, 6, 255, 255, 255, 255, 255],
   [0, 3, 4, 6, 255, 255, 255, 255], [1, 3, 4, 6, 255, 255, 255, 255],
   [0, 1, 3, 4, 6, 255, 255, 255], [2, 3, 4, 6, 255, 255, 255, 255], [0, 2, 3, 4, 6, 255, 255, 255],
   [1, 2, 3, 4, 6, 255, 255, 255], [0, 1, 2, 3, 4, 6, 255, 255],
   [5, 6, 255, 255, 255, 255, 255, 255], [0, 5, 6, 255, 255, 255, 255, 255],
   [1, 5, 6, 255, 255, 255, 255, 255], [0, 1, 5, 6, 255, 255, 255, 255],
   [2, 5, 6, 255, 255, 255, 255, 255], [0, 2, 5, 6, 255, 255, 255, 255],
   [1, 2, 5, 6, 255, 255, 255, 255], [0, 1, 2, 5, 6, 255, 255, 255],
   [3, 5, 6, 255, 255, 255, 255, 255], [0, 3, 5, 6, 255, 255, 255, 255],
   [1, 3, 5, 6, 255, 255, 255, 255], [0, 1, 3, 5, 6, 255, 255, 255],
   [2, 3, 5, 6, 255, 255, 255, 255], [0, 2, 3, 5, 6, 255, 255, 255], [1, 2, 3, 5, 6, 255, 255, 255],
   [0, 1, 2, 3, 5, 6, 255, 255], [4, 5, 6, 255, 255, 255, 255, 255],
   [0, 4, 5, 6, 255, 255, 255, 255], [1, 4, 5, 6, 255, 255, 255, 255],
   [0, 1, 4, 5, 6, 255, 255, 255], [2, 4, 5, 6, 255, 255, 255, 255], [0, 2, 4, 5, 6, 255, 255, 255],
   [1, 2, 4, 5, 6, 255, 255, 255], [0, 1, 2, 4, 5, 6, 255, 255], [3, 4, 5, 6, 255, 255, 255, 255],
   [0, 3, 4, 5, 6, 255, 255, 255], [1, 3, 4, 5, 6, 255, 255, 255], [0, 1, 3, 4, 5, 6, 255, 255],
   [2, 3, 4, 5, 6, 255, 255, 255], [0, 2, 3, 4, 5, 6, 255, 255], [1, 2, 3, 4, 5, 6, 255, 255],
   [0, 1, 2, 3, 4, 5, 6, 255], [7, 255, 255, 255, 255, 255, 255, 255],
   [0, 7, 255, 255, 255, 255, 255, 255], [1, 7, 255, 255, 255, 255, 255, 255],
   [0, 1, 7, 255, 255, 255, 255, 255], [2, 7, 255, 255, 255, 255, 255, 255],
   [0, 2, 7, 255, 255, 255, 255, 255], [1, 2, 7, 255, 255, 255, 255, 255],
   [0, 1, 2, 7, 255, 255, 255, 255], [3, 7, 255, 255, 255, 255, 255, 255],
   [0, 3, 7, 255, 255, 255, 255, 255], [1, 3, 7, 255, 255, 255, 255, 255],
   [0, 1, 3, 7, 255, 255, 255, 255], [2, 3, 7, 255, 255, 255, 255, 255],
   [0, 2, 3, 7, 255, 255, 255, 255], [1, 2, 3, 7, 255, 255, 255, 255],
   [0, 1, 2, 3, 7, 255, 255, 255], [4, 7, 255, 255, 255, 255, 255, 255],
   [0, 4, 7, 255, 255, 255, 255, 255], [1, 4, 7, 255, 255, 255, 255, 255],
   [0, 1, 4, 7, 255, 255, 255, 255], [2, 4, 7, 255, 255, 255, 255, 255],
   [0, 2, 4, 7, 255, 255, 255, 255], [1, 2, 4, 7, 255, 255, 255, 255],
   [0, 1, 2, 4, 7, 255, 255, 255], [3, 4, 7, 255, 255, 255, 255, 255],
   [0, 3, 4, 7, 255, 255, 255, 255], [1, 3, 4, 7, 255, 255, 255, 255],
   [0, 1, 3, 4, 7, 255, 255, 255], [2, 3, 4, 7, 255, 255, 255, 255], [0, 2, 3, 4, 7, 255, 255, 255],
   [1, 2, 3, 4, 7, 255, 255, 255], [0, 1, 2, 3, 4, 7, 255, 255],
   [5, 7, 255, 255, 255, 255, 255, 255], [0, 5, 7, 255, 255, 255, 255, 255],
   [1, 5, 7, 255, 255, 255, 255, 255], [0, 1, 5, 7, 255, 255, 255, 255],
   [2, 5, 7, 255, 255, 255, 255, 255], [0, 2, 5, 7, 255, 255, 255, 255],
   [1, 2, 5, 7, 255, 255, 255, 255], [0, 1, 2, 5, 7, 255, 255, 255],
   [3, 5, 7, 255, 255, 255, 255, 255], [0, 3, 5, 7, 255, 255, 255, 255],
   [1, 3, 5, 7, 255, 255, 255, 255], [0, 1, 3, 5, 7, 255, 255, 255],
   [2, 3, 5, 7, 255, 255, 255, 255], [0, 2, 3, 5, 7, 255, 255, 255], [1, 2, 3, 5, 7, 255, 255, 255],
   [0, 1, 2, 3, 5, 7, 255, 255], [4, 5, 7, 255, 255, 255, 255, 255],
   [0, 4, 5, 7, 255, 255, 255, 255], [1, 4, 5, 7, 255, 255, 255, 255],
   [0, 1, 4, 5, 7, 255, 255, 255], [2, 4, 5, 7, 255, 255, 255, 255], [0, 2, 4, 5, 7, 255, 255, 255],
   [1, 2, 4, 5, 7, 255, 255, 255], [0, 1, 2, 4, 5, 7, 255, 255], [3, 4, 5, 7, 255, 255, 255, 255],
   [0, 3, 4, 5, 7, 255, 255, 255], [1, 3, 4, 5, 7, 255, 255, 255], [0, 1, 3, 4, 5, 7, 255, 255],
   [2, 3, 4, 5, 7, 255, 255, 255], [0, 2, 3, 4, 5, 7, 255, 255], [1, 2, 3, 4, 5, 7, 255, 255],
   [0, 1, 2, 3, 4, 5, 7, 255], [6, 7, 255, 255, 255, 255, 255, 255],
   [0, 6, 7, 255, 255, 255, 255, 255], [1, 6, 7, 255, 255, 255, 255, 255],
   [0, 1, 6, 7, 255, 255, 255, 255], [2, 6, 7, 255, 255, 255, 255, 255],
   [0, 2, 6, 7, 255, 255, 255, 255], [1, 2, 6, 7, 255, 255, 255, 255],
   [0, 1, 2, 6, 7, 255, 255, 255], [3, 6, 7, 255, 255, 255, 255, 255],
   [0, 3, 6, 7, 255, 255, 255, 255], [1, 3, 6, 7, 255, 255, 255, 255],
   [0, 1, 3, 6, 7, 255, 255, 255], [2, 3, 6, 7, 255, 255, 255, 255], [0, 2, 3, 6, 7, 255, 255, 255],
   [1, 2, 3, 6, 7, 255, 255, 255], [0, 1, 2, 3, 6, 7, 255, 255], [4, 6, 7, 255, 255, 255, 255, 255],
   [0, 4, 6, 7, 255, 255, 255, 255], [1, 4, 6, 7, 255, 255, 255, 255],
   [0, 1, 4, 6, 7, 255, 255, 255], [2, 4, 6, 7, 255, 255, 255, 255], [0, 2, 4, 6, 7, 255, 255, 255],
   [1, 2, 4, 6, 7, 255, 255, 255], [0, 1, 2, 4, 6, 7, 255, 255], [3, 4, 6, 7, 255, 255, 255, 255],
   [0, 3, 4, 6, 7, 255, 255, 255], [1, 3, 4, 6, 7, 255, 255, 255], [0, 1, 3, 4, 6, 7, 255, 255],
   [2, 3, 4, 6, 7, 255, 255, 255], [0, 2, 3, 4, 6, 7, 255, 255], [1, 2, 3, 4, 6, 7, 255, 255],
   [0, 1, 2, 3, 4, 6, 7, 255], [5, 6, 7, 255, 255, 255, 255, 255], [0, 5, 6, 7, 255, 255, 255, 255],
   [1, 5, 6, 7, 255, 255, 255, 255], [0, 1, 5, 6, 7, 255, 255, 255],
   [2, 5, 6, 7, 255, 255, 255, 255], [0, 2, 5, 6, 7, 255, 255, 255], [1, 2, 5, 6, 7, 255, 255, 255],
   [0, 1, 2, 5, 6, 7, 255, 255], [3, 5, 6, 7, 255, 255, 255, 255], [0, 3, 5, 6, 7, 255, 255, 255],
   [1, 3, 5, 6, 7, 255, 255, 255], [0, 1, 3, 5, 6, 7, 255, 255], [2, 3, 5, 6, 7, 255, 255, 255],
   [0, 2, 3, 5, 6, 7, 255, 255], [1, 2, 3, 5, 6, 7, 255, 255], [0, 1, 2, 3, 5, 6, 7, 255],
   [4, 5, 6, 7, 255, 255, 255, 255], [0, 4, 5, 6, 7, 255, 255, 255], [1, 4, 5, 6, 7, 255, 255, 255],
   [0, 1, 4, 5, 6, 7, 255, 255], [2, 4, 5, 6, 7, 255, 255, 255], [0, 2, 4, 5, 6, 7, 255, 255],
   [1, 2, 4, 5, 6, 7, 255, 255], [0, 1, 2, 4, 5, 6, 7, 255], [3, 4, 5, 6, 7, 255, 255, 255],
   [0, 3, 4, 5, 6, 7, 255, 255], [1, 3, 4, 5, 6, 7, 255, 255], [0, 1, 3, 4, 5, 6, 7, 255],
   [2, 3, 4, 5, 6, 7, 255, 255], [0, 2, 3, 4, 5, 6, 7, 255], [1, 2, 3, 4, 5, 6, 7, 255],
   [0, 1, 2, 3, 4, 5, 6, 7]]

/-- `rank_lookup_table[b]` -/
def rankLookup (b : UInt8) : Nat := rankLookupTable.getD b.toNat 0

/-- `select_lookup_table[b][j]` -/
def selectLookup (b : UInt8) (j : Nat) : Option Nat := (selectLookupTable.getD b.toNat [])[j]?

theorem rankLookup_eq (b : UInt8) : rankLookup b = ones (word 8 b.toBitVec) := by
  have main : ∀ x : BitVec 8, rankLookupTable.getD x.toNat 0 = ones (word 8 x) := by decide +kernel
  exact main b.toBitVec

theorem selectLookup_eq {b : UInt8} {j p : Nat} (h : select (word 8 b.toBitVec) j = some p) :
    selectLookup b j = some p := by
  have main : ∀ (x : BitVec 8) (j : Fin 8), select (word 8 x) j = none ∨
      (selectLookupTable.getD x.toNat [])[(j : Nat)]? = select (word 8 x) j := by
    decide +kernel
  have hj : j < 8 := by
    have hlt := select_isSome_iff.mp (Option.isSome_of_mem h)
    have hle := ones_le_length (word 8 b.toBitVec)
    rw [length_word] at hle
    omega
  rcases main b.toBitVec ⟨j, hj⟩ with hnone | heq
  · cases hnone.symm.trans h
  · exact heq.trans h

end PerfectHash.Cmph
