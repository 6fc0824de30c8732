import PerfectHash.Cmph.Select
import PerfectHash.Cmph.Rems

/-! # Compressed ranks (`compressed_rank.c`)

How many of some ascending values are less than a number. The low bits of the values are in a table
of fields. The select structure has a one for each quotient from 1 on, in front of which the values
with smaller quotients have their zeros. -/

namespace PerfectHash.Cmph

/-- `compressed_rank_t` -/
structure CompressedRank where
  maxVal : Nat
  n : Nat
  remR : Nat
  sel : Select
  valsRems : List (BitVec 32)

/-! ## `compressed_rank_generate` -/

/-- The loop that stores the low bits of the values. -/
def storeRems (remR : Nat) (remsMask : BitVec 32) : List Nat → Nat → List (BitVec 32) →
    Option (List (BitVec 32))
  | [], _, valsRems => some valsRems
  | val :: vals, i, valsRems => do
    let valsRems ← setBitsValue valsRems i (BitVec.ofNat 32 val &&& remsMask) remR remsMask
    storeRems remR remsMask vals (i + 1) valsRems

/-- The loop `while(i > (vals_table[j] >> rem_r))` in what is left of the values. -/
def skipVals (remR i : Nat) : List Nat → Nat → Option Nat
  | [], _ => none
  | val :: vals, j => if i > val >>> remR then skipVals remR i vals (j + 1) else some j

/-- The loop that stores the entries of `select_vec` from the quotient `i` on. -/
def storeSelectVec (valsTable : List Nat) (remR : Nat) : Nat → Nat → Nat → Option (List Nat)
  | 0, _, _ => some []
  | count + 1, i, j => do
    let j ← skipVals remR i (valsTable.drop j) j
    return j :: (← storeSelectVec valsTable remR count (i + 1) j)

/-- `compressed_rank_generate` -/
def compressedRankGenerate (valsTable : List Nat) : Option CompressedRank := do
  let n := valsTable.length
  let maxVal ← valsTable[n - 1]?
  let remR := iLog2 (maxVal / n) 0
  let remR := if remR = 0 then 1 else remR
  let remsMask := mask remR
  let valsRems ← storeRems remR remsMask valsTable 0 (List.replicate (bitsTableSize n remR) 0)
  let selectVec ← storeSelectVec valsTable remR (maxVal >>> remR) 1 0
  let sel ← selectGenerate selectVec (maxVal >>> remR) n
  return { maxVal, n, remR, sel, valsRems }

/-! ## Queries -/

/-- The loop of a query, which reads a bit in each turn. -/
def rankLoop (bitsVec valsRems : List (BitVec 32)) (remR : Nat) (remsMask : BitVec 32)
    (valRem : Nat) : Nat → Nat → Nat → Option Nat
  | 0, _, _ => none
  | turns + 1, selRes, rank => do
    if ← getBit32 bitsVec selRes then return rank
    let rem ← getBitsValue valsRems rank remR remsMask
    if rem.toNat ≥ valRem then return rank
    rankLoop bitsVec valsRems remR remsMask valRem turns (u32 (selRes + 1)) (u32 (rank + 1))

/-- The rank of a number in the tables of a compressed rank structure. -/
def compressedRankQueryTables (selectQuery : Nat → Option Nat) (maxVal n remR : Nat)
    (bitsVec valsRems : List (BitVec 32)) (idx : Nat) : Option Nat := do
  if idx > maxVal then return n
  let valQuot := idx >>> remR
  let remsMask := mask remR
  let valRem := (BitVec.ofNat 32 idx &&& remsMask).toNat
  let (selRes, rank) ←
    if valQuot = 0 then pure (0, 0)
    else do
      let selRes := u32 ((← selectQuery (valQuot - 1) : Nat) + 1)
      pure (selRes, u32 (selRes - valQuot))
  rankLoop bitsVec valsRems remR remsMask valRem (32 * bitsVec.length + 1) selRes rank

/-- `compressed_rank_query` -/
def compressedRankQuery (cr : CompressedRank) (idx : Nat) : Option Nat :=
  compressedRankQueryTables (selectQuery cr.sel) cr.maxVal cr.n cr.remR cr.sel.bitsVec cr.valsRems
    idx

/-! ## Packing -/

/-- `compressed_rank_dump`, the bytes that `compressed_rank_pack` stores -/
def compressedRankDump (cr : CompressedRank) : Option Bytes := do
  let valsRemsSize := u32 (bitsTableSize cr.n cr.remR * 4)
  let bufSel ← selectDump cr.sel
  let valsRems ← memcpy (bytes cr.valsRems) valsRemsSize
  return bytes [BitVec.ofNat 32 cr.maxVal, BitVec.ofNat 32 cr.n, BitVec.ofNat 32 cr.remR,
    BitVec.ofNat 32 bufSel.length] ++ bufSel ++ valsRems

/-- `compressed_rank_query_packed` -/
def compressedRankQueryPacked (crPacked : Bytes) (idx : Nat) : Option Nat := do
  let ptr := words crPacked
  let maxVal := (← ptr[0]?).toNat
  let n := (← ptr[1]?).toNat
  let remR := (← ptr[2]?).toNat
  let buflenSel := (← ptr[3]?).toNat
  let selPacked := crPacked.drop 16
  let bitsVec := ptr.drop 6
  let valsRems := ptr.drop (4 + buflenSel >>> 2)
  compressedRankQueryTables (selectQueryPacked selPacked) maxVal n remR bitsVec valsRems idx

end PerfectHash.Cmph
