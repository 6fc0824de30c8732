import PerfectHash.Cmph.Bitbool
import PerfectHash.Cmph.SelectLookupTables

/-! # Select (`select.c`)

`select_generate` writes the unary code of an ascending list of numbers into a table of words, bit
by bit through a 32-bit buffer, and notes the position of every 128th one. `select_query` finds a
one from the noted position before it, and `select_next_query` the one after a one. -/

namespace PerfectHash.Cmph

open BitString RankSelect

/-- `select_t` -/
structure Select where
  n : Nat
  m : Nat
  bitsVec : List (BitVec 32)
  selectTable : List (BitVec 32)

/-! ## `select_generate` -/

/-- `select_insert_0` -/
def selectInsert0 (buffer : BitVec 32) : BitVec 32 := buffer >>> 1

/-- `select_insert_1` -/
def selectInsert1 (buffer : BitVec 32) : BitVec 32 := buffer >>> 1 ||| 0x80000000

/-- The variables of `select_generate`. -/
structure SelectLoop where
  buffer : BitVec 32
  idx : Nat
  i : Nat
  j : Nat
  bitsVec : List (BitVec 32)

/-- Insert a bit, and store the buffer when it is full. -/
def SelectLoop.insert (s : SelectLoop) (bit : Bool) : Option SelectLoop := do
  let buffer := if bit then selectInsert1 s.buffer else selectInsert0 s.buffer
  let idx := u32 (s.idx + 1)
  let bitsVec ← if idx &&& 0x1f = 0 then write s.bitsVec (idx >>> 5 - 1) buffer else some s.bitsVec
  return { s with buffer, idx, bitsVec }

/-- The loops `while(keys_vec[j]==i)` and `while(keys_vec[j] > i)`, each turn of which starts with
the test of the first (`true`) or of the second. -/
def selectLoop (keysVec : List Nat) (n m : Nat) : Nat → Bool → SelectLoop → Option SelectLoop
  | 0, _, _ => none
  | turns + 1, true, s => do
    let key ← keysVec[s.j]?
    if key = s.i then
      let s ← s.insert true
      let s := { s with j := u32 (s.j + 1) }
      if s.j = n then return s
      selectLoop keysVec n m turns true s
    else if s.i = m then return s
    else selectLoop keysVec n m turns false s
  | turns + 1, false, s => do
    let key ← keysVec[s.j]?
    if key > s.i then
      let s ← s.insert false
      selectLoop keysVec n m turns false { s with i := u32 (s.i + 1) }
    else selectLoop keysVec n m turns true s

/-- Store the bits in the buffer that are not stored yet. -/
def SelectLoop.finish (s : SelectLoop) : Option (List (BitVec 32)) :=
  if s.idx &&& 0x1f ≠ 0 then
    write s.bitsVec (u32 (s.idx - 1) >>> 5) (s.buffer >>> (32 - (s.idx &&& 0x1f)))
  else some s.bitsVec

/-- The loop that goes on byte by byte until there are more than `oneIdx` ones. The position of the
one in the last byte, and the variables `vec_idx` and `part_sum` behind it. -/
def scanOnes (oneIdx : Nat) : Bytes → Nat → Nat → Option (Nat × Nat × Nat)
  | [], _, _ => none
  | b :: bitsTable, vecIdx, oldPartSum => do
    let partSum := u32 (oldPartSum + rankLookup b)
    if partSum ≤ oneIdx then scanOnes oneIdx bitsTable (vecIdx + 1) partSum
    else
      let pos ← selectLookup b (u32 (oneIdx - oldPartSum))
      return (u32 (pos + vecIdx * 8), vecIdx + 1, partSum)

/-- `select_generate_sel_table` -/
def selectGenerateSelTable (bitsTable : Bytes) (n : Nat) : Nat → Nat → Nat → Nat → Nat →
    List (BitVec 32) → Option (List (BitVec 32))
  | turns, vecIdx, partSum, oneIdx, selTableIdx, selectTable =>
    if oneIdx ≥ n then some selectTable
    else
      match turns with
      | 0 => none
      | turns + 1 => do
        let (pos, vecIdx, partSum) ← scanOnes oneIdx (bitsTable.drop vecIdx) vecIdx partSum
        let selectTable ← write selectTable selTableIdx (BitVec.ofNat 32 pos)
        selectGenerateSelTable bitsTable n turns vecIdx partSum (u32 (oneIdx + 128))
          (selTableIdx + 1) selectTable

/-- `select_generate`. Each turn of its loops inserts a bit or goes over to the other loop. -/
def selectGenerate (keysVec : List Nat) (n m : Nat) : Option Select := do
  let nbits := u32 (n + m)
  let vecSize := u32 (nbits + 31) >>> 5
  let selTableSize := n >>> 7 + 1
  let s ← selectLoop keysVec n m (2 * (n + m) + 2) true
    { buffer := 0, idx := 0, i := 0, j := 0, bitsVec := List.replicate vecSize 0 }
  let bitsVec ← s.finish
  let selectTable ← selectGenerateSelTable (bytes bitsVec) n (n >>> 7 + 1) 0 0 0 0
    (List.replicate selTableSize 0)
  return { n, m, bitsVec, selectTable }

/-! ## Queries -/

/-- `_select_query` -/
def selectQueryTable (bitsTable : Bytes) (selectTable : List (BitVec 32)) (oneIdx : Nat) :
    Option Nat := do
  let vecBitIdx := (← selectTable[oneIdx >>> 7]?).toNat
  let vecByteIdx := vecBitIdx >>> 3
  let oneIdx := oneIdx &&& 0x7f
  let b ← bitsTable[vecByteIdx]?
  let oneIdx := u32 (oneIdx + rankLookup (b &&& UInt8.ofNat (1 <<< (vecBitIdx &&& 0x7) - 1)))
  let (pos, _) ← scanOnes oneIdx (bitsTable.drop vecByteIdx) vecByteIdx 0
  return pos

/-- `select_query` -/
def selectQuery (sel : Select) (oneIdx : Nat) : Option Nat :=
  selectQueryTable (bytes sel.bitsVec) sel.selectTable oneIdx

/-- `_select_next_query` -/
def selectNextQueryTable (bitsTable : Bytes) (vecBitIdx : Nat) : Option Nat := do
  let vecByteIdx := vecBitIdx >>> 3
  let b ← bitsTable[vecByteIdx]?
  let oneIdx := u32 (rankLookup (b &&& UInt8.ofNat (1 <<< (vecBitIdx &&& 0x7) - 1)) + 1)
  let (pos, _) ← scanOnes oneIdx (bitsTable.drop vecByteIdx) vecByteIdx 0
  return pos

/-- `select_next_query` -/
def selectNextQuery (sel : Select) (vecBitIdx : Nat) : Option Nat :=
  selectNextQueryTable (bytes sel.bitsVec) vecBitIdx

/-! ## Packing -/

/-- `select_dump`, the bytes that `select_pack` stores -/
def selectDump (sel : Select) : Option Bytes := do
  let nbits := u32 (sel.n + sel.m)
  let vecSize := u32 (u32 (nbits + 31) >>> 5 * 4)
  let selTableSize := u32 ((sel.n >>> 7 + 1) * 4)
  let bitsVec ← memcpy (bytes sel.bitsVec) vecSize
  let selectTable ← memcpy (bytes sel.selectTable) selTableSize
  return bytes [BitVec.ofNat 32 sel.n, BitVec.ofNat 32 sel.m] ++ bitsVec ++ selectTable

/-- `select_query_packed` -/
def selectQueryPacked (selPacked : Bytes) (oneIdx : Nat) : Option Nat := do
  let ptr := words selPacked
  let n := (← ptr[0]?).toNat
  let m := (← ptr[1]?).toNat
  let nbits := u32 (n + m)
  let vecSize := u32 (nbits + 31) >>> 5
  selectQueryTable (selPacked.drop 8) (ptr.drop (2 + vecSize)) oneIdx

/-- `select_next_query_packed` -/
def selectNextQueryPacked (selPacked : Bytes) (vecBitIdx : Nat) : Option Nat :=
  selectNextQueryTable (selPacked.drop 8) vecBitIdx

end PerfectHash.Cmph
