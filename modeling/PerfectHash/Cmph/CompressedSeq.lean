import PerfectHash.Cmph.Select
import PerfectHash.Cmph.Rems

/-! # Compressed sequences (`compressed_seq.c`)

The binary code of each value plus one is stored without its top bit, and the codes stand one after
the other. Where a code ends is stored in two parts: the low bits in a table of fields, and the high
bits in a select structure. -/

namespace PerfectHash.Cmph

/-- `compressed_seq_t` -/
structure CompressedSeq where
  n : Nat
  remR : Nat
  totalLength : Nat
  sel : Select
  lengthRems : List (BitVec 32)
  storeTable : List (BitVec 32)

/-! ## `compressed_seq_generate` -/

/-- The number of bits of the code of a value. -/
def encLength (val : Nat) : Nat := if val = 0 then 0 else iLog2 (u32 (val + 1)) 0

/-- The loop that stores the codes in `store_table`, and the end of the last one. -/
def storeVals : List Nat → List Nat → Nat → List (BitVec 32) → Option (Nat × List (BitVec 32))
  | val :: vals, length :: lengths, totalLength, storeTable =>
    if val = 0 then storeVals vals lengths totalLength storeTable
    else do
      let storedValue := u32 (val - (mask length).toNat)
      let storeTable ← setBitsAtPos storeTable totalLength (BitVec.ofNat 32 storedValue) length
      storeVals vals lengths (u32 (totalLength + length)) storeTable
  | _, _, totalLength, storeTable => some (totalLength, storeTable)

/-- The loop that stores the low bits of the ends of the codes in `length_rems`, and leaves the high
bits in `lengths`. -/
def storeEnds (remR : Nat) (remsMask : BitVec 32) : List Nat → Nat → Nat → List (BitVec 32) →
    Option (List Nat × Nat × List (BitVec 32))
  | [], _, totalLength, lengthRems => some ([], totalLength, lengthRems)
  | length :: lengths, i, totalLength, lengthRems => do
    let totalLength := u32 (totalLength + length)
    let lengthRems ← setBitsValue lengthRems i (BitVec.ofNat 32 totalLength &&& remsMask) remR
      remsMask
    let (lengths, lastLength, lengthRems) ←
      storeEnds remR remsMask lengths (i + 1) totalLength lengthRems
    return (totalLength >>> remR :: lengths, lastLength, lengthRems)

/-- `compressed_seq_generate`. Without a value it divides by zero. -/
def compressedSeqGenerate (valsTable : List Nat) : Option CompressedSeq := do
  let n := valsTable.length
  let lengths := valsTable.map encLength
  let totalLength := lengths.foldl (fun (total length : Nat) => u32 (total + length)) 0
  let (totalLength, storeTable) ← storeVals valsTable lengths 0
    (List.replicate (u32 (totalLength + 31) >>> 5) 0)
  if n = 0 then none
  let remR := iLog2 (totalLength / n) 0
  let remR := if remR = 0 then 1 else remR
  let remsMask := mask remR
  let (lengths, totalLength, lengthRems) ← storeEnds remR remsMask lengths 0 0
    (List.replicate (bitsTableSize n remR) 0)
  let sel ← selectGenerate lengths n (totalLength >>> remR)
  return { n, remR, totalLength, sel, lengthRems, storeTable }

/-! ## Queries -/

/-- The value at an index of the tables of a compressed sequence, and of its select structure. -/
def compressedSeqQueryTables (selectQuery selectNextQuery : Nat → Option Nat) (remR : Nat)
    (lengthRems storeTable : List (BitVec 32)) (idx : Nat) : Option Nat := do
  let remsMask := mask remR
  let (encIdx, selRes) ←
    if idx = 0 then do
      let selRes ← selectQuery idx
      pure (0, selRes)
    else do
      let selRes ← selectQuery (idx - 1)
      let encIdx := u32 ((u32 (selRes - (idx - 1 : Nat)) <<< remR : Nat))
      let rem ← getBitsValue lengthRems (idx - 1) remR remsMask
      let encIdx := u32 (encIdx + rem.toNat)
      let selRes ← selectNextQuery selRes
      pure (encIdx, selRes)
  let encLength := u32 ((u32 (selRes - idx) <<< remR : Nat))
  let rem ← getBitsValue lengthRems idx remR remsMask
  let encLength := u32 (encLength + rem.toNat)
  let encLength := u32 (encLength - encIdx)
  if encLength = 0 then return 0
  let storedValue ← getBitsAtPos storeTable encIdx encLength
  return u32 (storedValue.toNat + (mask encLength).toNat)

/-- `compressed_seq_query` -/
def compressedSeqQuery (cs : CompressedSeq) (idx : Nat) : Option Nat :=
  if idx < cs.n then
    compressedSeqQueryTables (selectQuery cs.sel) (selectNextQuery cs.sel) cs.remR cs.lengthRems
      cs.storeTable idx
  else none

/-! ## Packing -/

/-- `compressed_seq_dump`, the bytes that `compressed_seq_pack` stores -/
def compressedSeqDump (cs : CompressedSeq) : Option Bytes := do
  let lengthRemsSize := u32 (bitsTableSize cs.n cs.remR * 4)
  let storeTableSize := u32 (u32 (cs.totalLength + 31) >>> 5 * 4)
  let bufSel ← selectDump cs.sel
  let lengthRems ← memcpy (bytes cs.lengthRems) lengthRemsSize
  let storeTable ← memcpy (bytes cs.storeTable) storeTableSize
  return bytes [BitVec.ofNat 32 cs.n, BitVec.ofNat 32 cs.remR, BitVec.ofNat 32 cs.totalLength,
    BitVec.ofNat 32 bufSel.length] ++ bufSel ++ lengthRems ++ storeTable

/-- `compressed_seq_query_packed` -/
def compressedSeqQueryPacked (csPacked : Bytes) (idx : Nat) : Option Nat := do
  let ptr := words csPacked
  let n := (← ptr[0]?).toNat
  let remR := (← ptr[1]?).toNat
  let buflenSel := (← ptr[3]?).toNat
  let selPacked := csPacked.drop 16
  let lengthRems := ptr.drop (4 + buflenSel >>> 2)
  let storeTable := lengthRems.drop (bitsTableSize n remR)
  compressedSeqQueryTables (selectQueryPacked selPacked) (selectNextQueryPacked selPacked) remR
    lengthRems storeTable idx

end PerfectHash.Cmph
