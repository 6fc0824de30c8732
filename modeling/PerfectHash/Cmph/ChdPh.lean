import PerfectHash.Cmph.CompressedSeq
import PerfectHash.Cmph.MillerRabin
import PerfectHash.Cmph.Structs

/-! # The algorithm CHD_PH (`chd_ph.c`)

The keys are mapped into buckets, and the buckets are placed one after the other, those with many
keys first: the displacement of a bucket moves its keys into bins that are still free. Each bin gets
at most one key. How many bins the load factor gives, the bound of the number of probes, which the
source computes in floating point as well, and what `rand` returns are parameters. -/

namespace PerfectHash.Cmph

/-- `chd_ph_item_t` -/
structure ChdPhItem where
  f : Nat
  h : Nat
  deriving DecidableEq

/-- `chd_ph_map_item_t` -/
structure ChdPhMapItem where
  f : Nat
  h : Nat
  bucketNum : Nat
  deriving DecidableEq

/-- `chd_ph_bucket_t` -/
structure ChdPhBucket where
  itemsList : Nat
  size : Nat

/-- `bucket_id`, which is in a union with `size` -/
abbrev ChdPhBucket.bucketId (bucket : ChdPhBucket) : Nat := bucket.size

/-- `chd_ph_sorted_list_t` -/
structure ChdPhSortedList where
  bucketsList : Nat
  size : Nat

/-- The loop that lets each list start where the list in front of it ends, and makes it empty. -/
def startLists (mk : Nat → Nat → γ) (size : γ → Nat) : Nat → List γ → List γ
  | _, [] => []
  | offset, list :: lists => mk offset 0 :: startLists mk size (u32 (offset + size list)) lists

/-! ## The mapping step -/

/-- What `chd_ph_mapping` stores for a key with the given hashes. -/
def chdPhMapItem (nbuckets n : Nat) (hl : Hashes) : Option ChdPhMapItem := do
  if nbuckets = 0 ∨ n = 0 ∨ u32 (n - 1) = 0 then none
  return {
    f := hl.h1.toNat % n, h := u32 ((hl.h2.toNat % u32 (n - 1) : Nat) + 1)
    bucketNum := hl.h0.toNat % nbuckets }

/-- The size of the bucket of an item is incremented: the buckets and `max_bucket_size` -/
def chdPhGrow (s : List ChdPhBucket × Nat) (mapItem : ChdPhMapItem) :
    Option (List ChdPhBucket × Nat) := do
  let (buckets, maxBucketSize) := s
  let bucket ← buckets[mapItem.bucketNum]?
  let size := u32 (bucket.size + 1)
  return (← write buckets mapItem.bucketNum { bucket with size },
    if size > maxBucketSize then size else maxBucketSize)

/-- `chd_ph_bucket_clean` -/
def chdPhBucketClean (buckets : List ChdPhBucket) : List ChdPhBucket :=
  buckets.map fun bucket => { bucket with size := 0 }

/-- `chd_ph_bucket_insert`: whether the item was added -/
def chdPhBucketInsert (buckets : List ChdPhBucket) (items : List ChdPhItem)
    (mapItem : ChdPhMapItem) : Option (Bool × List ChdPhBucket × List ChdPhItem) := do
  let bucket ← buckets[mapItem.bucketNum]?
  let found ← (List.range' bucket.itemsList bucket.size).anyM fun i => do
    let tmpItem ← items[i]?
    return tmpItem.f = mapItem.f ∧ tmpItem.h = mapItem.h
  if found then return (false, buckets, items)
  let items ← write items (bucket.itemsList + bucket.size) { f := mapItem.f, h := mapItem.h }
  let buckets ← write buckets mapItem.bucketNum { bucket with size := u32 (bucket.size + 1) }
  return (true, buckets, items)

/-- The loop over the items, which ends at one that is not added. -/
def chdPhInsertAll : List ChdPhMapItem → List ChdPhBucket → List ChdPhItem →
    Option (Bool × List ChdPhBucket × List ChdPhItem)
  | [], buckets, items => return (true, buckets, items)
  | mapItem :: mapItems, buckets, items => do
    let (added, buckets, items) ← chdPhBucketInsert buckets items mapItem
    if added then chdPhInsertAll mapItems buckets items else return (false, buckets, items)

/-- What the mapping step changes: the hash function, the calls of `rand`, the buckets, the items and
`max_bucket_size` -/
structure ChdPhMapped where
  hl : HashState
  calls : Nat
  buckets : List ChdPhBucket
  items : List ChdPhItem
  maxBucketSize : Nat

/-- The loop of `chd_ph_mapping`, with the iterations that are left: nothing when it fails -/
def chdPhMappingLoop (nbuckets n : Nat) (hashfunc : CmphHash) (rand : Nat → Nat)
    (keys : List Bytes) : Nat → Nat → List ChdPhBucket → List ChdPhItem → Nat →
    Option (Option ChdPhMapped)
  | 0, _, _, _, _ => none
  | iterations + 1, calls, buckets, items, maxBucketSize => do
    let hl ← hashStateNew (rand calls) hashfunc keys.length
    let mapItems ← keys.mapM fun key => chdPhMapItem nbuckets n (hashVector hl key)
    let (buckets, maxBucketSize) ←
      mapItems.foldlM chdPhGrow (chdPhBucketClean buckets, maxBucketSize)
    let buckets := startLists ChdPhBucket.mk ChdPhBucket.size 0 buckets
    let (ok, buckets, items) ← chdPhInsertAll mapItems buckets items
    if ok then return some { hl, calls := calls + 1, buckets, items, maxBucketSize }
    if iterations = 0 then return none
    chdPhMappingLoop nbuckets n hashfunc rand keys iterations (calls + 1) buckets items maxBucketSize

/-- `chd_ph_mapping` -/
def chdPhMapping (nbuckets n : Nat) (hashfunc : CmphHash) (rand : Nat → Nat) (keys : List Bytes)
    (calls : Nat) (buckets : List ChdPhBucket) (items : List ChdPhItem) :
    Option (Option ChdPhMapped) :=
  chdPhMappingLoop nbuckets n hashfunc rand keys 1000 calls buckets items 0

/-! ## The ordering step -/

/-- `sorted_lists[bucket_size].size++` for a bucket that is not empty -/
def countBucket (sortedLists : List ChdPhSortedList) (bucket : ChdPhBucket) :
    Option (List ChdPhSortedList) := do
  if bucket.size = 0 then return sortedLists
  let list ← sortedLists[bucket.size]?
  write sortedLists bucket.size { list with size := u32 (list.size + 1) }

/-- The loop that finds the place of each list of buckets. The list of the empty buckets is not
used. -/
def startSortedLists : List ChdPhSortedList → Option (List ChdPhSortedList)
  | list :: lists =>
    if lists = [] then none
    else some (list :: startLists ChdPhSortedList.mk ChdPhSortedList.size 0 lists)
  | [] => none

/-- The bucket with the number `i` is stored behind those of its size: the sorted lists and
`output_buckets` -/
def storeBucket (s : List ChdPhSortedList × List ChdPhBucket) (bucket : ChdPhBucket × Nat) :
    Option (List ChdPhSortedList × List ChdPhBucket) := do
  let (sortedLists, outputBuckets) := s
  let (bucket, i) := bucket
  if bucket.size = 0 then return s
  let list ← sortedLists[bucket.size]?
  let outputBuckets ← write outputBuckets (u32 (list.bucketsList + list.size))
    { itemsList := bucket.itemsList, size := i }
  let sortedLists ← write sortedLists bucket.size { list with size := u32 (list.size + 1) }
  return (sortedLists, outputBuckets)

/-- The items of the bucket at `i` are moved to `position`: `position`, `output_buckets` and
`output_items` -/
def moveBucket (inputItems : List ChdPhItem) (bucketSize : Nat)
    (s : Nat × List ChdPhBucket × List ChdPhItem) (i : Nat) :
    Option (Nat × List ChdPhBucket × List ChdPhItem) := do
  let (position, outputBuckets, outputItems) := s
  let bucket ← outputBuckets[i]?
  let position2 := bucket.itemsList
  let outputBuckets ← write outputBuckets i { bucket with itemsList := position }
  let outputItems ← (List.range bucketSize).foldlM (fun outputItems j => do
    write outputItems (u32 (position + j : Nat)) (← inputItems[u32 (position2 + j : Nat)]?)) outputItems
  return (u32 (position + bucketSize : Nat), outputBuckets, outputItems)

/-- The items of all buckets of one size are moved. -/
def moveList (inputItems : List ChdPhItem) (sortedLists : List ChdPhSortedList)
    (s : Nat × List ChdPhBucket × List ChdPhItem) (bucketSize : Nat) :
    Option (Nat × List ChdPhBucket × List ChdPhItem) := do
  let list ← sortedLists[bucketSize]?
  (List.range' list.bucketsList list.size).foldlM (moveBucket inputItems bucketSize) s

/-- `chd_ph_ordering`: the sorted lists, the buckets and the items -/
def chdPhOrdering (inputBuckets : List ChdPhBucket) (inputItems : List ChdPhItem)
    (nitems maxBucketSize : Nat) :
    Option (List ChdPhSortedList × List ChdPhBucket × List ChdPhItem) := do
  let sortedLists ← inputBuckets.foldlM countBucket
    (List.replicate (u32 (maxBucketSize + 1)) ⟨0, 0⟩)
  let sortedLists ← startSortedLists sortedLists
  let (sortedLists, outputBuckets) ← inputBuckets.zipIdx.foldlM storeBucket
    (sortedLists, List.replicate inputBuckets.length ⟨0, 0⟩)
  let (_, outputBuckets, outputItems) ← (List.range' 1 maxBucketSize).foldlM
    (moveList inputItems sortedLists) (0, outputBuckets, List.replicate nitems ⟨0, 0⟩)
  return (sortedLists, outputBuckets, outputItems)

/-! ## The searching step -/

/-- The bin of an item. -/
def chdPhPosition (n : Nat) (item : ChdPhItem) (probe0Num probe1Num : Nat) : Option Nat :=
  if n = 0 then none
  else some (u64 (u64 (item.f + u64 (item.h * probe0Num)) + probe1Num) % n)

/-- The loop that places the items at some places: how many of them it places, and the table of the
bins -/
def placeItems (n : Nat) (items : List ChdPhItem) (probe0Num probe1Num : Nat) :
    List Nat → List (BitVec 32) → Option (Nat × List (BitVec 32))
  | [], occupTable => return (0, occupTable)
  | k :: ks, occupTable => do
    let position ← chdPhPosition n (← items[k]?) probe0Num probe1Num
    if ← getBit32 occupTable position then return (0, occupTable)
    let (i, occupTable) ← placeItems n items probe0Num probe1Num ks (← setBit32 occupTable position)
    return (i + 1, occupTable)

/-- The loop that undoes the placement. -/
def undoItems (n : Nat) (items : List ChdPhItem) (probe0Num probe1Num : Nat) (ks : List Nat)
    (occupTable : List (BitVec 32)) : Option (List (BitVec 32)) :=
  ks.foldlM (fun occupTable k => do
    unsetBit32 occupTable (← chdPhPosition n (← items[k]?) probe0Num probe1Num)) occupTable

/-- `place_bucket_probe`, where a bin has room for one key -/
def placeBucketProbe (n : Nat) (items : List ChdPhItem) (probe0Num probe1Num : Nat)
    (bucket : ChdPhBucket) (size : Nat) (occupTable : List (BitVec 32)) :
    Option (Bool × List (BitVec 32)) := do
  let (i, occupTable) ← placeItems n items probe0Num probe1Num
    (List.range' bucket.itemsList size) occupTable
  if i ≠ size then
    return (false, ← undoItems n items probe0Num probe1Num (List.range' bucket.itemsList i) occupTable)
  return (true, occupTable)

/-- The tables that the searching step changes. -/
structure ChdPhTables where
  buckets : List ChdPhBucket
  occupTable : List (BitVec 32)
  dispTable : List Nat

/-- The loop of `place_buckets2` over the buckets of a list, with the number of those that are left.
Those that are not placed are moved to the front. -/
def placeTurn (n : Nat) (items : List ChdPhItem) (i bucketsList probe0Num probe1Num : Nat) :
    Nat → Nat → Nat → ChdPhTables → Option (Nat × ChdPhTables)
  | 0, _, nonPlacedBucket, t => return (nonPlacedBucket, t)
  | left + 1, currBucket, nonPlacedBucket, t => do
    let bucket ← t.buckets[currBucket]?
    let (placed, occupTable) ← placeBucketProbe n items probe0Num probe1Num bucket i t.occupTable
    if placed then
      let dispTable ← write t.dispTable bucket.bucketId (u32 (probe0Num + u32 (probe1Num * n)))
      placeTurn n items i bucketsList probe0Num probe1Num left (u32 (currBucket + 1)) nonPlacedBucket
        { t with occupTable, dispTable }
    else
      let buckets ← write t.buckets (u32 (nonPlacedBucket + bucketsList : Nat)) bucket
      placeTurn n items i bucketsList probe0Num probe1Num left (u32 (currBucket + 1))
        (u32 (nonPlacedBucket + 1)) { t with buckets, occupTable }

/-- The loop of `place_buckets2` over the probes, while `size` buckets of the list are not placed:
whether all of them get a place -/
def placeList (n maxProbes : Nat) (items : List ChdPhItem) (i bucketsList : Nat) :
    Nat → Nat → Nat → Nat → Nat → ChdPhTables → Option (Bool × ChdPhTables)
  | 0, _, _, _, _, _ => none
  | turns + 1, size, probeNum, probe0Num, probe1Num, t => do
    if size = 0 then return (true, t)
    let (size, t) ← placeTurn n items i bucketsList probe0Num probe1Num size bucketsList 0 t
    let probe0Num := u32 (probe0Num + 1)
    let (probe0Num, probe1Num) :=
      if probe0Num ≥ n then (u32 (probe0Num - n), u32 (probe1Num + 1)) else (probe0Num, probe1Num)
    let probeNum := u32 (probeNum + 1)
    if probeNum ≥ maxProbes ∨ probe1Num ≥ n then return (false, t)
    placeList n maxProbes items i bucketsList turns size probeNum probe0Num probe1Num t

/-- `place_buckets2`, for the lists of the buckets with up to `i` items -/
def placeBuckets2 (n maxProbes : Nat) (items : List ChdPhItem)
    (sortedLists : List ChdPhSortedList) : Nat → ChdPhTables → Option (Bool × ChdPhTables)
  | 0, t => return (true, t)
  | i + 1, t => do
    let list ← sortedLists[i + 1]?
    let (placed, t) ← placeList n maxProbes items (i + 1) list.bucketsList (maxProbes + 1) list.size
      0 0 0 t
    if placed then placeBuckets2 n maxProbes items sortedLists i t else return (false, t)

/-! ## The function -/

/-- `chd_ph_data_t` -/
structure ChdPhData where
  cs : CompressedSeq
  nbuckets : Nat
  n : Nat
  hl : Option HashState

/-- The loop that rounds the number of bins to a prime. -/
def roundToPrime : Nat → Nat → Option Nat
  | 0, _ => none
  | turns + 1, n => do if ← checkPrimality n then return n else roundToPrime turns (u32 (n + 2))

/-- The number of bins. After `2 ^ 31` turns the loop is where it started. -/
def chdPhBins (n : Nat) : Option Nat :=
  roundToPrime (2 ^ 31) (if n % 2 = 0 then u32 (n + 1) else n)

/-- The loop of `chd_ph_new`, with the iterations that are left: the hash function, the displacements
and the table of the bins, or nothing when it fails -/
def chdPhSearchLoop (nbuckets n maxProbes : Nat) (hashfunc : CmphHash) (rand : Nat → Nat)
    (keys : List Bytes) : Nat → Nat → List ChdPhBucket → List ChdPhItem → List Nat →
    Option (Option (HashState × List Nat × List (BitVec 32)))
  | 0, _, _, _, _ => none
  | iterations + 1, calls, buckets, items, dispTable => do
    match ← chdPhMapping nbuckets n hashfunc rand keys calls buckets items with
    | none => return none
    | some s =>
      let (sortedLists, buckets, items) ←
        chdPhOrdering s.buckets s.items keys.length s.maxBucketSize
      let (success, t) ← placeBuckets2 n maxProbes items sortedLists s.maxBucketSize
        { buckets, occupTable := List.replicate (u32 (n + 31) / 32) 0, dispTable }
      if success then return some (s.hl, t.dispTable, t.occupTable)
      if iterations = 0 then return none
      chdPhSearchLoop nbuckets n maxProbes hashfunc rand keys iterations s.calls t.buckets items
        t.dispTable

/-- `chd_ph_new`: the function and the table of the bins, or nothing where it returns NULL. The
parameter `bins` is what the load factor gives. -/
def chdPhNew (keysPerBucket bins maxProbes : Nat) (hashfunc : CmphHash) (rand : Nat → Nat)
    (keys : List Bytes) : Option (Option (CmphT ChdPhData × List (BitVec 32))) := do
  let m := keys.length
  if keysPerBucket = 0 then none
  let nbuckets := u32 ((m / keysPerBucket : Nat) + 1)
  let n ← chdPhBins bins
  match ← chdPhSearchLoop nbuckets n maxProbes hashfunc rand keys 100 0
      (List.replicate nbuckets ⟨0, 0⟩) (List.replicate m ⟨0, 0⟩) (List.replicate nbuckets 0) with
  | none => return none
  | some (hl, dispTable, occupTable) =>
    let cs ← compressedSeqGenerate dispTable
    return some ({ algo := .chdPh, size := n, data := { cs, nbuckets, n, hl := some hl } }, occupTable)

/-- The bin of a key with the given hashes, of the displacement of its bucket. -/
def chdPhBin (nbuckets n : Nat) (query : Nat → Option Nat) (hl : Hashes) : Option Nat := do
  let item ← chdPhMapItem nbuckets n hl
  let disp ← query item.bucketNum
  chdPhPosition n { f := item.f, h := item.h } (disp % n) (disp / n)

/-- `chd_ph_search` -/
def chdPhSearch (chdPh : ChdPhData) (key : Bytes) : Option Nat := do
  let hl ← chdPh.hl
  chdPhBin chdPh.nbuckets chdPh.n (compressedSeqQuery chdPh.cs) (hashVector hl key)

/-! ## Packed functions -/

/-- `chd_ph_pack` -/
def chdPhPack (data : ChdPhData) : Option Bytes := do
  let hl ← data.hl
  let cs ← compressedSeqDump data.cs
  return bytes [hl.hashfunc.toWord] ++ hashStatePack hl ++
    bytes [BitVec.ofNat 32 data.n, BitVec.ofNat 32 data.nbuckets] ++ cs

/-- `chd_ph_search_packed` -/
def chdPhSearchPacked (packed : Bytes) (key : Bytes) : Option Nat := do
  let hlType ← CmphHash.ofWord (← (words packed)[0]?)
  let hlPtr := packed.drop 4
  let ptr := hlPtr.drop (hashStatePackedSize hlType)
  let n := (← (words ptr)[0]?).toNat
  let nbuckets := (← (words ptr)[1]?).toNat
  chdPhBin nbuckets n (compressedSeqQueryPacked (ptr.drop 8)) (← hashVectorPacked hlPtr hlType key)

end PerfectHash.Cmph
