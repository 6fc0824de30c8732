import PerfectHash.Cmph.Graph
import PerfectHash.Cmph.Structs

/-! # The algorithm CHM (`chm.c`)

Each key is an edge of a graph without cycles, and the values of the vertices are such that those of
the two vertices of the edge `e` add up to `e`. The number `n` of vertices, which the source computes
in floating point, and what `rand` returns are parameters. -/

namespace PerfectHash.Cmph

/-- `chm_data_t` -/
structure ChmData where
  m : Nat
  n : Nat
  g : List (BitVec 32)
  hashes : List (Option HashState)

/-- The two vertices of a key with the given hashes. -/
def chmVertices (n hash1 hash2 : Nat) : Option (Nat × Nat) := do
  if n = 0 then none
  let h1 := hash1 % n
  let h2 := hash2 % n
  if h1 = h2 then
    let h2 := u32 (h2 + 1)
    return (h1, if h2 ≥ n then 0 else h2)
  return (h1, h2)

/-! ## The mapping step -/

/-- The loop of `chm_gen_edges`, which ends at a self loop. -/
def chmAddEdges (n : Nat) (hash1 hash2 : HashState) (graph : GraphT) :
    List Bytes → Option (GraphT × Bool)
  | [] => return (graph, true)
  | key :: keys => do
    let (h1, h2) ← chmVertices n (hash hash1 key) (hash hash2 key)
    if h1 = h2 then return (graph, false)
    chmAddEdges n hash1 hash2 (← graphAddEdge graph h1 h2) keys

/-- `chm_gen_edges` -/
def chmGenEdges (n : Nat) (hash1 hash2 : HashState) (graph : GraphT) (keys : List Bytes) :
    Option (GraphT × Bool) := do
  let (graph, added) ← chmAddEdges n hash1 hash2 (graphClearEdges graph) keys
  if added then
    let cycles ← graphIsCyclic graph
    return (graph, !cycles)
  return (graph, false)

/-- The loop of the mapping step, with the iterations that are left and the calls of `rand` so far:
nothing when it gives up -/
def chmMapping (n : Nat) (hashfuncs : CmphHash × CmphHash) (rand : Nat → Nat) (keys : List Bytes) :
    Nat → Nat → GraphT → Option (Option (GraphT × HashState × HashState))
  | 0, _, _ => none
  | iterations + 1, calls, graph => do
    let hash1 ← hashStateNew (rand calls) hashfuncs.1 n
    let hash2 ← hashStateNew (rand (calls + 1)) hashfuncs.2 n
    let (graph, ok) ← chmGenEdges n hash1 hash2 graph keys
    if ok then return some (graph, hash1, hash2)
    if iterations = 0 then return none
    chmMapping n hashfuncs rand keys iterations (calls + 2) graph

/-! ## The assignment step -/

mutual

/-- `chm_traverse`, of `chm->g` and `visited` -/
def chmTraverse (graph : GraphT) :
    Nat → Nat → List (BitVec 32) → Bytes → Option (List (BitVec 32) × Bytes)
  | 0, _, _, _ => none
  | turns + 1, v, g, visited => do
    let edge ← graph.first[v]?
    chmTraverseLoop graph turns v edge g (← setBit visited v)

/-- The loop of `chm_traverse`, with the edge of the iterator. -/
def chmTraverseLoop (graph : GraphT) :
    Nat → Nat → Nat → List (BitVec 32) → Bytes → Option (List (BitVec 32) × Bytes)
  | 0, _, _, _, _ => none
  | turns + 1, v, edge, g, visited => do
    let (neighbor, edge) ← graphNextNeighbor graph v edge
    if neighbor = empty then return (g, visited)
    if ← getBit visited neighbor then chmTraverseLoop graph turns v edge g visited
    else
      let id ← graphEdgeId graph v neighbor
      let g ← write g neighbor (BitVec.ofNat 32 id - (← g[v]?))
      let (g, visited) ← chmTraverse graph turns neighbor g visited
      chmTraverseLoop graph turns v edge g visited

end

/-- The turns that a traversal of the whole graph needs. -/
def chmTurns (graph : GraphT) : Nat := (graph.nnodes + 1) * (2 * graph.nedges + 2)

/-- The loop of the assignment step. -/
def chmAssign (graph : GraphT) (vs : List Nat) (g : List (BitVec 32)) (visited : Bytes) :
    Option (List (BitVec 32) × Bytes) :=
  vs.foldlM (fun (g, visited) i => do
    if ← getBit visited i then return (g, visited)
    chmTraverse graph (chmTurns graph) i (← write g i 0) visited) (g, visited)

/-- `chm_new`: nothing where it returns NULL. What `malloc` returned for `chm->g` has arbitrary
contents. -/
def chmNew (n : Nat) (hashfuncs : CmphHash × CmphHash) (rand : Nat → Nat) (keys : List Bytes)
    (garbage : List (BitVec 32)) : Option (Option (CmphT ChmData)) := do
  let m := keys.length
  match ← chmMapping n hashfuncs rand keys 20 0 (graphNew n m) with
  | none => return none
  | some (graph, hash1, hash2) =>
    let (g, _) ← chmAssign graph (List.range n) garbage (List.replicate (n / 8 + 1) 0)
    return some {
      algo := .chm, size := m, data := { m, n, g, hashes := [some hash1, some hash2] } }

/-! ## Searching -/

/-- `(g[h1] + g[h2]) % m` -/
def chmValue (m n : Nat) (g : List (BitVec 32)) (hash1 hash2 : Nat) : Option Nat := do
  let (h1, h2) ← chmVertices n hash1 hash2
  let sum := (← g[h1]?) + (← g[h2]?)
  if m = 0 then none
  return sum.toNat % m

/-- `chm_search` -/
def chmSearch (chm : ChmData) (key : Bytes) : Option Nat := do
  let hash1 ← (← chm.hashes[0]?)
  let hash2 ← (← chm.hashes[1]?)
  chmValue chm.m chm.n chm.g (hash hash1 key) (hash hash2 key)

/-! ## Files and packed functions -/

/-- `chm_dump` -/
def chmDump (mphf : CmphT ChmData) : Option Bytes := do
  let data := mphf.data
  let hash1 := hashStateDump (← (← data.hashes[0]?))
  let hash2 := hashStateDump (← (← data.hashes[1]?))
  let g ← copyWords data.g data.n
  return cmphDumpHead mphf.algo mphf.size ++ bytes [2] ++
    bytes [BitVec.ofNat 32 hash1.length] ++ hash1 ++
    bytes [BitVec.ofNat 32 hash2.length] ++ hash2 ++
    bytes [BitVec.ofNat 32 data.n, BitVec.ofNat 32 data.m] ++ g

/-- The loop of `chm_load` over the hash functions. -/
def chmLoadHashes : Nat → Bytes → Option (List (Option HashState) × Bytes)
  | 0, f => some ([], f)
  | nhashes + 1, f => do
    let (buflen, f) ← freadWord f
    let (buf, f) ← fread f buflen.toNat
    let state ← hashStateLoad buf
    let (hashes, f) ← chmLoadHashes nhashes f
    return (state :: hashes, f)

/-- `chm_load` -/
def chmLoad (f : Bytes) : Option (ChmData × Bytes) := do
  let (nhashes, f) ← freadWord f
  let (hashes, f) ← chmLoadHashes nhashes.toNat f
  let (n, f) ← freadWord f
  let (m, f) ← freadWord f
  let (g, f) ← fread f (4 * n.toNat)
  return ({ m := m.toNat, n := n.toNat, g := words g, hashes }, f)

/-- `chm_pack` -/
def chmPack (data : ChmData) : Option Bytes := do
  let hash1 ← (← data.hashes[0]?)
  let hash2 ← (← data.hashes[1]?)
  let g ← copyWords data.g data.n
  return bytes [hash1.hashfunc.toWord] ++ hashStatePack hash1 ++
    bytes [hash2.hashfunc.toWord] ++ hashStatePack hash2 ++
    bytes [BitVec.ofNat 32 data.n, BitVec.ofNat 32 data.m] ++ g

/-- `chm_packed_size` -/
def chmPackedSize (data : ChmData) : Option Nat := do
  let h1Type := (← (← data.hashes[0]?)).hashfunc
  let h2Type := (← (← data.hashes[1]?)).hashfunc
  return u32 ((4 + hashStatePackedSize h1Type + hashStatePackedSize h2Type + 4 * 4 + 4 * data.n : Nat))

/-- `chm_search_packed` -/
def chmSearchPacked (packed : Bytes) (key : Bytes) : Option Nat := do
  let h1Type ← CmphHash.ofWord (← (words packed)[0]?)
  let h1Ptr := packed.drop 4
  let h2Ptr := h1Ptr.drop (hashStatePackedSize h1Type)
  let h2Type ← CmphHash.ofWord (← (words h2Ptr)[0]?)
  let h2Ptr := h2Ptr.drop 4
  let gPtr := words (h2Ptr.drop (hashStatePackedSize h2Type))
  let n := (← gPtr[0]?).toNat
  let m := (← gPtr[1]?).toNat
  chmValue m n (gPtr.drop 2) (← hashPacked h1Ptr h1Type key) (← hashPacked h2Ptr h2Type key)

end PerfectHash.Cmph
