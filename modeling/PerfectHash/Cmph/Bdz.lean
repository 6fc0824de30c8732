import PerfectHash.Cmph.Structs
import PerfectHash.Cmph.Values
import Mathlib.Data.Fin.VecNotation

/-! # The algorithm BDZ (`bdz.c`)

Each key is an edge with three vertices. When the edges can be removed one after the other, each of
them can be given a vertex of its own, and the rank of that vertex is the value of the key. The number
`r` of vertices in each of the three parts, which the source computes in floating point, and what
`rand` returns are parameters. -/

namespace PerfectHash.Cmph

/-- `UNASSIGNED` -/
def unassigned : Nat := 3

/-- `NULL_EDGE` -/
def nullEdge : Nat := 0xffffffff

/-- `bdz_lookup_table` -/
def bdzLookupTable : List Nat := [
  4, 4, 4, 3, 4, 4, 4, 3, 4, 4, 4, 3, 3, 3, 3, 2,
  4, 4, 4, 3, 4, 4, 4, 3, 4, 4, 4, 3, 3, 3, 3, 2,
  4, 4, 4, 3, 4, 4, 4, 3, 4, 4, 4, 3, 3, 3, 3, 2,
  3, 3, 3, 2, 3, 3, 3, 2, 3, 3, 3, 2, 2, 2, 2, 1,
  4, 4, 4, 3, 4, 4, 4, 3, 4, 4, 4, 3, 3, 3, 3, 2,
  4, 4, 4, 3, 4, 4, 4, 3, 4, 4, 4, 3, 3, 3, 3, 2,
  4, 4, 4, 3, 4, 4, 4, 3, 4, 4, 4, 3, 3, 3, 3, 2,
  3, 3, 3, 2, 3, 3, 3, 2, 3, 3, 3, 2, 2, 2, 2, 1,
  4, 4, 4, 3, 4, 4, 4, 3, 4, 4, 4, 3, 3, 3, 3, 2,
  4, 4, 4, 3, 4, 4, 4, 3, 4, 4, 4, 3, 3, 3, 3, 2,
  4, 4, 4, 3, 4, 4, 4, 3, 4, 4, 4, 3, 3, 3, 3, 2,
  3, 3, 3, 2, 3, 3, 3, 2, 3, 3, 3, 2, 2, 2, 2, 1,
  3, 3, 3, 2, 3, 3, 3, 2, 3, 3, 3, 2, 2, 2, 2, 1,
  3, 3, 3, 2, 3, 3, 3, 2, 3, 3, 3, 2, 2, 2, 2, 1,
  3, 3, 3, 2, 3, 3, 3, 2, 3, 3, 3, 2, 2, 2, 2, 1,
  2, 2, 2, 1, 2, 2, 2, 1, 2, 2, 2, 1, 1, 1, 1, 0]

/-! ## The graph -/

/-- `bdz_edge_t`, whose arrays of three numbers are functions -/
structure BdzEdge where
  vertices : Fin 3 → Nat
  nextEdges : Fin 3 → Nat

/-- `bdz_graph3_t` -/
structure BdzGraph3 where
  nedges : Nat
  edges : List BdzEdge
  firstEdge : List Nat
  vertDegree : List UInt8

/-- `bdz_init_graph3` -/
def bdzInitGraph3 (graph3 : BdzGraph3) (nvertices : Nat) : BdzGraph3 :=
  { graph3 with
    firstEdge := List.replicate nvertices nullEdge
    vertDegree := List.replicate nvertices 0
    nedges := 0 }

/-- `vert_degree[v]++` and `vert_degree[v]--` -/
def addDegree (vertDegree : List UInt8) (v : Nat) (d : UInt8) : Option (List UInt8) := do
  write vertDegree v ((← vertDegree[v]?) + d)

/-- `bdz_add_edge` -/
def bdzAddEdge (g : BdzGraph3) (v0 v1 v2 : Nat) : Option BdzGraph3 := do
  let nextEdges := ![← g.firstEdge[v0]?, ← g.firstEdge[v1]?, ← g.firstEdge[v2]?]
  let edges ← write g.edges g.nedges { vertices := ![v0, v1, v2], nextEdges }
  let firstEdge ← write g.firstEdge v2 g.nedges
  let firstEdge ← write firstEdge v1 g.nedges
  let firstEdge ← write firstEdge v0 g.nedges
  let vertDegree ← addDegree g.vertDegree v0 1
  let vertDegree ← addDegree vertDegree v1 1
  let vertDegree ← addDegree vertDegree v2 1
  return { nedges := u32 (g.nedges + 1), edges, firstEdge, vertDegree }

/-- The loop of `bdz_remove_edge` along the edges of a vertex: `edge1`, `edge2` and `j` -/
def bdzFindEdge (g : BdzGraph3) (currEdge vert : Nat) :
    Nat → Nat → Nat → Fin 3 → Option (Nat × Nat × Fin 3)
  | 0, _, _, _ => none
  | turns + 1, edge1, edge2, j => do
    if edge1 ≠ currEdge ∧ edge1 ≠ nullEdge then
      let edge ← g.edges[edge1]?
      let j : Fin 3 :=
        if edge.vertices 0 = vert then 0 else if edge.vertices 1 = vert then 1 else 2
      bdzFindEdge g currEdge vert turns (edge.nextEdges j) edge1 j
    else return (edge1, edge2, j)

/-- One turn of the loop of `bdz_remove_edge` over the three vertices. `j` is only used after it was
set in the same turn. The program ends where the edge is not found. -/
def bdzRemoveVertex (currEdge : Nat) (g : BdzGraph3) (i : Fin 3) : Option BdzGraph3 := do
  let vert := (← g.edges[currEdge]?).vertices i
  let (edge1, edge2, j) ←
    bdzFindEdge g currEdge vert (g.edges.length + 1) (← g.firstEdge[vert]?) nullEdge 0
  if edge1 = nullEdge then none
  let next := (← g.edges[edge1]?).nextEdges i
  let vertDegree ← addDegree g.vertDegree vert (-1)
  if edge2 ≠ nullEdge then
    let edge ← g.edges[edge2]?
    let edges ← write g.edges edge2 { edge with nextEdges := Function.update edge.nextEdges j next }
    return { g with edges, vertDegree }
  else
    let firstEdge ← write g.firstEdge vert next
    return { g with firstEdge, vertDegree }

/-- `bdz_remove_edge` -/
def bdzRemoveEdge (g : BdzGraph3) (currEdge : Nat) : Option BdzGraph3 :=
  [0, 1, 2].foldlM (bdzRemoveVertex currEdge) g

/-! ## The queue -/

/-- An edge that was not marked is put into the queue, which has room for all edges. -/
def bdzPush (nedges : Nat) (queue : List Nat × Bytes) (e : Nat) : Option (List Nat × Bytes) := do
  let (queue, markedEdge) := queue
  if ← getBit markedEdge e then return (queue, markedEdge)
  if queue.length < nedges then return (queue ++ [e], ← setBit markedEdge e) else none

/-- The first loop of `bdz_generate_queue`. -/
def bdzStartQueue (g : BdzGraph3) (nedges : Nat) (is : List Nat) (queue : List Nat × Bytes) :
    Option (List Nat × Bytes) :=
  is.foldlM (fun queue i => do
    let edge ← g.edges[i]?
    if (← g.vertDegree[edge.vertices 0]?) = 1 ∨ (← g.vertDegree[edge.vertices 1]?) = 1 ∨
        (← g.vertDegree[edge.vertices 2]?) = 1 then
      bdzPush nedges queue i
    else return queue) queue

/-- When a vertex has a single edge left, that edge is put into the queue. -/
def bdzPushLast (nedges : Nat) (g : BdzGraph3) (edge : BdzEdge) (queue : List Nat × Bytes)
    (i : Fin 3) : Option (List Nat × Bytes) := do
  let v := edge.vertices i
  if (← g.vertDegree[v]?) = 1 then bdzPush nedges queue (← g.firstEdge[v]?) else return queue

/-- The second loop of `bdz_generate_queue`. -/
def bdzQueueLoop (nedges : Nat) :
    Nat → Nat → BdzGraph3 → List Nat × Bytes → Option (BdzGraph3 × List Nat)
  | 0, _, _, _ => none
  | turns + 1, queueTail, g, queue => do
    if queueTail = queue.1.length then return (g, queue.1)
    let currEdge ← queue.1[queueTail]?
    let g ← bdzRemoveEdge g currEdge
    let edge ← g.edges[currEdge]?
    let queue ← ([0, 1, 2] : List (Fin 3)).foldlM (bdzPushLast nedges g edge) queue
    bdzQueueLoop nedges turns (queueTail + 1) g queue

/-- `bdz_generate_queue`: the number that it returns, the graph and the queue -/
def bdzGenerateQueue (g : BdzGraph3) (nedges : Nat) : Option (Int × BdzGraph3 × List Nat) := do
  let queue ← bdzStartQueue g nedges (List.range nedges)
    ([], List.replicate (nedges >>> 3 + 1) 0)
  let (g, queue) ← bdzQueueLoop nedges (nedges + 1) 0 g queue
  return (((queue.length : Int) - nedges).bmod (2 ^ 32), g, queue)

/-! ## The mapping step -/

/-- The three vertices of a key with the given hashes. -/
def bdzVertices (r : Nat) (h : Hashes) : Option (Fin 3 → Nat) := do
  if r = 0 then none
  return ![h.h0.toNat % r, u32 ((h.h1.toNat % r : Nat) + r),
    u32 ((h.h2.toNat % r : Nat) + u32 (2 * r))]

/-- `bdz_mapping`: whether it succeeds, the graph and the queue -/
def bdzMapping (r n : Nat) (hl : HashState) (graph3 : BdzGraph3) (keys : List Bytes) :
    Option (Bool × BdzGraph3 × List Nat) := do
  let graph3 ← keys.foldlM (fun graph3 key => do
    let v ← bdzVertices r (hashVector hl key)
    bdzAddEdge graph3 (v 0) (v 1) (v 2)) (bdzInitGraph3 graph3 n)
  let (cycles, graph3, queue) ← bdzGenerateQueue graph3 keys.length
  return (cycles = 0, graph3, queue)

/-- The loop of the mapping step, with the iterations that are left and the calls of `rand` so far:
nothing when it gives up -/
def bdzMappingLoop (r n : Nat) (hashfunc : CmphHash) (rand : Nat → Nat) (keys : List Bytes) :
    Nat → Nat → BdzGraph3 → Option (Option (HashState × BdzGraph3 × List Nat))
  | 0, _, _ => none
  | iterations + 1, calls, graph3 => do
    let hl ← hashStateNew (rand calls) hashfunc 15
    let (ok, graph3, queue) ← bdzMapping r n hl graph3 keys
    if ok then return some (hl, graph3, queue)
    if iterations = 0 then return none
    bdzMappingLoop r n hashfunc rand keys iterations (calls + 1) graph3

/-! ## The assigning step -/

/-- A vertex that was not marked stays unassigned. -/
def assignOther (v : Nat) (s : Bytes × Bytes) : Option (Bytes × Bytes) := do
  let (g, markedVertices) := s
  if ← getBit markedVertices v then return (g, markedVertices)
  return (← setValue1 g v unassigned, ← setBit markedVertices v)

/-- The vertex gets the value for which the three values add up to its number. -/
def assignVertex (v a b c : Nat) (s : Bytes × Bytes) : Option (Bytes × Bytes) := do
  let (g, markedVertices) := s
  let x := (c - ((← getValue g a) + (← getValue g b))) % 3
  return (← setValue1 g v x, ← setBit markedVertices v)

/-- The body of the loop of `assigning`, of `g` and `marked_vertices` -/
def assignEdge (vertices : Fin 3 → Nat) (s : Bytes × Bytes) : Option (Bytes × Bytes) := do
  let v0 := vertices 0
  let v1 := vertices 1
  let v2 := vertices 2
  if !(← getBit s.2 v0) then
    assignVertex v0 v1 v2 6 (← assignOther v2 (← assignOther v1 s))
  else if !(← getBit s.2 v1) then
    assignVertex v1 v0 v2 7 (← assignOther v2 s)
  else assignVertex v2 v0 v1 8 s

/-- `ceil(n / 4.0)` -/
def sizeG (n : Nat) : Nat := (n + 3) / 4

/-- `assigning`, which goes through the queue from its end -/
def assigning (n : Nat) (graph3 : BdzGraph3) (queue : List Nat) : Option Bytes := do
  let (g, _) ← (List.range graph3.nedges).reverse.foldlM (fun s i => do
    assignEdge (← graph3.edges[← queue[i]?]?).vertices s)
    (List.replicate (sizeG n) 0xff, List.replicate (n >>> 3 + 1) 0)
  return g

/-! ## The ranking step -/

/-- `count += bdz_lookup_table[*(g + i)]`, for some bytes of the table -/
def countBytes (g : Bytes) (count : Nat) (is : List Nat) : Option Nat :=
  is.foldlM (fun count i => do return u32 (count + (← bdzLookupTable[(← g[i]?).toNat]?) : Nat)) count

/-- The loop of `ranking`. -/
def rankingLoop (g : Bytes) (size ranktablesize : Nat) :
    Nat → Nat → Nat → Nat → Nat → List (BitVec 32) → Option (List (BitVec 32))
  | 0, _, _, _, _, _ => none
  | turns + 1, i, offset, count, nbytesTotal, ranktable => do
    if i = ranktablesize then return ranktable
    let nbytes := if size < nbytesTotal then size else nbytesTotal
    let count ← countBytes g count (List.range' offset nbytes)
    let ranktable ← write ranktable i (BitVec.ofNat 32 count)
    rankingLoop g size ranktablesize turns (i + 1) (u32 (offset + nbytes : Nat)) count
      (u32 (nbytesTotal - size)) ranktable

/-- `ranking` -/
def ranking (n k ranktablesize : Nat) (g : Bytes) : Option (List (BitVec 32)) := do
  let ranktable ← write (List.replicate ranktablesize (0 : BitVec 32)) 0 0
  rankingLoop g (k >>> 2) ranktablesize ranktablesize 1 0 0 (sizeG n) ranktable

/-! ## The function -/

/-- `bdz_data_t` -/
structure BdzData where
  m : Nat
  n : Nat
  r : Nat
  g : Bytes
  hl : Option HashState
  k : Nat
  b : UInt8
  ranktablesize : Nat
  ranktable : List (BitVec 32)

/-- `ceil(n / (double)k)` -/
def rankTableSize (n k : Nat) : Nat := (n + k - 1) / k

/-- `bdz_new`: nothing where it returns NULL. The parameter `r` is what `ceil` gives, and the memory
for the edges has arbitrary contents. -/
def bdzNew (r : Nat) (b : UInt8) (hashfunc : CmphHash) (rand : Nat → Nat) (keys : List Bytes)
    (garbage : List BdzEdge) : Option (Option (CmphT BdzData)) := do
  let m := keys.length
  let r := if r % 2 = 0 then u32 (r + 1) else r
  let n := u32 (3 * r)
  let k := 1 <<< b.toNat
  let ranktablesize := rankTableSize n k
  let graph3 : BdzGraph3 := { nedges := 0, edges := garbage, firstEdge := [], vertDegree := [] }
  match ← bdzMappingLoop r n hashfunc rand keys 1000 0 graph3 with
  | none => return none
  | some (hl, graph3, queue) =>
    let g ← assigning n graph3 queue
    let ranktable ← ranking n k ranktablesize g
    return some {
      algo := .bdz, size := m
      data := { m, n, r, g, hl := some hl, k, b, ranktablesize, ranktable } }

/-- `rank` -/
def bdzRank (b : UInt8) (ranktable : List (BitVec 32)) (g : Bytes) (vertex : Nat) : Option Nat := do
  let index := vertex >>> b.toNat
  let baseRank := (← ranktable[index]?).toNat
  let begIdxB := u32 ((index <<< b.toNat : Nat)) >>> 2
  let endIdxB := vertex >>> 2
  let baseRank ← countBytes g baseRank (List.range' begIdxB (endIdxB - begIdxB))
  let begIdxV := u32 ((max begIdxB endIdxB <<< 2 : Nat))
  (List.range' begIdxV (vertex - begIdxV)).foldlM (fun baseRank i => do
    return if (← getValue g i) ≠ unassigned then u32 (baseRank + 1) else baseRank) baseRank

/-- The vertex of a key with the given hashes. -/
def bdzVertex (r : Nat) (g : Bytes) (h : Hashes) : Option Nat := do
  let hl ← bdzVertices r h
  let sum := (← getValue g (hl 0)) + (← getValue g (hl 1)) + (← getValue g (hl 2))
  return hl ⟨sum % 3, Nat.mod_lt _ (by decide)⟩

/-- The vertex of an edge that the values pick. -/
def pick (vals : List Nat) (p : Fin 3 → Nat) : Option Nat := do
  let sum := (← vals[p 0]?) + (← vals[p 1]?) + (← vals[p 2]?)
  return p ⟨sum % 3, Nat.mod_lt _ (by decide)⟩

/-- `bdz_search` -/
def bdzSearch (bdz : BdzData) (key : Bytes) : Option Nat := do
  let hl ← bdz.hl
  bdzRank bdz.b bdz.ranktable bdz.g (← bdzVertex bdz.r bdz.g (hashVector hl key))

/-! ## Files and packed functions -/

/-- `bdz_dump` -/
def bdzDump (mphf : CmphT BdzData) : Option Bytes := do
  let data := mphf.data
  let buf := hashStateDump (← data.hl)
  let g ← memcpy data.g (sizeG data.n)
  let ranktable ← copyWords data.ranktable data.ranktablesize
  return cmphDumpHead mphf.algo mphf.size ++ bytes [BitVec.ofNat 32 buf.length] ++ buf ++
    bytes [BitVec.ofNat 32 data.n, BitVec.ofNat 32 data.m, BitVec.ofNat 32 data.r] ++ g ++
    bytes [BitVec.ofNat 32 data.k] ++ [data.b] ++ bytes [BitVec.ofNat 32 data.ranktablesize] ++
    ranktable

/-- `bdz_load` -/
def bdzLoad (f : Bytes) : Option (BdzData × Bytes) := do
  let (buflen, f) ← freadWord f
  let (buf, f) ← fread f buflen.toNat
  let hl ← hashStateLoad buf
  let (n, f) ← freadWord f
  let (m, f) ← freadWord f
  let (r, f) ← freadWord f
  let (g, f) ← fread f (sizeG n.toNat)
  let (k, f) ← freadWord f
  let (b, f) ← fread f 1
  let (ranktablesize, f) ← freadWord f
  let (ranktable, f) ← fread f (4 * ranktablesize.toNat)
  return ({
    m := m.toNat, n := n.toNat, r := r.toNat, g, hl, k := k.toNat, b := ← b[0]?
    ranktablesize := ranktablesize.toNat, ranktable := words ranktable }, f)

/-- `bdz_pack` -/
def bdzPack (data : BdzData) : Option Bytes := do
  let hl ← data.hl
  let ranktable ← copyWords data.ranktable data.ranktablesize
  let g ← memcpy data.g (sizeG data.n)
  return bytes [hl.hashfunc.toWord] ++ hashStatePack hl ++
    bytes [BitVec.ofNat 32 data.r, BitVec.ofNat 32 data.ranktablesize] ++ ranktable ++ [data.b] ++ g

/-- `bdz_packed_size` -/
def bdzPackedSize (data : BdzData) : Option Nat := do
  let hlType := (← data.hl).hashfunc
  return u32 ((4 + hashStatePackedSize hlType + 3 * 4 + 4 * data.ranktablesize + 1 +
    sizeG data.n : Nat))

/-- `bdz_search_packed` -/
def bdzSearchPacked (packed : Bytes) (key : Bytes) : Option Nat := do
  let hlType ← CmphHash.ofWord (← (words packed)[0]?)
  let hlPtr := packed.drop 4
  let ranktable := hlPtr.drop (hashStatePackedSize hlType)
  let r := (← (words ranktable)[0]?).toNat
  let ranktablesize := (← (words ranktable)[1]?).toNat
  let ranktable := ranktable.drop 8
  let g := ranktable.drop (4 * ranktablesize)
  let b ← g[0]?
  let g := g.drop 1
  bdzRank b (words ranktable) g (← bdzVertex r g (← hashVectorPacked hlPtr hlType key))

end PerfectHash.Cmph
