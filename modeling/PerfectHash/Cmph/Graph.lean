import PerfectHash.Cmph.Bitbool

/-! # Graphs (`graph.c`)

The half `e` of the edge `e` is in the linked list of its first vertex, and the half
`e + g->nedges` in that of its second vertex. `edges` has the other vertex of each half. -/

namespace PerfectHash.Cmph

/-- `EMPTY` and `GRAPH_NO_NEIGHBOR` -/
def empty : Nat := 0xffffffff

/-- `graph_t` -/
structure GraphT where
  nnodes : Nat
  nedges : Nat
  edges : List Nat
  first : List Nat
  next : List Nat
  criticalNodes : Bytes
  ncriticalNodes : Nat
  cedges : Nat
  shrinking : Bool

/-- `abs_edge(e, i)` -/
def absEdge (g : GraphT) (e i : Nat) : Nat := u32 ((e % g.nedges : Nat) + i * g.nedges)

/-! ## Edges -/

/-- `graph_clear_edges` -/
def graphClearEdges (g : GraphT) : GraphT :=
  { g with
    first := List.replicate g.nnodes empty
    edges := List.replicate (u32 (g.nedges * 2)) empty
    next := List.replicate (u32 (g.nedges * 2)) empty
    cedges := 0
    shrinking := false }

/-- `graph_new` -/
def graphNew (nnodes nedges : Nat) : GraphT :=
  graphClearEdges {
    nnodes, nedges, edges := [], first := [], next := [], criticalNodes := [], ncriticalNodes := 0
    cedges := 0, shrinking := false }

/-- `graph_add_edge` -/
def graphAddEdge (g : GraphT) (v1 v2 : Nat) : Option GraphT := do
  let e := g.cedges
  if v1 < g.nnodes ∧ v2 < g.nnodes ∧ e < g.nedges ∧ !g.shrinking then
    let next ← write g.next e (← g.first[v1]?)
    let first ← write g.first v1 e
    let edges ← write g.edges e v2
    let e' := u32 (e + g.nedges)
    let next ← write next e' (← first[v2]?)
    let first ← write first v2 e'
    let edges ← write edges e' v1
    return { g with next, first, edges, cedges := u32 (e + 1) }
  else none

/-- `check_edge` -/
def checkEdge (g : GraphT) (e v1 v2 : Nat) : Option Bool := do
  let a ← g.edges[absEdge g e 0]?
  let b ← g.edges[absEdge g e 1]?
  return a = v1 ∧ b = v2 ∨ a = v2 ∧ b = v1

/-- The loop of `graph_edge_id`, from an edge that was not checked yet. -/
def graphEdgeIdLoop (g : GraphT) (v1 v2 : Nat) : Nat → Nat → Option Nat
  | 0, _ => none
  | turns + 1, e => do
    if e = empty then none
    if ← checkEdge g e v1 v2 then return absEdge g e 0
    graphEdgeIdLoop g v1 v2 turns (← g.next[e]?)

/-- `graph_edge_id` -/
def graphEdgeId (g : GraphT) (v1 v2 : Nat) : Option Nat := do
  graphEdgeIdLoop g v1 v2 (2 * g.nedges + 1) (← g.first[v1]?)

/-- `graph_next_neighbor` of an iterator for `vertex` that is at an edge: the neighbor, and the edge
that it is at then -/
def graphNextNeighbor (g : GraphT) (vertex edge : Nat) : Option (Nat × Nat) := do
  if edge = empty then return (empty, edge)
  let other ← g.edges[edge]?
  let ret ← if other = vertex then g.edges[u32 (edge + g.nedges)]? else some other
  return (ret, ← g.next[edge]?)

/-! ## Cycles -/

/-- The loop of `find_degree1_edge`, which has found at most one edge so far. -/
def findDegree1Loop (g : GraphT) (deleted : Bytes) : Nat → Nat → Option Nat → Option (Option Nat)
  | 0, _, _ => none
  | turns + 1, edge, found => do
    let edge ← g.next[edge]?
    if edge = empty then return found
    if ← getBit deleted (absEdge g edge 0) then findDegree1Loop g deleted turns edge found
    else if found.isSome then return none
    else findDegree1Loop g deleted turns edge (some edge)

/-- `find_degree1_edge`: the edge `*e`, or nothing where it returns 0 -/
def findDegree1Edge (g : GraphT) (v : Nat) (deleted : Bytes) : Option (Option Nat) := do
  let edge ← g.first[v]?
  if edge = empty then return none
  let found := if ← getBit deleted (absEdge g edge 0) then none else some edge
  findDegree1Loop g deleted (2 * g.nedges + 1) edge found

/-- The loop of `cyclic_del_edge`. -/
def cyclicDelEdgeLoop (g : GraphT) : Nat → Nat → Nat → Bytes → Option Bytes
  | 0, _, _, _ => none
  | turns + 1, v1, e, deleted => do
    let deleted ← setBit deleted (absEdge g e 0)
    let v2 ← g.edges[absEdge g e 0]?
    let v2 ← if v2 = v1 then g.edges[absEdge g e 1]? else some v2
    match ← findDegree1Edge g v2 deleted with
    | some e => cyclicDelEdgeLoop g turns v2 e deleted
    | none => return deleted

/-- `cyclic_del_edge` -/
def cyclicDelEdge (g : GraphT) (v : Nat) (deleted : Bytes) : Option Bytes := do
  match ← findDegree1Edge g v deleted with
  | some e => cyclicDelEdgeLoop g (g.nedges + 1) v e deleted
  | none => return deleted

/-- The edges that `graph_is_cyclic` and `graph_obtain_critical_nodes` delete. -/
def cyclicDeleted (g : GraphT) : Option Bytes :=
  (List.range g.nnodes).foldlM (fun deleted v => cyclicDelEdge g v deleted)
    (List.replicate (g.nedges / 8 + 1) 0)

/-- `graph_is_cyclic` -/
def graphIsCyclic (g : GraphT) : Option Bool := do
  let deleted ← cyclicDeleted g
  (List.range g.nedges).anyM fun i => do return !(← getBit deleted i)

/-- A vertex of an edge that was not deleted is critical. -/
def addCriticalNode (g : GraphT) (v : Nat) : Option GraphT := do
  if ← getBit g.criticalNodes v then return g
  let criticalNodes ← setBit g.criticalNodes v
  return { g with criticalNodes, ncriticalNodes := u32 (g.ncriticalNodes + 1) }

/-- `graph_obtain_critical_nodes` -/
def graphObtainCriticalNodes (g : GraphT) : Option GraphT := do
  let deleted ← cyclicDeleted g
  let g := { g with criticalNodes := List.replicate (g.nnodes / 8 + 1) 0, ncriticalNodes := 0 }
  (List.range g.nedges).foldlM (fun g i => do
    if ← getBit deleted i then return g
    let g ← addCriticalNode g (← g.edges[i]?)
    addCriticalNode g (← g.edges[u32 (i + g.nedges)]?)) g

/-- `graph_node_is_critical` -/
def graphNodeIsCritical (g : GraphT) (v : Nat) : Option Bool := getBit g.criticalNodes v

end PerfectHash.Cmph
