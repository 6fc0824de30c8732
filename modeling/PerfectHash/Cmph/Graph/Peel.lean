import PerfectHash.Cmph.Graph.Stores
import PerfectHash.Lib.Peeling

/-! # Deleting edges of degree 1

`cyclic_del_edge` deletes the only edge of a vertex, and goes on at the other end. When it was called
for all vertices, the 2-core of the graph is left (`cyclicDeleted_spec`). -/

namespace PerfectHash.Cmph

open NextTable PerfectHashInt

variable {g : GraphT} {E : List (Nat × Nat)} {n h e v w turns edge : Nat} {deleted : Bytes}
  {order hs : List Nat} {found : Option Nat} {P : Set Nat}

/-! ## The table of flags -/

/-- The flags of the numbers in the list are set, and no others. -/
structure Flags (table : Bytes) (n : Nat) (l : List Nat) : Prop where
  length : table.length = n / 8 + 1
  bit : ∀ i < n, (byteBits table)[i]? = some (decide (i ∈ l))

namespace Flags

variable {table : Bytes} {i : Nat} {l : List Nat}

theorem start (n : Nat) : Flags (List.replicate (n / 8 + 1) 0) n [] where
  length := List.length_replicate
  bit i hi := by
    have hbits : byteBits (List.replicate (n / 8 + 1) 0) = List.replicate (8 * (n / 8 + 1)) false := by
      rw [byteBits, List.map_replicate]
      exact BitString.bits_replicate_zero _
    rw [hbits, List.getElem?_replicate, if_pos (by omega)]
    rfl

theorem getBit (h : Flags table n l) (hi : i < n) : getBit table i = some (decide (i ∈ l)) := by
  rw [getBit_eq, h.bit i hi]

theorem setBit (h : Flags table n l) (hi : i < n) :
    ∃ table', setBit table i = some table' ∧ Flags table' n (i :: l) := by
  have hlen := h.length
  obtain ⟨table', hset, hlen', hbits⟩ := setBit_spec (show i < 8 * table.length by omega)
  refine ⟨table', hset, hlen'.trans hlen, fun j hj => ?_⟩
  rw [hbits, List.getElem?_set, length_byteBits, if_pos (show i < 8 * table.length by omega)]
  by_cases hij : i = j
  · rw [if_pos hij, hij, decide_eq_true List.mem_cons_self]
  · rw [if_neg hij, h.bit j hj]
    simp [Ne.symm hij]

end Flags

/-! ## The halves of the edges -/

theorem absEdge_zero (hn : 2 * g.nedges < 2 ^ 32 - 1) (hpos : 0 < g.nedges) (h : Nat) :
    absEdge g h 0 = h % g.nedges := by
  have := Nat.mod_lt h hpos
  exact u32_of_eq (by omega) (by simp)

theorem absEdge_one (hn : 2 * g.nedges < 2 ^ 32 - 1) (hpos : 0 < g.nedges) (h : Nat) :
    absEdge g h 1 = h % g.nedges + g.nedges := by
  have := Nat.mod_lt h hpos
  exact u32_of_eq (by omega) (by push_cast; omega)

namespace GraphT.Stores

theorem isSimple (hg : g.Stores E) : IsSimple E g.nnodes := fun e he => by
  obtain ⟨hl, hr, hne⟩ := hg.ends e _ _ (getElem?_eq_ends he)
  exact ⟨hl, hr, hne⟩

variable (hg : g.Stores E) (hfull : E.length = g.nedges)

include hg hfull in
/-- The edge of a half at a vertex. -/
theorem inc_of_halfOf (hh : HalfOf E g.nedges h v) :
    (slotGraph E g.nnodes).Inc (h % g.nedges) v := by
  have hlt := hh.lt
  rcases hh with ⟨w, hw⟩ | ⟨hle, w, hw⟩
  · obtain ⟨hv, hw', -⟩ := hg.ends h v w hw
    have := (List.getElem?_eq_some_iff.mp hw).1
    rw [Nat.mod_eq_of_lt (by omega)]
    exact ⟨w, hv, hw', .inl hw⟩
  · obtain ⟨hw', hv, -⟩ := hg.ends (h - g.nedges) w v hw
    rw [Nat.mod_eq_sub_mod hle, Nat.mod_eq_of_lt (by omega)]
    exact ⟨w, hv, hw', .inr hw⟩

include hfull in
theorem exists_halfOf (hinc : (slotGraph E g.nnodes).Inc e v) :
    ∃ h, HalfOf E g.nedges h v ∧ h % g.nedges = e := by
  obtain ⟨w, -, -, hlink⟩ := hinc
  rcases hlink with hlink | hlink
  · have := (List.getElem?_eq_some_iff.mp hlink).1
    exact ⟨e, .inl ⟨w, hlink⟩, Nat.mod_eq_of_lt (by omega)⟩
  · have := (List.getElem?_eq_some_iff.mp hlink).1
    refine ⟨e + g.nedges, .inr ⟨by omega, w, ?_⟩, ?_⟩
    · rw [Nat.add_sub_cancel, hlink]
    · rw [Nat.add_mod_right, Nat.mod_eq_of_lt (by omega)]

include hg hfull in
/-- An edge has one half at each of its ends. -/
theorem halfOf_unique {h' : Nat} (hh : HalfOf E g.nedges h v) (hh' : HalfOf E g.nedges h' v)
    (heq : h % g.nedges = h' % g.nedges) : h = h' := by
  have hlow {h : Nat} {w : Nat} (hw : E[h]? = some (v, w)) : h < g.nedges ∧ h % g.nedges = h := by
    have := (List.getElem?_eq_some_iff.mp hw).1
    exact ⟨by omega, Nat.mod_eq_of_lt (by omega)⟩
  have hhigh {h : Nat} {w : Nat} (hle : g.nedges ≤ h) (hw : E[h - g.nedges]? = some (w, v)) :
      h % g.nedges = h - g.nedges := by
    have := (List.getElem?_eq_some_iff.mp hw).1
    rw [Nat.mod_eq_sub_mod hle, Nat.mod_eq_of_lt (by omega)]
  rcases hh with ⟨w, hw⟩ | ⟨hle, w, hw⟩ <;> rcases hh' with ⟨w', hw'⟩ | ⟨hle', w', hw'⟩
  · rwa [(hlow hw).2, (hlow hw').2] at heq
  · rw [(hlow hw).2, hhigh hle' hw'] at heq
    rw [← heq, hw] at hw'
    cases hw'
    exact absurd rfl (hg.ends h v v hw).2.2
  · rw [(hlow hw').2, hhigh hle hw] at heq
    rw [heq, hw'] at hw
    cases hw
    exact absurd rfl (hg.ends h' v v hw').2.2
  · rw [hhigh hle hw, hhigh hle' hw'] at heq
    omega

end GraphT.Stores

/-! ## `find_degree1_edge` -/

/-- The entry of a list with one entry. -/
def only : List Nat → Option Nat
  | [h] => some h
  | _ => none

theorem findDegree1Loop_spec (hlt : 2 * g.nedges < 2 ^ 32 - 1) (hpos : 0 < g.nedges)
    (hflags : Flags deleted g.nedges order) {i : Nat} (hnext : g.next[edge]? = some i)
    (hchain : Chain g.next empty i hs) (hturns : hs.length < turns) :
    findDegree1Loop g deleted turns edge found =
      some (only (found.toList ++ hs.filter fun h => h % g.nedges ∉ order)) := by
  induction hs generalizing turns edge i found with
  | nil =>
    cases hchain
    obtain ⟨turns, rfl⟩ := Nat.exists_eq_succ_of_ne_zero (by omega : turns ≠ 0)
    rw [findDegree1Loop, hnext, Option.bind_eq_bind, Option.bind_some, if_pos rfl]
    cases found <;> rfl
  | cons h hs ih =>
    cases hchain with
    | cons hne hnext' hchain =>
      rw [List.length_cons] at hturns
      obtain ⟨turns, rfl⟩ := Nat.exists_eq_succ_of_ne_zero (by omega : turns ≠ 0)
      rw [findDegree1Loop, hnext, Option.bind_eq_bind, Option.bind_some, if_neg hne,
        absEdge_zero hlt hpos, hflags.getBit (Nat.mod_lt _ hpos), Option.bind_eq_bind,
        Option.bind_some]
      by_cases hmem : h % g.nedges ∈ order
      · rw [if_pos (decide_eq_true hmem), ih hnext' hchain (by omega), List.filter_cons_of_neg]
        simpa using hmem
      · rw [if_neg (by simpa using hmem), List.filter_cons_of_pos (by simpa using hmem)]
        cases found with
        | none =>
          rw [if_neg (by decide), ih hnext' hchain (by omega)]
          rfl
        | some h' =>
          rw [if_pos Option.isSome_some]
          rfl

theorem findDegree1Edge_eq (hg : g.Stores E) (hpos : 0 < g.nedges)
    (hflags : Flags deleted g.nedges order) {i : Nat} (hfirst : g.first[v]? = some i)
    (hchain : Chain g.next empty i hs) (hnodup : hs.Nodup) :
    findDegree1Edge g v deleted = some (only (hs.filter fun h => h % g.nedges ∉ order)) := by
  have hlen := hchain.length_le hnodup
  rw [hg.length_next] at hlen
  rw [findDegree1Edge, hfirst, Option.bind_eq_bind, Option.bind_some]
  cases hchain with
  | nil => rw [if_pos rfl]; rfl
  | cons hne hnext hchain =>
    rename_i i' hs
    rw [List.length_cons] at hlen
    rw [if_neg hne, absEdge_zero hg.lt hpos, hflags.getBit (Nat.mod_lt _ hpos),
      Option.bind_eq_bind, Option.bind_some,
      findDegree1Loop_spec hg.lt hpos hflags hnext hchain (by omega)]
    by_cases hmem : i % g.nedges ∈ order
    · rw [List.filter_cons_of_neg (by simpa using hmem), if_pos (decide_eq_true hmem)]
      rfl
    · rw [List.filter_cons_of_pos (by simpa using hmem), if_neg (by simpa using hmem)]
      rfl

/-- What `find_degree1_edge` finds is the only edge of the vertex that is left. -/
theorem GraphT.Stores.findDegree1Edge (hg : g.Stores E) (hfull : E.length = g.nedges)
    (hpos : 0 < g.nedges) (hflags : Flags deleted g.nedges order) (hv : v < g.nnodes) :
    (∃ h, findDegree1Edge g v deleted = some (some h) ∧ HalfOf E g.nedges h v ∧
      h % g.nedges ∉ order ∧
      ∀ e ∉ order, (slotGraph E g.nnodes).Inc e v → e = h % g.nedges) ∨
    Cmph.findDegree1Edge g v deleted = some none ∧
      ∀ e ∉ order, (slotGraph E g.nnodes).Inc e v →
        ∃ e' ∉ order, e' ≠ e ∧ (slotGraph E g.nnodes).Inc e' v := by
  obtain ⟨i, hs, hfirst, hchain, hnodup, hmem⟩ := hg.chain v hv
  rw [findDegree1Edge_eq hg hpos hflags hfirst hchain hnodup]
  have hnodup' := hnodup.filter fun h => h % g.nedges ∉ order
  have hleft {h : Nat} : h ∈ hs.filter (fun h => h % g.nedges ∉ order) ↔
      HalfOf E g.nedges h v ∧ h % g.nedges ∉ order := by
    rw [List.mem_filter, hmem, decide_eq_true_iff]
  have hfind {e : Nat} (he : e ∉ order) (hinc : (slotGraph E g.nnodes).Inc e v) :
      ∃ h ∈ hs.filter (fun h => h % g.nedges ∉ order), h % g.nedges = e := by
    obtain ⟨h, hh, rfl⟩ := exists_halfOf hfull hinc
    exact ⟨h, hleft.mpr ⟨hh, he⟩, rfl⟩
  generalize hs.filter (fun h => h % g.nedges ∉ order) = left at hnodup' hleft hfind
  cases left with
  | nil =>
    refine .inr ⟨rfl, fun e he hinc => ?_⟩
    obtain ⟨h, hh, -⟩ := hfind he hinc
    exact absurd hh List.not_mem_nil
  | cons h left =>
    obtain ⟨hh, hnew⟩ := hleft.mp List.mem_cons_self
    cases left with
    | nil =>
      refine .inl ⟨h, rfl, hh, hnew, fun e he hinc => ?_⟩
      obtain ⟨h', hh', rfl⟩ := hfind he hinc
      rw [List.mem_singleton.mp hh']
    | cons h' left =>
      obtain ⟨hh', hnew'⟩ := hleft.mp (List.mem_cons_of_mem h List.mem_cons_self)
      have hne : h ≠ h' := fun heq => (List.nodup_cons.mp hnodup').1 (heq ▸ List.mem_cons_self)
      refine .inr ⟨rfl, fun e he hinc => ?_⟩
      by_cases heq : h % g.nedges = e
      · refine ⟨h' % g.nedges, hnew', fun heq' => hne ?_, hg.inc_of_halfOf hfull hh'⟩
        exact hg.halfOf_unique hfull hh hh' (heq.trans heq'.symm)
      · exact ⟨h % g.nedges, hnew, heq, hg.inc_of_halfOf hfull hh⟩

/-! ## `cyclic_del_edge` -/

/-- The other end of an edge is one of the two vertices that `edges` has for it. -/
theorem GraphT.Stores.otherEnd (hg : g.Stores E) (hfull : E.length = g.nedges)
    (hh : HalfOf E g.nedges h v) : ∃ w, (slotGraph E g.nnodes).IsLink (h % g.nedges) v w ∧
      (g.edges[h % g.nedges]? = some w ∧ w ≠ v ∨
        g.edges[h % g.nedges]? = some v ∧ g.edges[h % g.nedges + g.nedges]? = some w) := by
  obtain ⟨w, hlink⟩ := hg.inc_of_halfOf hfull hh
  refine ⟨w, hlink, ?_⟩
  obtain ⟨-, -, hends | hends⟩ := hlink
  · exact .inl ⟨(hg.edges _ _ _ hends).1, (hg.ends _ _ _ hends).2.2.symm⟩
  · exact .inr (hg.edges _ _ _ hends)

/-- The edges that were removed are some of the edges. -/
theorem length_le_of_peeled (hfull : E.length = g.nedges)
    (hpeeled : (slotGraph E g.nnodes).Peeled P order) : order.length ≤ g.nedges := by
  have hlt : ∀ e ∈ order, e ∈ List.range g.nedges := fun e he => by
    obtain ⟨v, w, -, -, hlink⟩ := Graph.exists_isLink_of_mem_edgeSet (hpeeled.edge_mem e he)
    rw [List.mem_range, ← hfull]
    rcases hlink with hlink | hlink <;> exact (List.getElem?_eq_some_iff.mp hlink).1
  have hle := (hpeeled.nodup.subperm hlt).length_le
  rwa [List.length_range] at hle

theorem cyclicDelEdgeLoop_spec (hg : g.Stores E) (hfull : E.length = g.nedges)
    (hpos : 0 < g.nedges) (hflags : Flags deleted g.nedges order)
    (hpeeled : (slotGraph E g.nnodes).Peeled {u | u ∈ P ∧ u ≠ v} order)
    (hh : HalfOf E g.nedges h v) (hnew : h % g.nedges ∉ order)
    (hleaf : ∀ e ∉ order, (slotGraph E g.nnodes).Inc e v → e = h % g.nedges)
    (hturns : g.nedges < turns + order.length) :
    ∃ deleted' order', cyclicDelEdgeLoop g turns v h deleted = some deleted' ∧
      Flags deleted' g.nedges order' ∧
      (slotGraph E g.nnodes).Peeled {u | u ∈ P ∨ u = v} order' := by
  induction turns generalizing v h deleted order P with
  | zero =>
    have := length_le_of_peeled hfull hpeeled
    omega
  | succ turns ih =>
    obtain ⟨w, hlink, hother⟩ := hg.otherEnd hfull hh
    obtain ⟨deleted', hset, hflags'⟩ := hflags.setBit (Nat.mod_lt h hpos)
    have hpeeled' := hpeeled.cons hlink hnew hleaf
    have hstep : cyclicDelEdgeLoop g (turns + 1) v h deleted =
        (findDegree1Edge g w deleted').bind fun next =>
          next.elim (some deleted') fun e => cyclicDelEdgeLoop g turns w e deleted' := by
      rw [cyclicDelEdgeLoop, absEdge_zero hg.lt hpos, absEdge_one hg.lt hpos, hset]
      rcases hfind : findDegree1Edge g w deleted' with _ | _ | e <;>
        rcases hother with ⟨hedge, hne⟩ | ⟨hedge, hedge'⟩
      all_goals simp [*]
    rw [hstep]
    rcases hg.findDegree1Edge hfull hpos hflags' hlink.right_mem with
      ⟨h', hfind, hh', hnew', hleaf'⟩ | ⟨hfind, hnone⟩
    · rw [hfind, Option.bind_some]
      obtain ⟨deleted'', order'', hloop, hflags'', hpeeled''⟩ :=
        ih hflags' hpeeled' hh' hnew' hleaf' (by rw [List.length_cons]; omega)
      exact ⟨deleted'', order'', hloop, hflags'', hpeeled''.mono fun u hu => .inl hu⟩
    · rw [hfind, Option.bind_some]
      exact ⟨deleted', _, rfl, hflags', (hpeeled'.pass hnone).mono fun u hu => .inl hu⟩

theorem cyclicDelEdge_spec (hg : g.Stores E) (hfull : E.length = g.nedges) (hpos : 0 < g.nedges)
    (hflags : Flags deleted g.nedges order) (hpeeled : (slotGraph E g.nnodes).Peeled P order)
    (hv : v < g.nnodes) :
    ∃ deleted' order', cyclicDelEdge g v deleted = some deleted' ∧
      Flags deleted' g.nedges order' ∧
      (slotGraph E g.nnodes).Peeled {u | u ∈ P ∨ u = v} order' := by
  have hpeeled' := hpeeled.mono fun u (hu : u ∈ {u | u ∈ P ∧ u ≠ v}) => hu.1
  rw [cyclicDelEdge]
  rcases hg.findDegree1Edge hfull hpos hflags hv with ⟨h, hfind, hh, hnew, hleaf⟩ | ⟨hfind, hnone⟩
  · rw [hfind, Option.bind_eq_bind, Option.bind_some]
    exact cyclicDelEdgeLoop_spec hg hfull hpos hflags hpeeled' hh hnew hleaf (by omega)
  · rw [hfind, Option.bind_eq_bind, Option.bind_some]
    exact ⟨deleted, order, rfl, hflags, hpeeled'.pass hnone⟩

/-- Without edges nothing is deleted. -/
theorem cyclicDelEdge_nil (hg : g.Stores []) (hv : v < g.nnodes) (deleted : Bytes) :
    cyclicDelEdge g v deleted = some deleted := by
  obtain ⟨i, hs, hfirst, hchain, -, hmem⟩ := hg.chain v hv
  have hhs : hs = [] := List.eq_nil_iff_forall_not_mem.mpr fun h hh => by
    rcases (hmem h).mp hh with ⟨w, hw⟩ | ⟨-, w, hw⟩ <;> cases hw
  subst hhs
  cases hchain
  rw [cyclicDelEdge, findDegree1Edge, hfirst]
  rfl

theorem cyclicDelEdges_spec (hg : g.Stores E) (hfull : E.length = g.nedges) {vs : List Nat}
    (hvs : ∀ v ∈ vs, v < g.nnodes) (hflags : Flags deleted g.nedges order)
    (hpeeled : (slotGraph E g.nnodes).Peeled P order) :
    ∃ deleted' order', vs.foldlM (fun deleted v => cyclicDelEdge g v deleted) deleted =
        some deleted' ∧ Flags deleted' g.nedges order' ∧
      (slotGraph E g.nnodes).Peeled {u | u ∈ P ∨ u ∈ vs} order' := by
  induction vs generalizing deleted order P with
  | nil =>
    exact ⟨deleted, order, rfl, hflags, hpeeled.mono fun u hu => hu.resolve_right List.not_mem_nil⟩
  | cons v vs ih =>
    obtain ⟨hv, hvs⟩ := List.forall_mem_cons.mp hvs
    have hstep : ∃ deleted' order', cyclicDelEdge g v deleted = some deleted' ∧
        Flags deleted' g.nedges order' ∧
        (slotGraph E g.nnodes).Peeled {u | u ∈ P ∨ u = v} order' := by
      by_cases hpos : 0 < g.nedges
      · exact cyclicDelEdge_spec hg hfull hpos hflags hpeeled hv
      · obtain rfl := List.eq_nil_of_length_eq_zero (show E.length = 0 by omega)
        refine ⟨deleted, order, cyclicDelEdge_nil hg hv deleted, hflags, { hpeeled with
          passed := fun u _ e _ hinc => ?_ }⟩
        obtain ⟨w, -, -, hlink | hlink⟩ := hinc <;> cases hlink
    obtain ⟨deleted', order', hdel, hflags', hpeeled'⟩ := hstep
    obtain ⟨deleted'', order'', hrun, hflags'', hpeeled''⟩ := ih hvs hflags' hpeeled'
    refine ⟨deleted'', order'', ?_, hflags'', hpeeled''.mono fun u hu => ?_⟩
    · rw [List.foldlM_cons, hdel, Option.bind_eq_bind, Option.bind_some, hrun]
    · rcases hu with hu | hu
      · exact .inl (.inl hu)
      · exact (List.mem_cons.mp hu).elim (fun h => .inl (.inr h)) .inr

/-- When `cyclic_del_edge` was called for all vertices, no vertex has degree 1. -/
theorem cyclicDeleted_spec (hg : g.Stores E) (hfull : E.length = g.nedges) :
    ∃ deleted order, cyclicDeleted g = some deleted ∧ Flags deleted g.nedges order ∧
      (slotGraph E g.nnodes).Peeled (slotGraph E g.nnodes).vertexSet order := by
  obtain ⟨deleted, order, hdel, hflags, hpeeled⟩ := cyclicDelEdges_spec hg hfull
    (fun v hv => List.mem_range.mp hv) (.start g.nedges) (.start _)
  exact ⟨deleted, order, hdel, hflags, hpeeled.mono fun v hv => .inr (List.mem_range.mpr hv)⟩

/-! ## Cycles -/

theorem mem_edgeSet_slotGraph (hg : g.Stores E) (hfull : E.length = g.nedges) :
    e ∈ (slotGraph E g.nnodes).edgeSet ↔ e < g.nedges := by
  constructor
  · intro he
    obtain ⟨v, w, -, -, hlink | hlink⟩ := Graph.exists_isLink_of_mem_edgeSet he <;>
      exact hfull ▸ (List.getElem?_eq_some_iff.mp hlink).1
  · intro he
    exact ((inc_slotGraph hg.isSimple).mpr ⟨hfull ▸ he, .inl rfl⟩).edge_mem

theorem anyM_getBit {is : List Nat} (hflags : Flags deleted n order) (his : ∀ i ∈ is, i < n) :
    is.anyM (fun i => do return !(← getBit deleted i)) = some (is.any fun i => decide (i ∉ order)) := by
  induction is with
  | nil => rfl
  | cons i is ih =>
    obtain ⟨hi, his⟩ := List.forall_mem_cons.mp his
    rw [List.anyM, hflags.getBit hi, ih his]
    by_cases hmem : i ∈ order <;> simp [hmem]

/-- `graph_is_cyclic` decides whether there is a cycle. -/
theorem GraphT.Stores.isCyclic (hg : g.Stores E) (hfull : E.length = g.nedges) :
    ∃ cyclic, graphIsCyclic g = some cyclic ∧
      (cyclic = true ↔ (slotGraph E g.nnodes).HasCycle) := by
  obtain ⟨deleted, order, hdel, hflags, hpeeled⟩ := cyclicDeleted_spec hg hfull
  refine ⟨(List.range g.nedges).any fun i => decide (i ∉ order), ?_, ?_⟩
  · rw [graphIsCyclic, hdel, Option.bind_eq_bind, Option.bind_some]
    exact anyM_getBit hflags fun i hi => List.mem_range.mp hi
  · have hiff := hpeeled.forall_mem_iff (Set.finite_lt_nat g.nnodes)
      (not_isLoopAt_slotGraph hg.isSimple)
    rw [← not_iff_not, ← hiff, Bool.not_eq_true, List.any_eq_false]
    simp only [List.mem_range, decide_eq_true_iff, not_not, mem_edgeSet_slotGraph hg hfull]

/-! ## Critical nodes -/

/-- The critical nodes that were added. -/
structure GraphT.Critical (g : GraphT) (nodes : List Nat) : Prop where
  flags : Flags g.criticalNodes g.nnodes nodes
  nodup : nodes.Nodup
  ncriticalNodes : g.ncriticalNodes = nodes.length
  lt : ∀ v ∈ nodes, v < g.nnodes
  nnodes_lt : g.nnodes < 2 ^ 32

theorem GraphT.Critical.add {nodes : List Nat} (hcrit : g.Critical nodes) (hv : v < g.nnodes) :
    ∃ table n nodes', addCriticalNode g v =
        some { g with criticalNodes := table, ncriticalNodes := n } ∧
      GraphT.Critical { g with criticalNodes := table, ncriticalNodes := n } nodes' ∧
      ∀ u, u ∈ nodes' ↔ u ∈ nodes ∨ u = v := by
  rw [addCriticalNode, hcrit.flags.getBit hv, Option.bind_eq_bind, Option.bind_some]
  by_cases hmem : v ∈ nodes
  · rw [if_pos (decide_eq_true hmem)]
    refine ⟨_, _, nodes, rfl, hcrit, fun u => (or_iff_left_of_imp ?_).symm⟩
    rintro rfl
    exact hmem
  · obtain ⟨table, hset, hflags⟩ := hcrit.flags.setBit hv
    have hnodup := List.nodup_cons.mpr ⟨hmem, hcrit.nodup⟩
    have hlt : ∀ u ∈ v :: nodes, u < g.nnodes := List.forall_mem_cons.mpr ⟨hv, hcrit.lt⟩
    have hle := (hnodup.subperm fun u hu => List.mem_range.mpr (hlt u hu)).length_le
    have hbound := hcrit.nnodes_lt
    rw [List.length_range, List.length_cons] at hle
    have hsucc : u32 ((g.ncriticalNodes : Int) + 1) = (v :: nodes).length := by
      rw [hcrit.ncriticalNodes, List.length_cons]
      exact u32_of_eq (by omega) (by push_cast; rfl)
    rw [if_neg (by simpa using hmem), hset, Option.bind_eq_bind, Option.bind_some, hsucc]
    exact ⟨_, _, _, rfl, ⟨hflags, hnodup, rfl, hlt, hbound⟩, fun u => by
      rw [List.mem_cons]
      exact or_comm⟩

/-- The two vertices of each edge that is left are added. -/
theorem addCriticalNodes_spec (hg : g.Stores E) (hfull : E.length = g.nedges)
    (hflags : Flags deleted g.nedges order) {is nodes : List Nat} {table : Bytes}
    (his : ∀ i ∈ is, i < g.nedges)
    (hcrit : GraphT.Critical { g with criticalNodes := table, ncriticalNodes := n } nodes) :
    ∃ table' n' nodes', is.foldlM (fun g i => do
        if ← getBit deleted i then return g
        let g ← addCriticalNode g (← g.edges[i]?)
        addCriticalNode g (← g.edges[u32 (i + g.nedges)]?))
        { g with criticalNodes := table, ncriticalNodes := n } =
        some { g with criticalNodes := table', ncriticalNodes := n' } ∧
      GraphT.Critical { g with criticalNodes := table', ncriticalNodes := n' } nodes' ∧
      ∀ u, u ∈ nodes' ↔ u ∈ nodes ∨
        ∃ i ∈ is, i ∉ order ∧ (slotGraph E g.nnodes).Inc i u := by
  induction is generalizing table n nodes with
  | nil =>
    exact ⟨table, n, nodes, rfl, hcrit, fun u => by simp⟩
  | cons i is ih =>
    obtain ⟨hi, his⟩ := List.forall_mem_cons.mp his
    rw [List.foldlM_cons, hflags.getBit hi]
    simp only [Option.bind_eq_bind, Option.bind_some]
    by_cases hmem : i ∈ order
    · rw [if_pos (decide_eq_true hmem)]
      obtain ⟨table', n', nodes', hrun, hcrit', hnodes'⟩ := ih his hcrit
      refine ⟨table', n', nodes', hrun, hcrit', fun u => (hnodes' u).trans ?_⟩
      simp only [List.mem_cons, exists_eq_or_imp, hmem, not_true, false_and, false_or]
    · rw [if_neg (by simpa using hmem)]
      have hlt := hg.lt
      have hends := getElem?_eq_ends (E := E) (e := i) (by omega)
      obtain ⟨hl, hr, -⟩ := hg.ends _ _ _ hends
      obtain ⟨hright, hleft⟩ := hg.edges _ _ _ hends
      obtain ⟨table₁, n₁, nodes₁, hadd₁, hcrit₁, hnodes₁⟩ := hcrit.add hr
      obtain ⟨table₂, n₂, nodes₂, hadd₂, hcrit₂, hnodes₂⟩ := hcrit₁.add hl
      obtain ⟨table', n', nodes', hrun, hcrit', hnodes'⟩ := ih his hcrit₂
      have hhalf : u32 ((i : Int) + g.nedges) = i + g.nedges :=
        u32_of_eq (by omega) (by push_cast; rfl)
      refine ⟨table', n', nodes', ?_, hcrit', fun u => (hnodes' u).trans ?_⟩
      · rw [hright, Option.bind_some, hadd₁, Option.bind_some]
        dsimp only
        rw [hhalf, hleft, Option.bind_some, hadd₂, Option.bind_some]
        exact hrun
      · rw [hnodes₂, hnodes₁]
        simp only [List.mem_cons, exists_eq_or_imp, hmem, not_false_iff, true_and,
          inc_slotGraph hg.isSimple, hfull, hi]
        rw [or_assoc, or_assoc, ← or_assoc (a := u = right E i), or_comm (a := u = right E i),
          eq_comm (a := u), eq_comm (a := u)]

/-- `graph_obtain_critical_nodes` marks the vertices of the 2-core, and counts them. -/
theorem GraphT.Stores.obtainCriticalNodes (hg : g.Stores E) (hfull : E.length = g.nedges)
    (hlt : g.nnodes < 2 ^ 32) :
    ∃ g', graphObtainCriticalNodes g = some g' ∧
      (∀ v < g.nnodes, ∃ critical, graphNodeIsCritical g' v = some critical ∧
        (critical = true ↔ ∃ e, (slotGraph E g.nnodes).Core e ∧ (slotGraph E g.nnodes).Inc e v)) ∧
      g'.ncriticalNodes =
        ((List.range g.nnodes).filter fun v => graphNodeIsCritical g' v = some true).length := by
  obtain ⟨deleted, order, hdel, hflags, hpeeled⟩ := cyclicDeleted_spec hg hfull
  have hrange : ∀ i ∈ List.range g.nedges, i < g.nedges := fun i hi => List.mem_range.mp hi
  have hstart : GraphT.Critical
      { g with criticalNodes := List.replicate (g.nnodes / 8 + 1) 0, ncriticalNodes := 0 } [] :=
    ⟨.start g.nnodes, List.nodup_nil, rfl, fun v hv => absurd hv List.not_mem_nil, hlt⟩
  obtain ⟨table, n, nodes, hrun, hcrit, hnodes⟩ :=
    addCriticalNodes_spec hg hfull hflags hrange hstart
  have hbit {v : Nat} (hv : v < g.nnodes) : graphNodeIsCritical
      { g with criticalNodes := table, ncriticalNodes := n } v = some (decide (v ∈ nodes)) :=
    hcrit.flags.getBit hv
  refine ⟨_, ?_, fun v hv => ⟨_, hbit hv, ?_⟩, ?_⟩
  · rw [graphObtainCriticalNodes, hdel, Option.bind_eq_bind, Option.bind_some]
    exact hrun
  · rw [decide_eq_true_iff, hnodes]
    constructor
    · rintro (h | ⟨e, -, hleft, hinc⟩)
      · exact absurd h List.not_mem_nil
      · exact ⟨e, (hpeeled.notMem_iff hinc.edge_mem).mp hleft, hinc⟩
    · rintro ⟨e, hcore, hinc⟩
      refine .inr ⟨e, ?_, (hpeeled.notMem_iff hinc.edge_mem).mpr hcore, hinc⟩
      exact List.mem_range.mpr ((mem_edgeSet_slotGraph hg hfull).mp hinc.edge_mem)
  · refine hcrit.ncriticalNodes.trans (List.Perm.length_eq ?_)
    refine (List.perm_ext_iff_of_nodup hcrit.nodup (List.nodup_range.filter _)).mpr fun v => ?_
    rw [List.mem_filter, List.mem_range, decide_eq_true_iff]
    constructor
    · intro hv
      have hv' := hcrit.lt v hv
      exact ⟨hv', (hbit hv').trans (congrArg some (decide_eq_true hv))⟩
    · rintro ⟨hv, hcritical⟩
      rw [hbit hv] at hcritical
      exact of_decide_eq_true (Option.some.inj hcritical)

/-! ## The graph of a list of edges -/

/-- When the edges between different vertices were added, `graph_is_cyclic` decides whether there is
a cycle. Two parallel edges are one. -/
theorem graphIsCyclic_iff_hasCycle {nnodes : Nat} (hlt : 2 * E.length < 2 ^ 32 - 1)
    (hE : ∀ p ∈ E, p.1 < nnodes ∧ p.2 < nnodes ∧ p.1 ≠ p.2) :
    ∃ g cyclic, E.foldlM (fun g p => graphAddEdge g p.1 p.2) (graphNew nnodes E.length) = some g ∧
      graphIsCyclic g = some cyclic ∧ (cyclic = true ↔ (slotGraph E nnodes).HasCycle) := by
  obtain ⟨g, hadd, hg, rfl, hm⟩ := graphAddEdges_stores hlt hE (Nat.le_refl _)
  obtain ⟨cyclic, hcyclic, hiff⟩ := hg.isCyclic hm.symm
  exact ⟨g, cyclic, hadd, hcyclic, hiff⟩

theorem graphIsCyclic_iff_hasCycle_parallel : ∃ g cyclic,
    [(0, 1), (2, 1), (1, 2)].foldlM (fun g p => graphAddEdge g p.1 p.2) (graphNew 3 3) = some g ∧
      graphIsCyclic g = some cyclic ∧
        (cyclic = true ↔ (slotGraph [(0, 1), (2, 1), (1, 2)] 3).HasCycle) :=
  @graphIsCyclic_iff_hasCycle [(0, 1), (2, 1), (1, 2)] 3 (by decide) (by decide)

/-- `graph_obtain_critical_nodes` finds the vertices of the 2-core, and how many there are. -/
theorem graphObtainCriticalNodes_iff_core {nnodes : Nat} (hlt : 2 * E.length < 2 ^ 32 - 1)
    (hnodes : nnodes < 2 ^ 32) (hE : ∀ p ∈ E, p.1 < nnodes ∧ p.2 < nnodes ∧ p.1 ≠ p.2) :
    ∃ g g', E.foldlM (fun g p => graphAddEdge g p.1 p.2) (graphNew nnodes E.length) = some g ∧
      graphObtainCriticalNodes g = some g' ∧
      (∀ v < nnodes, ∃ critical, graphNodeIsCritical g' v = some critical ∧
        (critical = true ↔ ∃ e, (slotGraph E nnodes).Core e ∧ (slotGraph E nnodes).Inc e v)) ∧
      g'.ncriticalNodes =
        ((List.range nnodes).filter fun v => graphNodeIsCritical g' v = some true).length := by
  obtain ⟨g, hadd, hg, rfl, hm⟩ := graphAddEdges_stores hlt hE (Nat.le_refl _)
  obtain ⟨g', hobtain, hcritical, hcount⟩ := hg.obtainCriticalNodes hm.symm hnodes
  exact ⟨g, g', hadd, hobtain, hcritical, hcount⟩

theorem graphObtainCriticalNodes_iff_core_parallel : ∃ g g',
    [(0, 1), (2, 1), (1, 2)].foldlM (fun g p => graphAddEdge g p.1 p.2) (graphNew 3 3) = some g ∧
      graphObtainCriticalNodes g = some g' ∧
      (∀ v < 3, ∃ critical, graphNodeIsCritical g' v = some critical ∧
        (critical = true ↔ ∃ e, (slotGraph [(0, 1), (2, 1), (1, 2)] 3).Core e ∧
          (slotGraph [(0, 1), (2, 1), (1, 2)] 3).Inc e v)) ∧
      g'.ncriticalNodes =
        ((List.range 3).filter fun v => graphNodeIsCritical g' v = some true).length :=
  @graphObtainCriticalNodes_iff_core [(0, 1), (2, 1), (1, 2)] 3 (by decide) (by decide)
    (by decide)

end PerfectHash.Cmph
