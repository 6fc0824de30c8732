import PerfectHash.Cmph.Chm
import PerfectHash.Cmph.Graph.Neighbors
import PerfectHash.Lib.SpanningForest

/-! # The assignment step of CHM

The searches of `chm_traverse` go along edges whose two values add up to their number
(`SetEdges`). Without cycles these are all edges in the end (`chmAssign_values`). -/

namespace PerfectHash.Cmph

open NextTable PerfectHashInt

variable {graph : GraphT} {E : List (Nat × Nat)} {n r v turns edge : Nat} {V V' V'' hs : List Nat}
  {D : Set Nat} {g g' g'' : List (BitVec 32)} {visited : Bytes}

/-- The edges between visited vertices whose two values add up to their number. -/
def SetEdges (E : List (Nat × Nat)) (n : Nat) (g : List (BitVec 32)) (V : List Nat) : Set Nat :=
  {e | ∃ x ∈ V, ∃ y ∈ V, (slotGraph E n).IsLink e x y ∧
    ∃ a b, g[x]? = some a ∧ g[y]? = some b ∧ a + b = BitVec.ofNat 32 e}

/-- More vertices were visited, and the values of those before are the same. -/
structure Extends (g : List (BitVec 32)) (V : List Nat) (g' : List (BitVec 32)) (V' : List Nat) :
    Prop where
  subset : V ⊆ V'
  value : ∀ v ∈ V, g'[v]? = g[v]?

theorem Extends.refl (g : List (BitVec 32)) (V : List Nat) : Extends g V g V :=
  ⟨List.Subset.refl V, fun _ _ => rfl⟩

theorem Extends.trans (h : Extends g V g' V') (h' : Extends g' V' g'' V'') : Extends g V g'' V'' :=
  ⟨List.Subset.trans h.subset h'.subset, fun v hv => (h'.value v (h.subset hv)).trans (h.value v hv)⟩

theorem Extends.set (hv : v ∉ V) (x : BitVec 32) : Extends g V (g.set v x) (v :: V) :=
  ⟨List.subset_cons_self v V, fun _ hu => List.getElem?_set_ne (ne_of_mem_of_not_mem hu hv).symm⟩

theorem Extends.setEdges_subset (h : Extends g V g' V') : SetEdges E n g V ⊆ SetEdges E n g' V' := by
  rintro e ⟨x, hx, y, hy, hlink, a, b, ha, hb, hsum⟩
  exact ⟨x, h.subset hx, y, h.subset hy, hlink, a, b, (h.value x hx).trans ha,
    (h.value y hy).trans hb, hsum⟩

theorem setOf_mem_cons (v : Nat) (V : List Nat) : {u | u ∈ v :: V} = insert v {u | u ∈ V} :=
  Set.ext fun _ => List.mem_cons

/-- The tables when some vertices were visited. -/
structure Visiting (n : Nat) (g : List (BitVec 32)) (visited : Bytes) (V : List Nat) : Prop where
  flags : Flags visited n V
  nodup : V.Nodup
  lt : ∀ v ∈ V, v < n
  length : g.length = n

theorem Visiting.length_le (h : Visiting n g visited V) : V.length ≤ n := by
  have hle := (h.nodup.subperm fun v hv => List.mem_range.mpr (h.lt v hv)).length_le
  rwa [List.length_range] at hle

theorem Visiting.length_mono {visited' : Bytes} (h : Visiting n g visited V)
    (h' : Extends g V g' V') (hV' : Visiting n g' visited' V') : V.length ≤ V'.length ∧ V'.length ≤ n :=
  ⟨(h.nodup.subperm h'.subset).length_le, hV'.length_le⟩

/-- A vertex is visited, after its value was set. -/
theorem Visiting.visit (h : Visiting n g visited V) (hv : v < n) (hnew : v ∉ V) (x : BitVec 32) :
    ∃ visited', setBit visited v = some visited' ∧ Visiting n (g.set v x) visited' (v :: V) := by
  obtain ⟨visited', hset, hflags⟩ := h.flags.setBit hv
  exact ⟨visited', hset, hflags, List.nodup_cons.mpr ⟨hnew, h.nodup⟩,
    List.forall_mem_cons.mpr ⟨hv, h.lt⟩, List.length_set.trans h.length⟩

theorem chmTraverse_eq {i : Nat} {visited' : Bytes} (hfirst : graph.first[v]? = some i)
    (hset : setBit visited v = some visited') :
    chmTraverse graph (turns + 1) v g visited = chmTraverseLoop graph turns v i g visited' := by
  rw [chmTraverse, hfirst, Option.bind_eq_bind, Option.bind_some, hset]
  rfl

variable (hg : graph.Stores E) (hfull : E.length = graph.nedges) (hn : graph.nnodes < 2 ^ 32)

include hg hfull hn in
/-- Visiting the neighbors that are left: afterwards no edge leads from a new vertex out of what was
visited. -/
theorem chmTraverseLoop_spec (hV : Visiting graph.nnodes g visited V)
    (hgrown : (slotGraph E graph.nnodes).Grown (SetEdges E graph.nnodes g V) D r {u | u ∈ V})
    (hv : v ∈ V) (hvD : v ∉ D) (hchain : Chain graph.next empty edge hs)
    (hhs : ∀ h ∈ hs, HalfOf E graph.nedges h v)
    (hturns : (graph.nnodes - V.length) * (2 * graph.nedges + 2) + hs.length < turns) :
    ∃ g' visited' V', chmTraverseLoop graph turns v edge g visited = some (g', visited') ∧
      Visiting graph.nnodes g' visited' V' ∧ Extends g V g' V' ∧
      (slotGraph E graph.nnodes).Grown (SetEdges E graph.nnodes g' V') D r {u | u ∈ V'} ∧
      (∀ h ∈ hs, ∀ w, (slotGraph E graph.nnodes).IsLink (h % graph.nedges) v w → w ∈ V') ∧
      ∀ e x y, (slotGraph E graph.nnodes).IsLink e x y → x ∈ V' → x ∉ V → y ∈ V' := by
  induction turns using Nat.strong_induction_on generalizing v edge g visited V hs with
  | _ turns ih =>
    obtain ⟨turns, rfl⟩ := Nat.exists_eq_succ_of_ne_zero (by omega : turns ≠ 0)
    cases hchain with
    | nil =>
      refine ⟨g, visited, V, ?_, hV, .refl g V, hgrown, fun h hh => absurd hh List.not_mem_nil,
        fun e x y _ hx hnew => absurd hx hnew⟩
      rw [chmTraverseLoop, graphNextNeighbor, if_pos rfl]
      rfl
    | cons hne hnext hchain =>
      rename_i i hs
      rw [List.length_cons] at hturns
      obtain ⟨hh, hhs⟩ := List.forall_mem_cons.mp hhs
      obtain ⟨w, hneighbor, hlink⟩ := hg.nextNeighbor hfull hh hne hnext
      have hw : w < graph.nnodes := hlink.right_mem
      have hwne : w ≠ empty := by
        have : empty = 2 ^ 32 - 1 := rfl
        omega
      simp only [chmTraverseLoop, hneighbor, hwne, if_false, hV.flags.getBit hw,
        Option.bind_eq_bind, Option.bind_some]
      by_cases hmem : w ∈ V
      · rw [if_pos (decide_eq_true hmem)]
        obtain ⟨g', visited', V', hrun, hV', hext, hgrown', hends, hclosed⟩ :=
          ih turns (by omega) hV hgrown hv hvD hchain hhs (by omega)
        refine ⟨g', visited', V', hrun, hV', hext, hgrown', List.forall_mem_cons.mpr
          ⟨fun u hu => ?_, hends⟩, hclosed⟩
        rw [hu.right_unique hlink]
        exact hext.subset hmem
      · rw [if_neg (by simpa using hmem)]
        -- the edge that is found gets its value
        obtain ⟨e, hid, hlink'⟩ := hg.edgeId hfull hlink
        have hvn := hV.lt v hv
        have hlen := hV.length
        obtain ⟨visited₁, hset, hV₁⟩ := hV.visit hw hmem (BitVec.ofNat 32 e - g[v])
        have hext₁ : Extends g V (g.set w (BitVec.ofNat 32 e - g[v])) (w :: V) := .set hmem _
        have hmemE : e ∈ SetEdges E graph.nnodes (g.set w (BitVec.ofNat 32 e - g[v])) (w :: V) :=
          ⟨v, List.mem_cons_of_mem w hv, w, List.mem_cons_self, hlink', g[v], _,
            (hext₁.value v hv).trans (List.getElem?_eq_getElem _),
            List.getElem?_set_self (by omega), by rw [BitVec.add_comm, BitVec.sub_add_cancel]⟩
        have hgrown₁ := hgrown.insert hext₁.setEdges_subset hv hvD hmemE hlink'
        rw [← setOf_mem_cons] at hgrown₁
        rw [hid, Option.bind_some, List.getElem?_eq_getElem (by omega), Option.bind_some,
          write_of_lt (by omega), Option.bind_some]
        -- the neighbor is traversed
        obtain ⟨i', hs', hfirst, hchain', hnodup', hmem'⟩ := hg.chain w hw
        have hle' := hchain'.length_le hnodup'
        rw [hg.length_next] at hle'
        have hlt := hV₁.length_le
        rw [List.length_cons] at hlt
        obtain ⟨u, hu⟩ : ∃ u, graph.nnodes - V.length = u + 1 := ⟨graph.nnodes - V.length - 1, by omega⟩
        rw [hu, Nat.succ_mul] at hturns
        obtain ⟨turns, rfl⟩ := Nat.exists_eq_succ_of_ne_zero (by omega : turns ≠ 0)
        rw [chmTraverse_eq hfirst hset]
        obtain ⟨g₂, visited₂, V₂, hrun₂, hV₂, hext₂, hgrown₂, hends₂, hclosed₂⟩ :=
          ih turns (by omega) hV₁ hgrown₁ List.mem_cons_self (fun hD => hmem (hgrown.subset hD)) hchain'
            (fun h hh => (hmem' h).mp hh)
            (by rw [List.length_cons, show graph.nnodes - (V.length + 1) = u by omega]; omega)
        rw [hrun₂, Option.bind_some]
        dsimp only
        -- and then the neighbors that are left
        have hext := hext₁.trans hext₂
        obtain ⟨hle₂, hle₂'⟩ := hV.length_mono hext hV₂
        have hmul : (graph.nnodes - V₂.length) * (2 * graph.nedges + 2) ≤
            (u + 1) * (2 * graph.nedges + 2) := Nat.mul_le_mul_right _ (by omega)
        rw [Nat.succ_mul u] at hmul
        obtain ⟨g₃, visited₃, V₃, hrun₃, hV₃, hext₃, hgrown₃, hends₃, hclosed₃⟩ :=
          ih (turns + 1) (by omega) hV₂ hgrown₂ (hext.subset hv) hvD hchain hhs (by omega)
        refine ⟨g₃, visited₃, V₃, hrun₃, hV₃, hext.trans hext₃, hgrown₃,
          List.forall_mem_cons.mpr ⟨fun u hu => ?_, hends₃⟩, fun e x y hxy hx hnew => ?_⟩
        · rw [hu.right_unique hlink]
          exact hext₃.subset (hext₂.subset List.mem_cons_self)
        · by_cases hx₂ : x ∈ V₂
          · refine hext₃.subset ?_
            by_cases hxw : x = w
            · subst hxw
              obtain ⟨h, hh, rfl⟩ := GraphT.Stores.exists_halfOf hfull hxy.inc_left
              exact hends₂ h ((hmem' h).mpr hh) y hxy
            · exact hclosed₂ e x y hxy hx₂ (List.not_mem_cons_of_ne_of_not_mem hxw hnew)
          · exact hclosed₃ e x y hxy hx hx₂

include hg hfull hn in
/-- A traversal from a new vertex. -/
theorem chmTraverse_spec (hV : Visiting graph.nnodes g visited V)
    (hexplored : (slotGraph E graph.nnodes).Explored (SetEdges E graph.nnodes g V) {u | u ∈ V})
    (hr : r < graph.nnodes) (hnew : r ∉ V) :
    ∃ g' visited' V', chmTraverse graph (chmTurns graph) r (g.set r 0) visited =
        some (g', visited') ∧
      Visiting graph.nnodes g' visited' V' ∧ V ⊆ V' ∧ r ∈ V' ∧
      (slotGraph E graph.nnodes).Explored (SetEdges E graph.nnodes g' V') {u | u ∈ V'} := by
  obtain ⟨visited₁, hset, hV₁⟩ := hV.visit hr hnew 0
  have hext₁ : Extends g V (g.set r 0) (r :: V) := .set hnew 0
  have hgrown₁ := Graph.Grown.start (G := slotGraph E graph.nnodes)
    (SetEdges E graph.nnodes (g.set r 0) (r :: V)) {u | u ∈ V} r
  rw [← setOf_mem_cons] at hgrown₁
  obtain ⟨i, hs, hfirst, hchain, hnodup, hmem⟩ := hg.chain r hr
  have hle := hchain.length_le hnodup
  rw [hg.length_next] at hle
  have hmul : (graph.nnodes - (r :: V).length) * (2 * graph.nedges + 2) ≤
      graph.nnodes * (2 * graph.nedges + 2) := Nat.mul_le_mul_right _ (by omega)
  obtain ⟨turns, hturns⟩ : ∃ turns, chmTurns graph = turns + 1 := ⟨chmTurns graph - 1, by
    rw [chmTurns, Nat.succ_mul]
    omega⟩
  have hturns' : (graph.nnodes - (r :: V).length) * (2 * graph.nedges + 2) + hs.length < turns := by
    rw [chmTurns, Nat.succ_mul] at hturns
    omega
  obtain ⟨g', visited', V', hrun, hV', hext, hgrown, hends, hclosed⟩ :=
    chmTraverseLoop_spec hg hfull hn hV₁ hgrown₁ List.mem_cons_self hnew hchain
      (fun h hh => (hmem h).mp hh) hturns'
  have hext' := hext₁.trans hext
  refine ⟨g', visited', V', ?_, hV', hext'.subset, hext.subset List.mem_cons_self,
    hgrown.explored hexplored hext'.setEdges_subset fun e u w hlink hu huV => ?_⟩
  · rw [hturns, chmTraverse_eq hfirst hset, hrun]
  · by_cases hur : u = r
    · subst hur
      obtain ⟨h, hh, rfl⟩ := GraphT.Stores.exists_halfOf hfull hlink.inc_left
      exact hends h ((hmem h).mpr hh) w hlink
    · exact hclosed e u w hlink hu (List.not_mem_cons_of_ne_of_not_mem hur huV)

include hg hfull hn in
/-- The loop of the assignment step. -/
theorem chmAssign_spec {vs : List Nat} (hvs : ∀ v ∈ vs, v < graph.nnodes)
    (hV : Visiting graph.nnodes g visited V)
    (hexplored : (slotGraph E graph.nnodes).Explored (SetEdges E graph.nnodes g V) {u | u ∈ V}) :
    ∃ g' visited' V', chmAssign graph vs g visited = some (g', visited') ∧
      Visiting graph.nnodes g' visited' V' ∧ V ⊆ V' ∧ vs ⊆ V' ∧
      (slotGraph E graph.nnodes).Explored (SetEdges E graph.nnodes g' V') {u | u ∈ V'} := by
  induction vs generalizing g visited V with
  | nil =>
    exact ⟨g, visited, V, rfl, hV, List.Subset.refl V, List.nil_subset V, hexplored⟩
  | cons r vs ih =>
    obtain ⟨hr, hvs⟩ := List.forall_mem_cons.mp hvs
    simp only [chmAssign, List.foldlM_cons, hV.flags.getBit hr, Option.bind_eq_bind,
      Option.bind_some]
    by_cases hmem : r ∈ V
    · obtain ⟨g', visited', V', hrun, hV', hsub, hsub', hexplored'⟩ := ih hvs hV hexplored
      rw [if_pos (decide_eq_true hmem)]
      exact ⟨g', visited', V', hrun, hV', hsub, List.cons_subset.mpr ⟨hsub hmem, hsub'⟩,
        hexplored'⟩
    · obtain ⟨g₁, visited₁, V₁, htraverse, hV₁, hsub₁, hr₁, hexplored₁⟩ :=
        chmTraverse_spec hg hfull hn hV hexplored hr hmem
      obtain ⟨g', visited', V', hrun, hV', hsub, hsub', hexplored'⟩ := ih hvs hV₁ hexplored₁
      rw [if_neg (by simpa using hmem), write_of_lt (by rw [hV.length]; exact hr), Option.bind_some,
        htraverse, Option.bind_some]
      exact ⟨g', visited', V', hrun, hV', List.Subset.trans hsub₁ hsub,
        List.cons_subset.mpr ⟨hsub hr₁, hsub'⟩, hexplored'⟩

include hg hfull hn in
/-- In a graph without cycles the values of the vertices of each edge add up to its number. -/
theorem chmAssign_values (hcycle : ¬ (slotGraph E graph.nnodes).HasCycle)
    (hlength : g.length = graph.nnodes) :
    ∃ g' visited', chmAssign graph (List.range graph.nnodes) g
        (List.replicate (graph.nnodes / 8 + 1) 0) = some (g', visited') ∧
      g'.length = graph.nnodes ∧
      ∀ e x y : Nat, E[e]? = some (x, y) →
        ∃ a b, g'[x]? = some a ∧ g'[y]? = some b ∧ a + b = BitVec.ofNat 32 e := by
  have hrange : ∀ v ∈ List.range graph.nnodes, v < graph.nnodes := fun v hv => List.mem_range.mp hv
  have hstart : Visiting graph.nnodes g (List.replicate (graph.nnodes / 8 + 1) 0) [] :=
    ⟨.start _, List.nodup_nil, fun v hv => absurd hv List.not_mem_nil, hlength⟩
  obtain ⟨g', visited', V, hrun, hV, -, hall, hexplored⟩ := chmAssign_spec hg hfull hn hrange hstart
    ⟨fun _ _ _ _ hu => absurd hu List.not_mem_nil, fun _ _ _ _ hu => absurd hu List.not_mem_nil⟩
  refine ⟨g', visited', hrun, hV.length, fun e x y he => ?_⟩
  obtain ⟨hx, hy, -⟩ := hg.ends e x y he
  have hlink : (slotGraph E graph.nnodes).IsLink e x y := ⟨hx, hy, .inl he⟩
  obtain ⟨x', -, y', -, hlink', a, b, ha, hb, hsum⟩ := hexplored.mem_of_not_hasCycle
    (Set.finite_lt_nat graph.nnodes) hcycle hlink (hall (List.mem_range.mpr hx))
  rcases hlink'.eq_and_eq_or_eq_and_eq hlink with ⟨rfl, rfl⟩ | ⟨rfl, rfl⟩
  · exact ⟨a, b, ha, hb, hsum⟩
  · exact ⟨b, a, hb, ha, by rw [BitVec.add_comm, hsum]⟩

end PerfectHash.Cmph
