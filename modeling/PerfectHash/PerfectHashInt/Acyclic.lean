import Mathlib.Data.Set.Finite.Basic
import PerfectHash.Lib.Multigraph
import PerfectHash.PerfectHashInt.Correctness

/-! # Peeling decides whether the graph is acyclic

The single pass over the starting vertices takes off edge after edge until none is a leaf edge
(`Peel.Removed`): a vertex that was passed has more or fewer than one edge, and where taking off an
edge leaves a passed vertex with one edge the inner loop goes on there. So it takes off all edges
exactly if there is no cycle, and in the second phase each edge has an end that is not visited yet.
-/

namespace PerfectHash.PerfectHashInt

open CValues C

variable {κ : Type} {mode : Mode} {E : List (Nat × Nat)} {nverts n e v : Nat} {order : List Nat}
  {a a' : Assignment} {s s' : Peel}

/-! ## The graph of the keys -/

/-- The multigraph with the edge `e` between the two slots of the pair number `e`. -/
def slotGraph (E : List (Nat × Nat)) (nverts : Nat) : Graph Nat Nat where
  vertexSet := Set.Iio nverts
  IsLink e x y := x < nverts ∧ y < nverts ∧ (E[e]? = some (x, y) ∨ E[e]? = some (y, x))
  isLink_symm e _ := ⟨fun _ _ h => ⟨h.2.1, h.1, h.2.2.symm⟩⟩
  eq_or_eq_of_isLink_of_isLink e x y v w h h' := by
    rcases h.2.2 with h | h <;> rcases h'.2.2 with h' | h' <;>
      simp only [h, Option.some.injEq, Prod.mk.injEq] at h' <;> simp [h']
  left_mem_of_isLink _ _ _ h := h.1

/-- The two slots of each key. -/
def slots (hash1 hash2 : κ → Nat) (nverts : Nat) (keys : List κ) : List (Nat × Nat) :=
  keys.map fun kw => (hash1 kw % nverts, hash2 kw % nverts)

/-- The size of the table, 0 for multipliers for which none is found. -/
def tableSize (mult1 mult2 nedges : Nat) : Nat :=
  (adjust mult1 mult2 ((mult1 + 1) * (mult2 + 1)) (2 * nedges + 1)).toOption.getD 0

/-- The multigraph whose edges join the two slots of each key. -/
def keyGraph (mode : Mode) (keys : List mode.Key) (mult1 mult2 seed1 seed2 : Nat) :
    Graph Nat Nat :=
  slotGraph (slots (calcHash mode · mult1 seed1) (calcHash mode · mult2 seed2)
    (tableSize mult1 mult2 keys.length) keys) (tableSize mult1 mult2 keys.length)

theorem adjust_eq_tableSize {mult1 mult2 : Nat} (h1 : 2 ≤ mult1) (h2 : 2 ≤ mult2) (nedges : Nat) :
    adjust mult1 mult2 ((mult1 + 1) * (mult2 + 1)) (2 * nedges + 1) =
      .ok (tableSize mult1 mult2 nedges) := by
  obtain ⟨size, hsize⟩ := adjust_returns h1 h2 (2 * nedges + 1)
  rw [tableSize, hsize]
  rfl

theorem two_mul_lt_tableSize {mult1 mult2 : Nat} (h1 : 2 ≤ mult1) (h2 : 2 ≤ mult2) (nedges : Nat) :
    2 * nedges < tableSize mult1 mult2 nedges :=
  (adjust_ok (adjust_eq_tableSize h1 h2 nedges)).1

/-- The edges are the pairs of slots, unless a key has two equal slots. -/
theorem edges_eq (hash1 hash2 : κ → Nat) (nverts : Nat) (keys : List κ) :
    edges hash1 hash2 nverts keys =
      if ∀ p ∈ slots hash1 hash2 nverts keys, p.1 ≠ p.2 then some (slots hash1 hash2 nverts keys)
      else none := by
  induction keys with
  | nil => rfl
  | cons key keys ih =>
    rw [edges, List.mapM_cons, ← edges, ih]
    by_cases hkey : hash1 key % nverts = hash2 key % nverts
    · simp [slots, hkey]
    · dsimp only
      rw [if_neg hkey]
      by_cases hkeys : ∀ p ∈ slots hash1 hash2 nverts keys, p.1 ≠ p.2
      · rw [if_pos hkeys, if_pos]
        · rfl
        · exact List.forall_mem_cons.mpr ⟨hkey, hkeys⟩
      · rw [if_neg hkeys, if_neg fun h => hkeys fun p hp => h p (List.mem_cons_of_mem _ hp)]
        rfl

/-- The pairs are edges between two different vertices. -/
def IsSimple (E : List (Nat × Nat)) (nverts : Nat) : Prop := ∀ e < E.length, IsEdge E nverts e

theorem getElem?_eq_ends (he : e < E.length) : E[e]? = some (left E e, right E e) :=
  getElem?_eq_getD he (0, 0)

theorem inc_slotGraph (hE : IsSimple E nverts) :
    (slotGraph E nverts).Inc e v ↔ e < E.length ∧ (left E e = v ∨ right E e = v) := by
  refine ⟨fun ⟨w, _, _, h⟩ => ?_, fun ⟨he, h⟩ => ?_⟩
  · have he : e < E.length := by
      by_contra hge
      rw [List.getElem?_eq_none (by omega)] at h
      rcases h with h | h <;> cases h
    rw [getElem?_eq_ends he] at h
    refine ⟨he, ?_⟩
    rcases h with h | h <;> cases h
    · exact .inl rfl
    · exact .inr rfl
  · have hedge := hE e he
    rcases h with rfl | rfl
    · exact ⟨right E e, hedge.left_lt, hedge.right_lt, .inl (getElem?_eq_ends he)⟩
    · exact ⟨left E e, hedge.right_lt, hedge.left_lt, .inr (getElem?_eq_ends he)⟩

theorem not_isLoopAt_slotGraph (hE : IsSimple E nverts) (e v : Nat) :
    ¬ (slotGraph E nverts).IsLoopAt e v := by
  intro h
  have he := ((inc_slotGraph hE).mp h.inc).1
  have hlink := h.2.2
  rw [getElem?_eq_ends he, or_self] at hlink
  obtain ⟨hl, hr⟩ := Prod.mk.inj (Option.some.inj hlink)
  exact (hE e he).ne (hl.trans hr.symm)

/-! ## Peeling -/

/-- The state after some edges were taken off, with no leaf edge left at the vertices of `P`. -/
structure Peel.Removed (E : List (Nat × Nat)) (nverts : Nat) (P : Nat → Prop) (s : Peel) :
    Prop where
  mem : ∀ e v, e ∈ s.V.getD v [] ↔ (slotGraph E nverts).Inc e v ∧ e ∉ s.outputOrder
  nodup_edges : ∀ v, (s.V.getD v []).Nodup
  lt : ∀ e ∈ s.outputOrder, e < E.length
  nodup : s.outputOrder.Nodup
  leafOrder : (slotGraph E nverts).LeafOrder s.outputOrder
  passed : ∀ v, P v → (s.V.getD v []).length ≠ 1

private theorem getD_modify {α : Type} {f : α → α} {l : List α} {i j : Nat} {d : α} :
    (l.modify i f).getD j d = if i = j ∧ j < l.length then f (l.getD j d) else l.getD j d := by
  simp only [List.getD_eq_getElem?_getD, List.getElem?_modify]
  by_cases hj : j < l.length
  · by_cases hij : i = j <;> simp [hij, hj]
  · simp [hj]

theorem getD_modify_erase (V : List (List Nat)) (i e v : Nat) :
    (V.modify i (·.erase e)).getD v [] = if i = v then (V.getD v []).erase e else V.getD v [] := by
  rw [getD_modify]
  by_cases hv : v < V.length
  · simp [hv]
  · rw [List.getD_eq_default _ _ (Nat.le_of_not_lt hv)]
    simp [hv]

/-- The lists of edge numbers before peeling. -/
theorem mem_vertices (hE : IsSimple E nverts) :
    (e ∈ (vertices E nverts).getD v [] ↔ (slotGraph E nverts).Inc e v) ∧
      ((vertices E nverts).getD v []).Nodup := by
  have hinsert {V : List (List Nat)} (i e e' : Nat) (hi : i < V.length)
      (hV : (V.getD v []).Nodup) :
      (e' ∈ (V.modify i (·.insert e)).getD v [] ↔ e' ∈ V.getD v [] ∨ e' = e ∧ i = v) ∧
        ((V.modify i (·.insert e)).getD v []).Nodup := by
    rw [getD_modify]
    split
    · rename_i h
      exact ⟨by rw [List.mem_insert_iff, or_comm, and_iff_left h.1], hV.insert⟩
    · rename_i h
      exact ⟨⟨.inl, fun h' => h'.elim id fun h' => absurd ⟨h'.2, h'.2 ▸ hi⟩ h⟩, hV⟩
  have main (l : List ((Nat × Nat) × Nat)) (V : List (List Nat))
      (hl : ∀ p ∈ l, p.1.1 < V.length ∧ p.1.2 < V.length) (hV : (V.getD v []).Nodup) :
      let V' := l.foldl (fun V p => (V.modify p.1.1 (·.insert p.2)).modify p.1.2 (·.insert p.2)) V
      (e ∈ V'.getD v [] ↔ e ∈ V.getD v [] ∨ ∃ p ∈ l, e = p.2 ∧ (p.1.1 = v ∨ p.1.2 = v)) ∧
        (V'.getD v []).Nodup := by
    induction l generalizing V with
    | nil => exact ⟨by simp, hV⟩
    | cons p l ih =>
      have hp := hl p List.mem_cons_self
      obtain ⟨hmem1, hnodup1⟩ := hinsert p.1.1 p.2 e hp.1 hV
      obtain ⟨hmem2, hnodup2⟩ := hinsert p.1.2 p.2 e (by rw [List.length_modify]; exact hp.2)
        hnodup1
      obtain ⟨hmem, hnodup⟩ := ih _ (fun q hq => by
        simpa using hl q (List.mem_cons_of_mem _ hq)) hnodup2
      refine ⟨?_, hnodup⟩
      rw [List.foldl_cons, hmem, hmem2, hmem1]
      rw [List.exists_mem_cons_iff, and_or_left, or_assoc, or_assoc, or_assoc]
  have hzero : (List.replicate nverts ([] : List Nat)).getD v [] = [] := by
    rw [List.getD_eq_getElem?_getD, List.getElem?_replicate]
    split <;> rfl
  have hget {p : (Nat × Nat) × Nat} (hp : p ∈ E.zipIdx) :
      p.2 < E.length ∧ p.1 = (left E p.2, right E p.2) := by
    have hp : E[p.2]? = some p.1 := List.mem_zipIdx_iff_getElem?.mp hp
    have he := (List.getElem?_eq_some_iff.mp hp).1
    rw [getElem?_eq_ends he] at hp
    exact ⟨he, (Option.some.inj hp).symm⟩
  have hbound (p) (hp : p ∈ E.zipIdx) :
      p.1.1 < (List.replicate nverts ([] : List Nat)).length ∧
        p.1.2 < (List.replicate nverts ([] : List Nat)).length := by
    obtain ⟨he, hends⟩ := hget hp
    rw [List.length_replicate, hends]
    exact ⟨(hE _ he).left_lt, (hE _ he).right_lt⟩
  obtain ⟨hmem, hnodup⟩ := main E.zipIdx _ hbound (by rw [hzero]; exact List.nodup_nil)
  refine ⟨?_, hnodup⟩
  rw [vertices, hmem, hzero, inc_slotGraph hE]
  refine ⟨?_, fun ⟨he, h⟩ => .inr ⟨((left E e, right E e), e), ?_, rfl, h⟩⟩
  · rintro (h | ⟨p, hp, rfl, h⟩)
    · cases h
    · obtain ⟨he, hends⟩ := hget hp
      rw [hends] at h
      exact ⟨he, h⟩
  · exact List.mem_zipIdx_iff_getElem?.mpr (getElem?_eq_ends he)

theorem Peel.Removed.start (hE : IsSimple E nverts) :
    Peel.Removed E nverts (fun _ => False) { V := vertices E nverts, outputOrder := [] } where
  mem e v := (mem_vertices hE).1.trans ⟨fun h => ⟨h, List.not_mem_nil⟩, And.left⟩
  nodup_edges v := (mem_vertices (e := 0) hE).2
  lt := nofun
  nodup := List.nodup_nil
  leafOrder _ _ h := by cases List.suffix_nil.mp h
  passed _ := False.elim

theorem Peel.Removed.mono {P Q : Nat → Prop} (h : s.Removed E nverts P) (hPQ : ∀ v, Q v → P v) :
    s.Removed E nverts Q :=
  { h with passed := fun v hv => h.passed v (hPQ v hv) }

/-- Taking off the only edge of vertex `v`. Then only its other end can have become a vertex with
one edge. -/
theorem Peel.Removed.unlinkEdge {P : Nat → Prop} (hE : IsSimple E nverts)
    (hs : s.Removed E nverts fun u => P u ∧ u ≠ v) (hv : s.V.getD v [] = [e]) {v2 : Nat}
    (hv2 : v2 = if left E e = v then right E e else left E e) :
    Peel.Removed E nverts (fun u => (P u ∨ u = v) ∧ u ≠ v2)
      { V := (s.V.modify v (·.erase e)).modify v2 (·.erase e)
        outputOrder := e :: s.outputOrder } := by
  obtain ⟨hinc, hnew⟩ := (hs.mem e v).mp (by rw [hv]; exact List.mem_singleton_self e)
  obtain ⟨he, hends⟩ := (inc_slotGraph hE).mp hinc
  have hends : left E e = v ∧ right E e = v2 ∨ left E e = v2 ∧ right E e = v := by
    split at hv2
    · rename_i hl
      exact .inl ⟨hl, hv2.symm⟩
    · rename_i hl
      exact .inr ⟨hv2.symm, hends.resolve_left hl⟩
  have hne : v ≠ v2 := by
    rcases hends with ⟨rfl, rfl⟩ | ⟨rfl, rfl⟩
    · exact (hE e he).ne
    · exact (hE e he).ne.symm
  have hother {u : Nat} (h1 : u ≠ v) (h2 : u ≠ v2) : e ∉ s.V.getD u [] := fun hmem => by
    rcases ((inc_slotGraph hE).mp ((hs.mem e u).mp hmem).1).2 with h | h <;>
      rcases hends with ⟨hl, hr⟩ | ⟨hl, hr⟩
    · exact h1 (h.symm.trans hl)
    · exact h2 (h.symm.trans hl)
    · exact h2 (h.symm.trans hr)
    · exact h1 (h.symm.trans hr)
  have hget (u : Nat) : ((s.V.modify v (·.erase e)).modify v2 (·.erase e)).getD u [] =
      (s.V.getD u []).erase e := by
    rw [getD_modify_erase, getD_modify_erase]
    by_cases h2 : v2 = u
    · rw [if_pos h2, if_neg (h2 ▸ hne)]
    · by_cases h1 : v = u
      · rw [if_neg h2, if_pos h1]
      · rw [if_neg h2, if_neg h1, List.erase_of_not_mem (hother (Ne.symm h1) (Ne.symm h2))]
  refine ⟨fun e' u => ?_, fun u => ?_, ?_, List.nodup_cons.mpr ⟨hnew, hs.nodup⟩, ?_, ?_⟩
  · rw [hget, (hs.nodup_edges u).mem_erase_iff, hs.mem, List.mem_cons, not_or, and_left_comm]
  · rw [hget]
    exact (hs.nodup_edges u).erase e
  · exact List.forall_mem_cons.mpr ⟨he, hs.lt⟩
  · intro e' rest hsuffix
    rcases List.suffix_cons_iff.mp hsuffix with h | h
    · cases h
      refine ⟨v, hinc, fun e' he' hinc' => he' ?_⟩
      have hmem : e' ∈ s.V.getD v [] :=
        (hs.mem e' v).mpr ⟨hinc', fun h => he' (List.mem_cons_of_mem _ h)⟩
      rw [hv] at hmem
      exact List.mem_singleton.mp hmem ▸ List.mem_cons_self
    · exact hs.leafOrder e' rest h
  · rintro u ⟨hu, hu2⟩
    rw [hget]
    by_cases huv : u = v
    · subst huv
      rw [hv, List.erase_cons_head]
      exact Nat.zero_ne_one
    · rw [List.erase_of_not_mem (hother huv hu2)]
      exact hs.passed u ⟨hu.resolve_right huv, huv⟩

/-- The inner loop ends with no leaf edge at the vertices that were passed before, nor at the one it
started from. -/
theorem Peel.Removed.unlink {P : Nat → Prop} {turns : Nat} (hE : IsSimple E nverts)
    (hs : s.Removed E nverts fun u => P u ∧ u ≠ v) (h : unlink E turns v s = .ok s') :
    s'.Removed E nverts fun u => P u ∨ u = v := by
  have stop {v : Nat} {s : Peel} {P : Nat → Prop} (hs : s.Removed E nverts fun u => P u ∧ u ≠ v)
      (hv : ∀ e, s.V.getD v [] = [e] → False) : s.Removed E nverts fun u => P u ∨ u = v := by
    refine { hs with passed := fun u hu hone => ?_ }
    by_cases huv : u = v
    · subst huv
      obtain ⟨e, he⟩ := List.length_eq_one_iff.mp hone
      exact hv e he
    · exact hs.passed u ⟨hu.resolve_right huv, huv⟩ hone
  induction turns generalizing v s P with
  | zero =>
    unfold PerfectHashInt.unlink at h
    split at h
    · cases h
    · rename_i hv
      cases h
      exact stop hs hv
  | succ turns ih =>
    unfold PerfectHashInt.unlink at h
    split at h
    · rename_i e hv
      exact (ih (hs.unlinkEdge hE hv rfl) h).mono fun u hu => .inl hu
    · rename_i hv
      cases h
      exact stop hs hv

/-- After the pass over the starting vertices no vertex has one edge. -/
theorem peel_removed (hE : IsSimple E nverts) (h : peel E nverts = .ok s) :
    s.Removed E nverts (· < nverts) := by
  have main (vs : List Nat) (P : Nat → Prop) (s s' : Peel) (hs : s.Removed E nverts P)
      (h : vs.foldlM (fun s startv => unlink E (2 * E.length) startv s) s = .ok s') :
      s'.Removed E nverts fun v => P v ∨ v ∈ vs := by
    induction vs generalizing s P with
    | nil =>
      cases h
      exact hs.mono fun v hv => hv.resolve_right List.not_mem_nil
    | cons v vs ih =>
      rw [List.foldlM_cons] at h
      obtain ⟨s'', hu, h⟩ := bind_eq_ok.mp h
      refine (ih _ s'' ((hs.mono fun u hu => hu.1).unlink hE hu) h).mono fun u hu => ?_
      rw [List.mem_cons, ← or_assoc] at hu
      exact hu
  exact (main _ _ _ _ (.start hE) h).mono fun v hv => .inr (List.mem_range.mpr hv)

/-- Peeling takes off all edges exactly if there is no cycle. -/
theorem Peel.Removed.length_eq_iff (hE : IsSimple E nverts) (hs : s.Removed E nverts (· < nverts)) :
    s.outputOrder.length = E.length ↔ ¬ (slotGraph E nverts).HasCycle := by
  constructor
  · rintro hlen ⟨c⟩
    have hinc := (c.isLink 0 c.pos).inc_left
    refine c.notMem_of_leafOrder (not_isLoopAt_slotGraph hE) hs.leafOrder 0 c.pos ?_
    rw [(perm_range hs.nodup hs.lt hlen).mem_iff, List.mem_range]
    exact ((inc_slotGraph hE).mp hinc).1
  · intro hcycle
    by_contra hlen
    obtain ⟨e, he, hleft⟩ : ∃ e < E.length, e ∉ s.outputOrder := by
      by_contra hall
      push Not at hall
      have hsub : List.range E.length ⊆ s.outputOrder := fun e he => hall e (List.mem_range.mp he)
      have hle := (List.nodup_range.subperm hsub).length_le
      have hge := (hs.nodup.subperm fun e he => List.mem_range.mpr (hs.lt e he)).length_le
      rw [List.length_range] at hle hge
      exact hlen (hge.antisymm hle)
    apply hcycle
    apply Graph.hasCycle_of_forall_inc (Set.finite_lt_nat nverts)
      (S := {e | e < E.length ∧ e ∉ s.outputOrder})
    · rintro e' ⟨he', -⟩
      exact ((inc_slotGraph hE).mpr ⟨he', .inl rfl⟩).edge_mem
    · exact ⟨e, he, hleft⟩
    · -- the other edge at `v`, since `v` does not have one edge
      rintro e' ⟨-, hleft'⟩ v hinc
      have hmem := (hs.mem e' v).mpr ⟨hinc, hleft'⟩
      obtain ⟨e'', hmem'', hne⟩ : ∃ e'' ∈ s.V.getD v [], e'' ≠ e' := by
        by_contra hall
        push Not at hall
        have hone := hs.nodup_edges v
        rw [List.eq_replicate_of_mem hall, List.nodup_replicate] at hone
        have hpos := List.length_pos_of_mem hmem
        exact hs.passed v hinc.vertex_mem (by omega)
      obtain ⟨hinc'', hleft''⟩ := (hs.mem e'' v).mp hmem''
      exact ⟨e'', ⟨((inc_slotGraph hE).mp hinc'').1, hleft''⟩, hne, hinc''⟩

/-! ## The second phase -/

/-- The second phase never dies: the edges before `e` have none of the vertex that `e` had alone
when it was taken off. -/
theorem assignEdges_returns (hE : IsSimple E nverts) (before es : List Nat)
    (hlt : ∀ e ∈ before ++ es, e < E.length) (hnodup : (before ++ es).Nodup)
    (hleaf : (slotGraph E nverts).LeafOrder (before ++ es))
    (ha : ∀ v, a.visited.getD v false = true → ∃ e ∈ before, left E e = v ∨ right E e = v) :
    ∃ a', es.foldlM (assignEdge E) a = .ok a' ∧ ∀ v, a'.visited.getD v false = true →
      ∃ e ∈ before ++ es, left E e = v ∨ right E e = v := by
  induction es generalizing before a with
  | nil =>
    rw [List.append_nil]
    exact ⟨a, rfl, ha⟩
  | cons e es ih =>
    obtain ⟨v, hinc, halone⟩ := hleaf e es (List.suffix_append _ _)
    have hv : a.visited.getD v false = false := by
      rw [← Bool.not_eq_true]
      intro htrue
      obtain ⟨e', he', hends⟩ := ha v htrue
      have hinc' := (inc_slotGraph hE).mpr ⟨hlt e' (List.mem_append_left _ he'), hends⟩
      exact halone e' (List.disjoint_of_nodup_append hnodup he') hinc'
    obtain ⟨a'', hstep⟩ : ∃ a'', assignEdge E a e = .ok a'' := by
      apply assignEdge_returns
      rcases ((inc_slotGraph hE).mp hinc).2 with rfl | rfl
      · exact .inl hv
      · exact .inr hv
    rw [List.append_cons] at hlt hnodup hleaf ⊢
    rw [List.foldlM_cons, hstep]
    apply ih _ hlt hnodup hleaf
    intro u hu
    rcases visited_of_assignEdge hstep hu with hu | hu
    · obtain ⟨e', he', hends⟩ := ha u hu
      exact ⟨e', List.mem_append_left _ he', hends⟩
    · exact ⟨e, List.mem_append_right _ (List.mem_singleton_self e), hu⟩

/-! ## `_construct_hash_table` -/

theorem isSimple_slots {hash1 hash2 : κ → Nat} {keys : List κ} (hpos : 0 < nverts)
    (h : ∀ p ∈ slots hash1 hash2 nverts keys, p.1 ≠ p.2) :
    IsSimple (slots hash1 hash2 nverts keys) nverts := by
  intro e he
  have hkey : e < keys.length := by simpa [slots] using he
  have hedges : edges hash1 hash2 nverts keys = some (slots hash1 hash2 nverts keys) := by
    rw [edges_eq, if_pos h]
  exact ((edges_ok hpos hedges).2 e _ (List.getElem?_eq_getElem hkey)).2.2

section
variable {keys : List mode.Key} {mult1 mult2 seed1 seed2 : Nat}
  (h1 : 2 ≤ mult1) (h2 : 2 ≤ mult2)
include h1 h2

theorem constructHashTable_of_edges_eq_none
    (h : edges (calcHash mode · mult1 seed1) (calcHash mode · mult2 seed2)
      (tableSize mult1 mult2 keys.length) keys = none) :
    constructHashTable mode keys mult1 mult2 seed1 seed2 = .ok none := by
  simp only [constructHashTable, adjust_eq_tableSize h1 h2, bind, Except.bind, h]
  rfl

variable (h : edges (calcHash mode · mult1 seed1) (calcHash mode · mult2 seed2)
    (tableSize mult1 mult2 keys.length) keys = some E)
  (hs : peel E (tableSize mult1 mult2 keys.length) = .ok s)
include h hs

theorem constructHashTable_of_length_ne (hlen : s.outputOrder.length ≠ keys.length) :
    constructHashTable mode keys mult1 mult2 seed1 seed2 = .ok none := by
  simp only [constructHashTable, adjust_eq_tableSize h1 h2, bind, Except.bind, h, hs]
  exact if_pos hlen

theorem constructHashTable_of_length_eq (hlen : s.outputOrder.length = keys.length)
    (ha : s.outputOrder.foldlM (assignEdge E)
      { hashtab := List.replicate (tableSize mult1 mult2 keys.length) 0
        visited := List.replicate (tableSize mult1 mult2 keys.length) false } = .ok a) :
    constructHashTable mode keys mult1 mult2 seed1 seed2 =
      (elemType keys.length a.hashtab).map fun p => some (p.1, flagged a p.2) := by
  simp only [constructHashTable, adjust_eq_tableSize h1 h2, bind, Except.bind, h, hs, hlen, ne_eq,
    not_true_eq_false, if_false, ha]
  cases elemType keys.length a.hashtab <;> rfl

end

/-- What `_construct_hash_table` does with an acyclic graph. -/
structure Built (mode : Mode) (keys : List mode.Key) (mult1 mult2 seed1 seed2 : Nat)
    (E : List (Nat × Nat)) (s : Peel) (a : Assignment) : Prop where
  lt : 2 * keys.length < tableSize mult1 mult2 keys.length
  edges : edges (calcHash mode · mult1 seed1) (calcHash mode · mult2 seed2)
    (tableSize mult1 mult2 keys.length) keys = some E
  peel : peel E (tableSize mult1 mult2 keys.length) = .ok s
  perm : s.outputOrder.Perm (List.range keys.length)
  assigned : Assigned E (tableSize mult1 mult2 keys.length) s.outputOrder.reverse a
  visited : ∀ v, a.visited.getD v false = true →
    ∃ e < keys.length, left E e = v ∨ right E e = v
  eq : constructHashTable mode keys mult1 mult2 seed1 seed2 =
    (elemType keys.length a.hashtab).map fun p => some (p.1, flagged a p.2)

/-- The table is built exactly if there is no cycle. -/
theorem constructHashTable_cases (mode : Mode) (keys : List mode.Key) {mult1 mult2 : Nat}
    (h1 : 2 ≤ mult1) (h2 : 2 ≤ mult2) (seed1 seed2 : Nat) :
    (keyGraph mode keys mult1 mult2 seed1 seed2).HasCycle ∧
        constructHashTable mode keys mult1 mult2 seed1 seed2 = .ok none ∨
      ¬ (keyGraph mode keys mult1 mult2 seed1 seed2).HasCycle ∧
        ∃ E s a, Built mode keys mult1 mult2 seed1 seed2 E s a := by
  have hpos := two_mul_lt_tableSize h1 h2 keys.length
  have hedges := edges_eq (calcHash mode · mult1 seed1) (calcHash mode · mult2 seed2)
    (tableSize mult1 mult2 keys.length) keys
  unfold keyGraph
  split at hedges
  · rename_i hne
    have hE := isSimple_slots (by omega) hne
    have hlen : (slots (calcHash mode · mult1 seed1) (calcHash mode · mult2 seed2)
        (tableSize mult1 mult2 keys.length) keys).length = keys.length := List.length_map _
    generalize slots _ _ _ keys = E at *
    obtain ⟨s, hs⟩ := peel_returns E (tableSize mult1 mult2 keys.length)
    have hremoved := peel_removed hE hs
    have hiff := hremoved.length_eq_iff hE
    rw [hlen] at hiff
    by_cases hcount : s.outputOrder.length = keys.length
    · right
      obtain ⟨a, ha, hvisited⟩ := assignEdges_returns hE [] s.outputOrder
        (a := { hashtab := List.replicate (tableSize mult1 mult2 keys.length) 0
                visited := List.replicate (tableSize mult1 mult2 keys.length) false })
        hremoved.lt hremoved.nodup hremoved.leafOrder (fun v hv => by simp at hv)
      refine ⟨hiff.mp hcount, E, s, a, hpos, hedges, hs,
        perm_range hremoved.nodup (hlen ▸ hremoved.lt) hcount, ?_, fun v hv => ?_,
        constructHashTable_of_length_eq h1 h2 hedges hs hcount ha⟩
      · have hassigned := (Assigned.start E _).run (fun e he => hE e (hremoved.lt e he)) ha
        rwa [List.append_nil] at hassigned
      · obtain ⟨e, he, hends⟩ := hvisited v hv
        exact ⟨e, hlen ▸ hremoved.lt e he, hends⟩
    · left
      exact ⟨not_not.mp fun hcycle => hcount (hiff.mpr hcycle),
        constructHashTable_of_length_ne h1 h2 hedges hs hcount⟩
  · rename_i hloop
    left
    refine ⟨?_, constructHashTable_of_edges_eq_none h1 h2 hedges⟩
    push Not at hloop
    obtain ⟨⟨x, y⟩, hp, hxy⟩ := hloop
    obtain rfl : x = y := hxy
    obtain ⟨e, he⟩ := List.mem_iff_getElem?.mp hp
    obtain ⟨key, -, hkey⟩ := List.mem_map.mp hp
    have hlt : x < tableSize mult1 mult2 keys.length := by
      rw [← (Prod.mk.inj hkey).1]
      exact Nat.mod_lt _ (by omega)
    exact Graph.hasCycle_of_isLoopAt (e := e) (v := x) ⟨hlt, hlt, .inl he⟩

/-- For a multiplier of 0 or 1 no table size is found. -/
theorem constructHashTable_of_lt (h : ¬ (2 ≤ mult1 ∧ 2 ≤ mult2)) (mode : Mode)
    (keys : List mode.Key) (seed1 seed2 : Nat) :
    ∃ stop, adjust mult1 mult2 ((mult1 + 1) * (mult2 + 1)) (2 * keys.length + 1) = .error stop ∧
      constructHashTable mode keys mult1 mult2 seed1 seed2 = .error stop := by
  cases hadjust : adjust mult1 mult2 ((mult1 + 1) * (mult2 + 1)) (2 * keys.length + 1) with
  | ok size => exact absurd (two_le_of_adjust_ok hadjust) h
  | error stop =>
    refine ⟨stop, rfl, ?_⟩
    simp only [constructHashTable, hadjust, bind, Except.bind]

theorem constructHashTable_error {keys : List mode.Key} {mult1 mult2 seed1 seed2 : Nat}
    {stop : Stop} (h1 : 2 ≤ mult1) (h2 : 2 ≤ mult2)
    (h : constructHashTable mode keys mult1 mult2 seed1 seed2 = .error stop) :
    stop = .die "hash table values too wide" := by
  rcases constructHashTable_cases mode keys h1 h2 seed1 seed2 with
    ⟨-, hnone⟩ | ⟨-, E, s, a, hbuilt⟩
  · rw [hnone] at h
    cases h
  · rw [hbuilt.eq] at h
    cases helem : elemType keys.length a.hashtab with
    | ok p =>
      rw [helem] at h
      cases h
    | error stop' =>
      rw [helem] at h
      cases h
      exact elemType_error helem

/-- The table is asked for with other parameters exactly if there is a cycle. -/
theorem constructHashTable_eq_none {keys : List mode.Key} {mult1 mult2 seed1 seed2 : Nat}
    (h1 : 2 ≤ mult1) (h2 : 2 ≤ mult2) :
    constructHashTable mode keys mult1 mult2 seed1 seed2 = .ok none ↔
      (keyGraph mode keys mult1 mult2 seed1 seed2).HasCycle := by
  rcases constructHashTable_cases mode keys h1 h2 seed1 seed2 with
    ⟨hcycle, hnone⟩ | ⟨hcycle, E, s, a, hbuilt⟩
  · exact ⟨fun _ => hcycle, fun _ => hnone⟩
  · refine ⟨fun h => ?_, fun h => absurd h hcycle⟩
    rw [hbuilt.eq] at h
    cases helem : elemType keys.length a.hashtab <;> rw [helem] at h <;> cases h

/-- `_construct_hash_table` asks for other parameters exactly if the graph has a cycle, for
multipliers from 2 on; for 0 and 1 it finds no table size. If the graph has no cycle, the pass over
the starting vertices takes off all edges. It never dies in the second phase. -/
theorem constructHashTable_iff_hasCycle (mode : Mode) (keys : List mode.Key)
    (mult1 mult2 seed1 seed2 : Nat) :
    (constructHashTable mode keys mult1 mult2 seed1 seed2 = .ok none ↔
      2 ≤ mult1 ∧ 2 ≤ mult2 ∧ (keyGraph mode keys mult1 mult2 seed1 seed2).HasCycle) ∧
    (2 ≤ mult1 → 2 ≤ mult2 → ¬ (keyGraph mode keys mult1 mult2 seed1 seed2).HasCycle →
      ∃ E s, edges (calcHash mode · mult1 seed1) (calcHash mode · mult2 seed2)
          (tableSize mult1 mult2 keys.length) keys = some E ∧
        peel E (tableSize mult1 mult2 keys.length) = .ok s ∧
        s.outputOrder.Perm (List.range keys.length)) ∧
    constructHashTable mode keys mult1 mult2 seed1 seed2 ≠
      .error (.die "oops, doubly used hashtab entry") := by
  by_cases hmult : 2 ≤ mult1 ∧ 2 ≤ mult2
  · obtain ⟨h1, h2⟩ := hmult
    refine ⟨?_, fun _ _ hcycle => ?_, fun h => ?_⟩
    · rw [constructHashTable_eq_none h1 h2]
      exact ⟨fun h => ⟨h1, h2, h⟩, fun h => h.2.2⟩
    · rcases constructHashTable_cases mode keys h1 h2 seed1 seed2 with
        ⟨hbad, -⟩ | ⟨-, E, s, a, hbuilt⟩
      · exact absurd hbad hcycle
      · exact ⟨E, s, hbuilt.edges, hbuilt.peel, hbuilt.perm⟩
    · exact absurd (constructHashTable_error h1 h2 h) (by decide)
  · obtain ⟨stop, hadjust, hstop⟩ := constructHashTable_of_lt hmult mode keys seed1 seed2
    rw [hstop]
    refine ⟨⟨nofun, fun h => absurd ⟨h.1, h.2.1⟩ hmult⟩, fun h1 h2 => absurd ⟨h1, h2⟩ hmult,
      fun h => ?_⟩
    cases h
    exact absurd (adjust_error hadjust) (by decide)

/-! ## Unused entries -/

/-- No key has the slot `v`. -/
def IsUnused (mode : Mode) (keys : List mode.Key) (mult1 mult2 seed1 seed2 nverts v : Nat) : Prop :=
  ∀ key ∈ keys, calcHash mode key mult1 seed1 % nverts ≠ v ∧
    calcHash mode key mult2 seed2 % nverts ≠ v

theorem Built.isUnused_iff {keys : List mode.Key} {mult1 mult2 seed1 seed2 : Nat}
    (hbuilt : Built mode keys mult1 mult2 seed1 seed2 E s a) :
    IsUnused mode keys mult1 mult2 seed1 seed2 (tableSize mult1 mult2 keys.length) v ↔
      a.visited.getD v false = false := by
  have hpos := hbuilt.lt
  have hends := (edges_ok (by omega) hbuilt.edges).2
  rw [← not_iff_not, Bool.not_eq_false]
  constructor
  · intro hused
    simp only [IsUnused, not_forall] at hused
    obtain ⟨key, hkey, hused⟩ := hused
    obtain ⟨e, he⟩ := List.mem_iff_getElem?.mp hkey
    obtain ⟨hl, hr, -⟩ := hends e key he
    have hmem : e ∈ s.outputOrder.reverse := by
      rw [List.mem_reverse, hbuilt.perm.mem_iff, List.mem_range]
      exact (List.getElem?_eq_some_iff.mp he).1
    obtain ⟨hvl, hvr⟩ := hbuilt.assigned.frozen e hmem
    rw [hl] at hvl
    rw [hr] at hvr
    rcases not_and_or.mp hused with h | h
    · rwa [not_not.mp h] at hvl
    · rwa [not_not.mp h] at hvr
  · intro hvisited hunused
    obtain ⟨e, he, h⟩ := hbuilt.visited v hvisited
    obtain ⟨hl, hr, -⟩ := hends e _ (List.getElem?_eq_getElem he)
    obtain ⟨hnl, hnr⟩ := hunused _ (List.getElem_mem he)
    rcases h with h | h
    · exact hnl (hl.symm.trans h)
    · exact hnr (hr.symm.trans h)

/-- A returned table comes from an acyclic graph. -/
theorem exists_built {keys : List mode.Key} {mult1 mult2 seed1 seed2 : Nat} {t : IntType}
    {h : List Int}
    (hok : constructHashTable mode keys mult1 mult2 seed1 seed2 = .ok (some (t, h))) :
    ∃ E s a flag, Built mode keys mult1 mult2 seed1 seed2 E s a ∧
      ElemType keys.length a.hashtab t flag ∧ h = flagged a flag := by
  obtain ⟨h1, h2⟩ : 2 ≤ mult1 ∧ 2 ≤ mult2 := by
    obtain ⟨_, hadjust, -⟩ := bind_eq_ok.mp hok
    exact two_le_of_adjust_ok hadjust
  rcases constructHashTable_cases mode keys h1 h2 seed1 seed2 with
    ⟨-, hnone⟩ | ⟨-, E, s, a, hbuilt⟩
  · rw [hnone] at hok
    cases hok
  · have heq := hbuilt.eq
    rw [hok] at heq
    cases helem : elemType keys.length a.hashtab with
    | error stop =>
      rw [helem] at heq
      cases heq
    | ok p =>
      rw [helem] at heq
      cases heq
      exact ⟨E, s, a, p.2, hbuilt, elemType_ok helem, rfl⟩

/-- The entry of an unvisited vertex is the flag. -/
theorem getD_flagged_unvisited (flag : Int) (ha : Assigned E nverts order a) (hv : v < nverts)
    (hfalse : a.visited.getD v false = false) : (flagged a flag).getD v 0 = flag := by
  have hlt : v < a.visited.length := ha.length_visited.symm ▸ hv
  have hlt' : v < a.hashtab.length := ha.length_hashtab.symm ▸ hv
  rw [List.getD_eq_getElem _ _ hlt] at hfalse
  simp [flagged, List.getD_eq_getElem?_getD, hlt, hlt', hfalse]

theorem getD_flagged_cases (flag : Int) (ha : Assigned E nverts order a) (hv : v < nverts) :
    (flagged a flag).getD v 0 = flag ∨ (flagged a flag).getD v 0 ∈ a.hashtab := by
  cases hvisited : a.visited.getD v false with
  | false => exact .inl (getD_flagged_unvisited flag ha hv hvisited)
  | true =>
    rw [getD_flagged flag ha hvisited, List.getD_eq_getElem _ _ (ha.length_hashtab.symm ▸ hv)]
    exact .inr (List.getElem_mem _)

/-- The flag and any entry add up to a number that is no index and that fits 32 bits. -/
theorem ElemType.le_conv_flag_add {nedges : Nat} {hashtab : List Int} {t : IntType} {flag y : Int}
    (h : ElemType nedges hashtab t flag) (hzero : 0 ∈ hashtab) (hy : y = flag ∨ y ∈ hashtab) :
    nedges ≤ unsignedInt.conv (flag + y) := by
  have hflag := h.flag_lt
  obtain ⟨hle, hlt⟩ : (nedges : Int) ≤ flag + y ∧ flag + y < 2 ^ 32 := by
    rcases hy with rfl | hy
    · have := h.le_add 0 hzero
      omega
    · have := h.le_add y hy
      have := h.lt hy
      omega
  rwa [IntType.conv_of_fits]
  exact ⟨by omega, hlt⟩

/-- A table that is returned has an unused slot, all its entries fit its type, and a sum that takes
an unused entry is no index as the unsigned value that the generated function returns. -/
theorem constructHashTable_unused {mode : Mode} {keys : List mode.Key}
    {mult1 mult2 seed1 seed2 : Nat} {t : IntType} {h : List Int}
    (hok : constructHashTable mode keys mult1 mult2 seed1 seed2 = .ok (some (t, h))) :
    (∃ v < h.length, IsUnused mode keys mult1 mult2 seed1 seed2 h.length v) ∧
    t ∈ [signedChar, short, int] ∧ (∀ x ∈ h, t.Fits x) ∧
    ∀ a b : BitVec 32, IsUnused mode keys mult1 mult2 seed1 seed2 h.length (a.toNat % h.length) ∨
        IsUnused mode keys mult1 mult2 seed1 seed2 h.length (b.toNat % h.length) →
      keys.length ≤ unsignedInt.conv
        (h.getD (a.toNat % h.length) 0 + h.getD (b.toNat % h.length) 0) := by
  have htable := constructHashTable_ok hok
  obtain ⟨E, s, a, flag, hbuilt, helem, rfl⟩ := exists_built hok
  have hpos := hbuilt.lt
  have hlen : s.outputOrder.reverse.length = keys.length := by
    rw [List.length_reverse, length_of_perm_range hbuilt.perm]
  have hzero := zero_mem_hashtab hbuilt.assigned (by omega)
  rw [length_flagged flag hbuilt.assigned]
  refine ⟨?_, ?_, htable.fits, fun x y hxy => ?_⟩
  · obtain ⟨v, hv, hfalse⟩ := exists_unvisited hbuilt.assigned (by omega)
    exact ⟨v, hv, hbuilt.isUnused_iff.mpr hfalse⟩
  · rcases helem.cases with ⟨rfl, -⟩ | ⟨rfl, -⟩ | ⟨rfl, -⟩ <;> simp
  · have hslot (z : BitVec 32) : z.toNat % tableSize mult1 mult2 keys.length <
        tableSize mult1 mult2 keys.length := Nat.mod_lt _ (by omega)
    have hflag {z : BitVec 32} (hz : IsUnused mode keys mult1 mult2 seed1 seed2
        (tableSize mult1 mult2 keys.length) (z.toNat % tableSize mult1 mult2 keys.length)) :=
      getD_flagged_unvisited flag hbuilt.assigned (hslot z) (hbuilt.isUnused_iff.mp hz)
    have hentry (z : BitVec 32) := getD_flagged_cases flag hbuilt.assigned (hslot z)
    rcases hxy with hx | hy
    · rw [hflag hx]
      exact helem.le_conv_flag_add hzero (hentry y)
    · rw [hflag hy, Int.add_comm]
      exact helem.le_conv_flag_add hzero (hentry x)

/-- The keys `ec`, `fh`, `gm` and `hr`. -/
def ecFhGmHr : List Bytes := [[101, 99], [102, 104], [103, 109], [104, 114]]

/-- The sum of the unused entry 0 and the negative entry 2. -/
theorem constructHashTable_unused_four :
    4 ≤ unsignedInt.conv ([127, 0, -1, 2, 4, 127, 127, 0, 0].getD ((0#32).toNat % 9) 0 +
      [127, 0, -1, 2, 4, 127, 127, 0, 0].getD ((2#32).toNat % 9) 0) :=
  (@constructHashTable_unused (.string false) ecFhGmHr 257 17 0 1 signedChar
    [127, 0, -1, 2, 4, 127, 127, 0, 0] (by decide +kernel)).2.2.2 0#32 2#32
    (.inl (by unfold IsUnused; decide +kernel))

end PerfectHash.PerfectHashInt
