import PerfectHash.Lib.Multigraph
import Mathlib.Logic.Relation

/-! # Peeling a multigraph

Edges are removed as leaf edges until every vertex that was passed has no leaf edge. What is left
behind is the 2-core of the graph (`Peeled.notMem_iff`), which is empty exactly if there is no cycle
(`hasCycle_iff_exists_core`). An edge between two vertices that other edges join is on a cycle
(`hasCycle_of_joined`). -/

namespace Graph

variable {α β : Type*} {G : Graph α β} {S : Set β} {P Q : Set α} {e : β} {u v w : α}
  {es order : List β}

/-- An edge of the 2-core: it belongs to edges each of which has another one of them at both of its
ends. -/
def Core (G : Graph α β) (e : β) : Prop :=
  ∃ S ⊆ G.edgeSet, e ∈ S ∧ ∀ e ∈ S, ∀ v, G.Inc e v → ∃ e' ∈ S, e' ≠ e ∧ G.Inc e' v

/-- Some edges were removed one after the other as leaf edges, the last one first, and no vertex of
`P` has a leaf edge left. -/
structure Peeled (G : Graph α β) (P : Set α) (order : List β) : Prop where
  nodup : order.Nodup
  edge_mem : ∀ e ∈ order, e ∈ G.edgeSet
  leafOrder : G.LeafOrder order
  passed : ∀ v ∈ P, ∀ e ∉ order, G.Inc e v → ∃ e' ∉ order, e' ≠ e ∧ G.Inc e' v

namespace Peeled

theorem start (G : Graph α β) : G.Peeled ∅ [] where
  nodup := List.nodup_nil
  edge_mem _ h := absurd h List.not_mem_nil
  leafOrder _ _ h := absurd (List.suffix_nil.mp h) (List.cons_ne_nil _ _)
  passed _ h := absurd h (Set.notMem_empty _)

theorem mono (h : G.Peeled P order) (hQP : Q ⊆ P) : G.Peeled Q order :=
  { h with passed := fun v hv => h.passed v (hQP hv) }

/-- The only edge that is left at `v` is removed. Then only its other end can have a leaf edge that
it did not have before. -/
theorem cons (h : G.Peeled {u ∈ P | u ≠ v} order) (hlink : G.IsLink e v w) (hnew : e ∉ order)
    (hleaf : ∀ e' ∉ order, G.Inc e' v → e' = e) :
    G.Peeled {u | (u ∈ P ∨ u = v) ∧ u ≠ w} (e :: order) where
  nodup := List.nodup_cons.mpr ⟨hnew, h.nodup⟩
  edge_mem := List.forall_mem_cons.mpr ⟨hlink.edge_mem, h.edge_mem⟩
  leafOrder e' rest hsuffix := by
    rcases List.suffix_cons_iff.mp hsuffix with heq | hsuffix
    · cases heq
      refine ⟨v, hlink.inc_left, fun e' he' hinc => he' ?_⟩
      rw [hleaf e' (fun hmem => he' (List.mem_cons_of_mem _ hmem)) hinc]
      exact List.mem_cons_self
    · exact h.leafOrder e' rest hsuffix
  passed u := by
    rintro ⟨hu, huw⟩ e' he' hinc
    obtain ⟨hne, hnew'⟩ := not_or.mp (mt List.mem_cons.mpr he')
    by_cases huv : u = v
    · subst huv
      exact absurd (hleaf e' hnew' hinc) hne
    · obtain ⟨e'', he'', hne'', hinc''⟩ := h.passed u ⟨hu.resolve_right huv, huv⟩ e' hnew' hinc
      refine ⟨e'', List.not_mem_cons_of_ne_of_not_mem ?_ he'', hne'', hinc''⟩
      rintro rfl
      exact (hinc''.eq_or_eq_of_isLink hlink).elim huv huw

/-- A vertex without a leaf edge is passed. -/
theorem pass (h : G.Peeled {u ∈ P | u ≠ v} order)
    (hv : ∀ e ∉ order, G.Inc e v → ∃ e' ∉ order, e' ≠ e ∧ G.Inc e' v) :
    G.Peeled {u | u ∈ P ∨ u = v} order where
  nodup := h.nodup
  edge_mem := h.edge_mem
  leafOrder := h.leafOrder
  passed u hu := by
    by_cases huv : u = v
    · subst huv
      exact hv
    · exact h.passed u ⟨hu.resolve_right huv, huv⟩

/-- No edge of the 2-core is removed. -/
theorem notMem_of_core (h : G.LeafOrder order) (he : G.Core e) : e ∉ order := by
  obtain ⟨S, -, heS, hS⟩ := he
  induction order generalizing e with
  | nil => exact List.not_mem_nil
  | cons e' rest ih =>
    have ih {e : β} (he : e ∈ S) : e ∉ rest :=
      ih (fun e'' rest' hsuffix => h e'' rest' (hsuffix.trans (List.suffix_cons e' rest))) he
    refine List.not_mem_cons_of_ne_of_not_mem ?_ (ih heS)
    rintro rfl
    obtain ⟨v, hinc, hleaf⟩ := h e rest List.suffix_rfl
    obtain ⟨e'', he'', hne, hinc''⟩ := hS e heS v hinc
    exact hleaf e'' (List.not_mem_cons_of_ne_of_not_mem hne (ih he'')) hinc''

/-- When all vertices were passed, the edges of the 2-core are left. -/
theorem notMem_iff (h : G.Peeled G.vertexSet order) (he : e ∈ G.edgeSet) :
    e ∉ order ↔ G.Core e := by
  refine ⟨fun hleft => ⟨{e | e ∈ G.edgeSet ∧ e ∉ order}, fun e he => he.1, ⟨he, hleft⟩, ?_⟩,
    notMem_of_core h.leafOrder⟩
  rintro e ⟨-, hleft⟩ v hinc
  obtain ⟨e', hleft', hne, hinc'⟩ := h.passed v hinc.vertex_mem e hleft hinc
  exact ⟨e', ⟨hinc'.edge_mem, hleft'⟩, hne, hinc'⟩

end Peeled

theorem hasCycle_iff_exists_core (hV : G.vertexSet.Finite) (hloop : ∀ e v, ¬ G.IsLoopAt e v) :
    G.HasCycle ↔ ∃ e, G.Core e := by
  constructor
  · rintro ⟨c⟩
    refine ⟨c.edge 0, c.edge '' Set.Iio c.length, ?_, ⟨0, c.pos, rfl⟩, ?_⟩
    · rintro _ ⟨i, hi, rfl⟩
      exact (c.isLink i hi).edge_mem
    · rintro _ ⟨i, hi, rfl⟩ v hinc
      obtain ⟨j, hj, hne, hinc'⟩ := c.exists_ne hloop hi hinc
      exact ⟨_, ⟨j, hj, rfl⟩, hne, hinc'⟩
  · rintro ⟨e, S, hedge, he, hS⟩
    exact hasCycle_of_forall_inc hV hedge ⟨e, he⟩ hS

/-- When all vertices were passed, all edges are removed exactly if there is no cycle. -/
theorem Peeled.forall_mem_iff (h : G.Peeled G.vertexSet order) (hV : G.vertexSet.Finite)
    (hloop : ∀ e v, ¬ G.IsLoopAt e v) : (∀ e ∈ G.edgeSet, e ∈ order) ↔ ¬ G.HasCycle := by
  rw [hasCycle_iff_exists_core hV hloop]
  constructor
  · rintro hall ⟨e, he⟩
    have hmem : e ∈ G.edgeSet := by
      obtain ⟨S, hedge, heS, -⟩ := he
      exact hedge heS
    exact (h.notMem_iff hmem).mpr he (hall e hmem)
  · intro hcore e he
    by_contra hleft
    exact hcore ⟨e, (h.notMem_iff he).mp hleft⟩

/-! ## Walks -/

/-- Two vertices with a walk over the edges of `S` between them. -/
def Joined (G : Graph α β) (S : Set β) : α → α → Prop :=
  Relation.ReflTransGen fun u v => ∃ e ∈ S, G.IsLink e u v

theorem Joined.symm (h : G.Joined S u v) : G.Joined S v u := by
  induction h with
  | refl => exact .refl
  | tail _ hlink ih =>
    obtain ⟨e, he, hlink⟩ := hlink
    exact ih.head ⟨e, he, hlink.symm⟩

theorem Joined.mono {T : Set β} (h : G.Joined S u v) (hST : S ⊆ T) : G.Joined T u v :=
  Relation.ReflTransGen.mono (fun _ _ ⟨e, he, hlink⟩ => ⟨e, hST he, hlink⟩) _ _ h

/-- A walk that never goes back over the edge that it came by. -/
inductive Reduced (G : Graph α β) (S : Set β) : α → List β → α → Prop
  | nil (v : α) : Reduced G S v [] v
  | cons {u v w : α} {e : β} {es : List β} (he : e ∈ S) (hlink : G.IsLink e u v)
      (hes : Reduced G S v es w) (hne : es.head? ≠ some e) : Reduced G S u (e :: es) w

theorem Joined.exists_reduced (h : G.Joined S u w) : ∃ es, G.Reduced S u es w := by
  induction h using Relation.ReflTransGen.head_induction_on with
  | refl => exact ⟨[], .nil w⟩
  | head hlink _ ih =>
    obtain ⟨e, he, hlink⟩ := hlink
    obtain ⟨es, hes⟩ := ih
    by_cases hne : es.head? = some e
    · cases hes with
      | nil => cases hne
      | cons he' hlink' hes' hne' =>
        cases hne
        obtain rfl := hlink'.right_unique hlink.symm
        exact ⟨_, hes'⟩
    · exact ⟨e :: es, .cons he hlink hes hne⟩

theorem Reduced.mem (h : G.Reduced S u es w) : ∀ e ∈ es, e ∈ S ∧ e ∈ G.edgeSet := by
  induction h with
  | nil => exact fun e he => absurd he List.not_mem_nil
  | cons he hlink _ _ ih => exact List.forall_mem_cons.mpr ⟨⟨he, hlink.edge_mem⟩, ih⟩

theorem Reduced.inc_left (h : G.Reduced S u es w) : u = w ∨ ∃ e ∈ es, G.Inc e u := by
  cases h with
  | nil => exact .inl rfl
  | cons _ hlink _ _ => exact .inr ⟨_, List.mem_cons_self, hlink.inc_left⟩

theorem Reduced.inc_right (h : G.Reduced S u es w) : u = w ∨ ∃ e ∈ es, G.Inc e w := by
  induction h with
  | nil => exact .inl rfl
  | cons _ hlink _ _ ih =>
    rcases ih with rfl | ⟨e', he', hinc⟩
    · exact .inr ⟨_, List.mem_cons_self, hlink.inc_right⟩
    · exact .inr ⟨e', List.mem_cons_of_mem _ he', hinc⟩

/-- Each edge of the walk has another one at both of its ends, but for the ends of the walk. -/
theorem Reduced.exists_ne (h : G.Reduced S u es w) {e : β} (he : e ∈ es) (hinc : G.Inc e v) :
    (∃ e' ∈ es, e' ≠ e ∧ G.Inc e' v) ∨ v = u ∨ v = w := by
  induction h with
  | nil => cases he
  | cons _ hlink hes hne ih =>
    rename_i u x w e₁ es _
    by_cases heq : e = e₁
    · subst heq
      rcases hinc.eq_or_eq_of_isLink hlink with rfl | rfl
      · exact .inr (.inl rfl)
      · cases hes with
        | nil => exact .inr (.inr rfl)
        | cons _ hlink' _ _ =>
          refine .inl ⟨_, List.mem_cons_of_mem _ List.mem_cons_self, fun h => hne ?_,
            hlink'.inc_left⟩
          rw [h]
          rfl
    · have hmem := (List.mem_cons.mp he).resolve_left heq
      rcases ih hmem with ⟨e', he', hne', hinc'⟩ | rfl | rfl
      · exact .inl ⟨e', List.mem_cons_of_mem _ he', hne', hinc'⟩
      · exact .inl ⟨e₁, List.mem_cons_self, Ne.symm heq, hlink.inc_right⟩
      · exact .inr (.inr rfl)

/-- An edge between two vertices that are joined without it is on a cycle. -/
theorem hasCycle_of_joined (hV : G.vertexSet.Finite) (h : G.Joined S u w)
    (hlink : G.IsLink e u w) (he : e ∉ S) : G.HasCycle := by
  obtain ⟨es, hes⟩ := h.exists_reduced
  by_cases huw : u = w
  · subst huw
    exact hasCycle_of_isLoopAt hlink
  have hnew : e ∉ es := fun hmem => he (hes.mem e hmem).1
  have hleft := hes.inc_left.resolve_left huw
  have hright := hes.inc_right.resolve_left huw
  refine hasCycle_of_forall_inc hV (S := {x | x ∈ e :: es}) ?_ ⟨e, List.mem_cons_self⟩ ?_
  · exact List.forall_mem_cons.mpr ⟨hlink.edge_mem, fun x hx => (hes.mem x hx).2⟩
  · intro x hx v hinc
    rcases List.mem_cons.mp hx with rfl | hx
    · rcases hinc.eq_or_eq_of_isLink hlink with rfl | rfl
      · obtain ⟨e', he', hinc'⟩ := hleft
        exact ⟨e', List.mem_cons_of_mem _ he', fun h => hnew (h ▸ he'), hinc'⟩
      · obtain ⟨e', he', hinc'⟩ := hright
        exact ⟨e', List.mem_cons_of_mem _ he', fun h => hnew (h ▸ he'), hinc'⟩
    · have hne : e ≠ x := fun h => hnew (h ▸ hx)
      rcases hes.exists_ne hx hinc with ⟨e', he', hne', hinc'⟩ | rfl | rfl
      · exact ⟨e', List.mem_cons_of_mem _ he', hne', hinc'⟩
      · exact ⟨e, List.mem_cons_self, hne, hlink.inc_left⟩
      · exact ⟨e, List.mem_cons_self, hne, hlink.inc_right⟩

end Graph
