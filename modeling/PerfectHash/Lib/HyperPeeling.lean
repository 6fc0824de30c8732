import Mathlib.Data.List.Basic
import Mathlib.Data.Set.Basic

/-! # Peeling a hypergraph

Edges with any number of vertices are removed one after the other. Each of them had a vertex that no
other edge had that was left. What cannot be removed is a core (`forall_mem_iff`), and edges that were
all removed can get different vertices, the last removed edge first (`exists_notMem_of_suffix`). -/

namespace HyperPeeling

variable {α β : Type*} {Inc : β → α → Prop} {E S : Set β} {order rest : List β} {e : β} {v : α}

/-- Some edges were removed, the last one first: each had a vertex that was on no other edge that
was left then. -/
def LeafOrder (Inc : β → α → Prop) (E : Set β) (order : List β) : Prop :=
  ∀ e rest, e :: rest <:+ order → ∃ v, Inc e v ∧ ∀ e' ∈ E, e' ∉ e :: rest → ¬ Inc e' v

/-- Edges each of which has only vertices that are on another one of them. -/
structure IsCore (Inc : β → α → Prop) (E S : Set β) : Prop where
  subset : S ⊆ E
  nonempty : S.Nonempty
  exists_ne : ∀ e ∈ S, ∀ v, Inc e v → ∃ e' ∈ S, e' ≠ e ∧ Inc e' v

theorem LeafOrder.nil (Inc : β → α → Prop) (E : Set β) : LeafOrder Inc E [] :=
  fun _ _ h => absurd (List.suffix_nil.mp h) (List.cons_ne_nil _ _)

/-- An edge with a vertex of its own is removed. -/
theorem LeafOrder.cons (h : LeafOrder Inc E order) (hv : Inc e v)
    (hleaf : ∀ e' ∈ E, e' ∉ order → Inc e' v → e' = e) : LeafOrder Inc E (e :: order) := by
  intro e' rest hsuffix
  rcases List.suffix_cons_iff.mp hsuffix with heq | hsuffix
  · cases heq
    refine ⟨v, hv, fun e' he' hnew hinc => hnew ?_⟩
    rw [hleaf e' he' (fun hmem => hnew (List.mem_cons_of_mem _ hmem)) hinc]
    exact List.mem_cons_self
  · exact h e' rest hsuffix

/-- No edge of a core is removed. -/
theorem IsCore.notMem (hS : IsCore Inc E S) (h : LeafOrder Inc E order) : ∀ e ∈ S, e ∉ order := by
  induction order with
  | nil => exact fun _ _ => List.not_mem_nil
  | cons e' rest ih =>
    have ih := ih fun e rest' hsuffix => h e rest' (hsuffix.trans (List.suffix_cons e' rest))
    intro e he
    refine List.not_mem_cons_of_ne_of_not_mem ?_ (ih e he)
    rintro rfl
    obtain ⟨v, hinc, hleaf⟩ := h e rest List.suffix_rfl
    obtain ⟨e'', he'', hne, hinc''⟩ := hS.exists_ne e he v hinc
    exact hleaf e'' (hS.subset he'') (List.not_mem_cons_of_ne_of_not_mem hne (ih e'' he'')) hinc''

/-- When no vertex has a single edge left, all edges were removed exactly if there is no core. -/
theorem forall_mem_iff (h : LeafOrder Inc E order)
    (hend : ∀ e ∈ E, e ∉ order → ∀ v, Inc e v → ∃ e' ∈ E, e' ∉ order ∧ e' ≠ e ∧ Inc e' v) :
    (∀ e ∈ E, e ∈ order) ↔ ¬ ∃ S, IsCore Inc E S := by
  constructor
  · rintro hall ⟨S, hS⟩
    obtain ⟨e, he⟩ := hS.nonempty
    exact hS.notMem h e he (hall e (hS.subset he))
  · intro hcore e he
    by_contra hleft
    refine hcore ⟨{e | e ∈ E ∧ e ∉ order}, fun e he => he.1, ⟨e, he, hleft⟩, ?_⟩
    rintro e ⟨he, hleft⟩ v hinc
    obtain ⟨e', he', hleft', hne, hinc'⟩ := hend e he hleft v hinc
    exact ⟨e', ⟨he', hleft'⟩, hne, hinc'⟩

/-- When all edges were removed, each edge has a vertex that is on no edge that was removed later. -/
theorem exists_notMem_of_suffix (h : LeafOrder Inc E order) (hsub : ∀ e ∈ order, e ∈ E)
    {later : List β} (horder : later ++ e :: rest = order) (hnodup : order.Nodup) :
    ∃ v, Inc e v ∧ ∀ e' ∈ later, ¬ Inc e' v := by
  subst horder
  obtain ⟨v, hinc, hleaf⟩ := h e rest (List.suffix_append later _)
  refine ⟨v, hinc, fun e' he' => hleaf e' (hsub e' (List.mem_append_left _ he')) fun hmem => ?_⟩
  exact (List.nodup_append.mp hnodup).2.2 e' he' e' hmem rfl

end HyperPeeling
