import PerfectHash.Lib.Peeling

/-! # Vertices that were visited along walks

A search visits the vertices of a multigraph over the edges of a set `S`. What it has visited from a
root is joined to the root by them (`Grown`), and between two searches no edge leads out of what was
visited (`Explored`). When there is no cycle, all edges of what was explored are in `S`. -/

namespace Graph

variable {α β : Type*} {G : Graph α β} {S T : Set β} {D V W : Set α} {r u v w : α} {e : β}

theorem Joined.of_mem (he : e ∈ S) (hlink : G.IsLink e u v) : G.Joined S u v :=
  .single ⟨e, he, hlink⟩

theorem Joined.trans (h : G.Joined S u v) (h' : G.Joined S v w) : G.Joined S u w :=
  Relation.ReflTransGen.trans h h'

/-- What was visited in searches that have ended. -/
structure Explored (G : Graph α β) (S : Set β) (V : Set α) : Prop where
  closed : ∀ e u v, G.IsLink e u v → u ∈ V → v ∈ V
  joined : ∀ e u v, G.IsLink e u v → u ∈ V → G.Joined S u v

/-- What was visited from the root, and before. -/
structure Grown (G : Graph α β) (S : Set β) (D : Set α) (r : α) (V : Set α) : Prop where
  subset : D ⊆ V
  joined : ∀ v ∈ V, v ∉ D → G.Joined S r v

theorem Explored.empty : G.Explored S ∅ := ⟨fun _ _ _ _ h => h.elim, fun _ _ _ _ h => h.elim⟩

theorem Grown.start (S : Set β) (D : Set α) (r : α) : G.Grown S D r (insert r D) where
  subset := Set.subset_insert r D
  joined v hv hnew := by
    obtain rfl := hv.resolve_right hnew
    exact .refl

/-- An unvisited vertex is visited over an edge of the set. -/
theorem Grown.insert (h : G.Grown S D r V) (hST : S ⊆ T) (hv : v ∈ V) (hvD : v ∉ D) (he : e ∈ T)
    (hlink : G.IsLink e v w) : G.Grown T D r (insert w V) where
  subset := h.subset.trans (Set.subset_insert w V)
  joined u hu hnew := by
    rcases hu with rfl | hu
    · exact ((h.joined v hv hvD).mono hST).trans (.of_mem he hlink)
    · exact (h.joined u hu hnew).mono hST

/-- A search has ended when no edge leads out of what it has visited. -/
theorem Grown.explored (h : G.Grown S D r V) (hD : G.Explored T D) (hTS : T ⊆ S)
    (hclosed : ∀ e u v, G.IsLink e u v → u ∈ V → u ∉ D → v ∈ V) : G.Explored S V where
  closed e u v hlink hu := by
    by_cases huD : u ∈ D
    · exact h.subset (hD.closed e u v hlink huD)
    · exact hclosed e u v hlink hu huD
  joined e u v hlink hu := by
    by_cases huD : u ∈ D
    · exact (hD.joined e u v hlink huD).mono hTS
    · have hvD : v ∉ D := fun hv => huD (hD.closed e v u hlink.symm hv)
      exact (h.joined u hu huD).symm.trans (h.joined v (hclosed e u v hlink hu huD) hvD)

/-- Without cycles the searches have gone over all edges. -/
theorem Explored.mem_of_not_hasCycle (h : G.Explored S V) (hV : G.vertexSet.Finite)
    (hcycle : ¬ G.HasCycle) (hlink : G.IsLink e u v) (hu : u ∈ V) : e ∈ S := by
  by_contra he
  exact hcycle (hasCycle_of_joined hV (h.joined e u v hlink hu) hlink he)

end Graph
