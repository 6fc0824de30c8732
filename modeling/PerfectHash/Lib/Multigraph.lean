import Mathlib.Combinatorics.Graph.Basic
import Mathlib.Order.Preorder.Finite

/-! # Cycles and leaf orders of multigraphs

A graph is taken apart by removing one leaf edge after the other, where an edge is a leaf edge if no
other edge that is left has one of its ends. No edge of a cycle is ever removed
(`Cycle.notMem_of_leafOrder`), and where edges are left but none of them is a leaf edge there is a
cycle (`hasCycle_of_forall_inc`). -/

namespace Graph

variable {α β : Type*} {G : Graph α β} {e : β} {v : α} {order : List β}

/-- A closed walk that repeats neither a vertex nor an edge. A loop is a cycle of length 1, and two
parallel edges are one of length 2. -/
structure Cycle (G : Graph α β) where
  length : ℕ
  pos : 0 < length
  vertex : ℕ → α
  edge : ℕ → β
  isLink : ∀ i < length, G.IsLink (edge i) (vertex i) (vertex (i + 1))
  closed : vertex length = vertex 0
  vertex_injOn : Set.InjOn vertex (Set.Iio length)
  edge_injOn : Set.InjOn edge (Set.Iio length)

def HasCycle (G : Graph α β) : Prop := Nonempty G.Cycle

/-- The list holds the removed edges, the last one first: each had an end that no other edge had
that was left then. -/
def LeafOrder (G : Graph α β) (order : List β) : Prop :=
  ∀ e rest, e :: rest <:+ order →
    ∃ v, G.Inc e v ∧ ∀ e', e' ∉ e :: rest → ¬ G.Inc e' v

theorem hasCycle_of_isLoopAt (h : G.IsLoopAt e v) : G.HasCycle :=
  ⟨1, Nat.one_pos, fun _ => v, fun _ => e, fun _ _ => h, rfl,
    fun i hi j hj _ => by rw [Set.mem_Iio] at hi hj; omega,
    fun i hi j hj _ => by rw [Set.mem_Iio] at hi hj; omega⟩

theorem hasCycle_of_parallel {x y : α} {e' : β} (hne : e ≠ e') (h : G.IsLink e x y)
    (h' : G.IsLink e' x y) : G.HasCycle := by
  by_cases hxy : x = y
  · subst hxy
    exact hasCycle_of_isLoopAt h
  · refine ⟨2, Nat.two_pos, fun i => if i = 1 then y else x, fun i => if i = 0 then e else e',
      fun i hi => ?_, rfl, fun i hi j hj hij => ?_, fun i hi j hj hij => ?_⟩
    · obtain rfl | rfl : i = 0 ∨ i = 1 := by omega
      · exact h
      · exact h'.symm
    · rw [Set.mem_Iio] at hi hj
      dsimp only at hij
      split at hij <;> split at hij
      · omega
      · exact absurd hij.symm hxy
      · exact absurd hij hxy
      · omega
    · rw [Set.mem_Iio] at hi hj
      dsimp only at hij
      split at hij <;> split at hij
      · omega
      · exact absurd hij hne
      · exact absurd hij.symm hne
      · omega

/-! ## Leaf edges are not on a cycle -/

/-- In a graph without loops each end of an edge of a cycle has another edge of the cycle. -/
theorem Cycle.exists_ne (c : G.Cycle) (hloop : ∀ e v, ¬ G.IsLoopAt e v) {i : ℕ} (hi : i < c.length)
    (hv : G.Inc (c.edge i) v) :
    ∃ j < c.length, c.edge j ≠ c.edge i ∧ G.Inc (c.edge j) v := by
  have hlength : 2 ≤ c.length := by
    have hpos := c.pos
    by_contra hlt
    have hone : c.length = 1 := by omega
    have hlink := c.isLink 0 hpos
    rw [show 0 + 1 = c.length by omega, c.closed] at hlink
    exact hloop _ _ hlink
  have hne {j : ℕ} (hj : j < c.length) (hij : j ≠ i) : c.edge j ≠ c.edge i :=
    fun h => hij (c.edge_injOn hj hi h)
  rcases hv.eq_or_eq_of_isLink (c.isLink i hi) with rfl | rfl
  · rcases Nat.eq_zero_or_pos i with rfl | hpos
    · refine ⟨c.length - 1, by omega, hne (by omega) (by omega), ?_⟩
      have hlink := (c.isLink (c.length - 1) (by omega)).inc_right
      rwa [show c.length - 1 + 1 = c.length by omega, c.closed] at hlink
    · refine ⟨i - 1, by omega, hne (by omega) (by omega), ?_⟩
      have hlink := (c.isLink (i - 1) (by omega)).inc_right
      rwa [show i - 1 + 1 = i by omega] at hlink
  · rcases Nat.lt_or_ge (i + 1) c.length with hlt | hge
    · exact ⟨i + 1, hlt, hne hlt (by omega), (c.isLink _ hlt).inc_left⟩
    · refine ⟨0, c.pos, hne c.pos (by omega), ?_⟩
      rw [show i + 1 = c.length by omega, c.closed]
      exact (c.isLink 0 c.pos).inc_left

theorem Cycle.notMem_of_leafOrder (c : G.Cycle) (hloop : ∀ e v, ¬ G.IsLoopAt e v)
    (h : G.LeafOrder order) : ∀ i < c.length, c.edge i ∉ order := by
  induction order with
  | nil => exact fun _ _ => List.not_mem_nil
  | cons e rest ih =>
    have ih := ih fun e' rest' hsuffix => h e' rest' (hsuffix.trans (List.suffix_cons e rest))
    intro i hi hmem
    rcases List.mem_cons.mp hmem with rfl | hmem
    · obtain ⟨v, hv, hleaf⟩ := h _ rest List.suffix_rfl
      obtain ⟨j, hj, hne, hinc⟩ := c.exists_ne hloop hi hv
      exact hleaf _ (List.not_mem_cons_of_ne_of_not_mem hne (ih j hj)) hinc
    · exact ih i hi hmem

/-! ## Where no edge is a leaf edge there is a cycle -/

/-- A walk that never goes back over the edge it came by. -/
theorem exists_walk {S : Set β} (hS : ∀ e ∈ S, e ∈ G.edgeSet) (hne : S.Nonempty)
    (h : ∀ e ∈ S, ∀ v, G.Inc e v → ∃ e' ∈ S, e' ≠ e ∧ G.Inc e' v) :
    ∃ (vertex : ℕ → α) (edge : ℕ → β), ∀ i,
      G.IsLink (edge i) (vertex i) (vertex (i + 1)) ∧ edge (i + 1) ≠ edge i := by
  have hnext (p : {p : α × β // p.2 ∈ S ∧ G.Inc p.2 p.1}) :
      ∃ q : {p : α × β // p.2 ∈ S ∧ G.Inc p.2 p.1},
        G.IsLink p.1.2 p.1.1 q.1.1 ∧ q.1.2 ≠ p.1.2 := by
    obtain ⟨⟨v, e⟩, he, w, hlink⟩ := p
    obtain ⟨e', he', hne, hinc⟩ := h e he w hlink.inc_right
    exact ⟨⟨(w, e'), he', hinc⟩, hlink, hne⟩
  choose next hnext using hnext
  obtain ⟨e, he⟩ := hne
  obtain ⟨v, w, hlink⟩ := exists_isLink_of_mem_edgeSet (hS e he)
  let state (n : ℕ) := next^[n] ⟨(v, e), he, hlink.inc_left⟩
  refine ⟨fun n => (state n).1.1, fun n => (state n).1.2, fun i => ?_⟩
  dsimp only [state]
  rw [Function.iterate_succ_apply']
  exact hnext _

/-- A walk that does not go back over its edges and visits finitely many vertices closes a cycle at
the first vertex that it visits again. -/
theorem hasCycle_of_walk (hV : G.vertexSet.Finite) {vertex : ℕ → α} {edge : ℕ → β}
    (h : ∀ i, G.IsLink (edge i) (vertex i) (vertex (i + 1)) ∧ edge (i + 1) ≠ edge i) :
    G.HasCycle := by
  classical
  have hrepeat : ∃ j, ∃ i < j, vertex i = vertex j := by
    obtain ⟨i, j, hij, heq⟩ :=
      Set.Finite.exists_lt_map_eq_of_forall_mem (fun i => (h i).1.left_mem) hV
    exact ⟨j, i, hij, heq⟩
  obtain ⟨i, hij, heq⟩ := Nat.find_spec hrepeat
  have hfirst {a b : ℕ} (hab : a < b) (hb : b < Nat.find hrepeat) : vertex a ≠ vertex b :=
    fun hv => Nat.find_min hrepeat hb ⟨a, hab, hv⟩
  generalize Nat.find hrepeat = j at hij heq hfirst
  have hinj {a b : ℕ} (ha : a < j) (hb : b < j) (hv : vertex a = vertex b) : a = b := by
    rcases Nat.lt_trichotomy a b with hab | rfl | hab
    · exact absurd hv (hfirst hab hb)
    · rfl
    · exact absurd hv.symm (hfirst hab ha)
  -- two different edges with the same ends would be next to each other
  have hedge {a b : ℕ} (hab : a < b) (hb : b < j) : edge a ≠ edge b := by
    intro he
    have hlink := (h a).1
    rw [he] at hlink
    rcases ((h b).1.left_eq_or_eq hlink) with hv | hv
    · exact hfirst hab hb hv.symm
    · rcases Nat.lt_or_ge (a + 1) b with hlt | hge
      · exact hfirst hlt hb hv.symm
      · obtain rfl : b = a + 1 := by omega
        exact (h a).2 he.symm
  refine ⟨j - i, by omega, fun k => vertex (i + k), fun k => edge (i + k),
    fun k _ => (h (i + k)).1, ?_, fun a ha b hb hv => ?_, fun a ha b hb he => ?_⟩
  · rw [show i + (j - i) = j by omega]
    exact heq.symm
  · rw [Set.mem_Iio] at ha hb
    have := hinj (show i + a < j by omega) (show i + b < j by omega) hv
    omega
  · rw [Set.mem_Iio] at ha hb
    by_contra hab
    rcases Nat.lt_or_gt_of_ne hab with hab | hab
    · exact hedge (show i + a < i + b by omega) (by omega) he
    · exact hedge (show i + b < i + a by omega) (by omega) he.symm

theorem hasCycle_of_forall_inc (hV : G.vertexSet.Finite) {S : Set β} (hS : ∀ e ∈ S, e ∈ G.edgeSet)
    (hne : S.Nonempty) (h : ∀ e ∈ S, ∀ v, G.Inc e v → ∃ e' ∈ S, e' ≠ e ∧ G.Inc e' v) :
    G.HasCycle := by
  obtain ⟨vertex, edge, hwalk⟩ := exists_walk hS hne h
  exact hasCycle_of_walk hV hwalk

end Graph
