import PerfectHash.Cmph.Graph
import PerfectHash.Lib.NextTable
import PerfectHash.PerfectHashInt.Acyclic

/-! # The edges of a graph

What the tables hold after some edges were added (`GraphT.Stores`). -/

namespace PerfectHash.Cmph

open NextTable PerfectHashInt

variable {g : GraphT} {E : List (Nat × Nat)} {n h e v w v1 v2 : Nat}

/-- The half number `h` of an edge, when there are `n` edges, is at the vertex. -/
def HalfOf (E : List (Nat × Nat)) (n h v : Nat) : Prop :=
  (∃ w, E[h]? = some (v, w)) ∨ n ≤ h ∧ ∃ w, E[h - n]? = some (w, v)

theorem getElem?_concat_iff {α : Type} {l : List α} {x y : α} {i : Nat} :
    (l ++ [x])[i]? = some y ↔ l[i]? = some y ∨ i = l.length ∧ x = y := by
  rcases Nat.lt_trichotomy i l.length with hi | rfl | hi
  · rw [List.getElem?_append_left hi]
    simp [hi.ne]
  · rw [List.getElem?_concat_length]
    simp
  · rw [List.getElem?_eq_none (by rw [List.length_append, List.length_singleton]; omega),
      List.getElem?_eq_none (by omega)]
    simp [hi.ne']

theorem halfOf_concat : HalfOf (E ++ [(v1, v2)]) n h v ↔
    HalfOf E n h v ∨ h = E.length ∧ v = v1 ∨ h = E.length + n ∧ v = v2 := by
  simp only [HalfOf, getElem?_concat_iff, Prod.mk.injEq]
  constructor
  · rintro (⟨w, hw | ⟨rfl, rfl, rfl⟩⟩ | ⟨hle, w, hw | ⟨hh, rfl, rfl⟩⟩)
    · exact .inl (.inl ⟨w, hw⟩)
    · exact .inr (.inl ⟨rfl, rfl⟩)
    · exact .inl (.inr ⟨hle, w, hw⟩)
    · exact .inr (.inr ⟨by omega, rfl⟩)
  · rintro ((⟨w, hw⟩ | ⟨hle, w, hw⟩) | ⟨rfl, rfl⟩ | ⟨rfl, rfl⟩)
    · exact .inl ⟨w, .inl hw⟩
    · exact .inr ⟨hle, w, .inl hw⟩
    · exact .inl ⟨v2, .inr ⟨rfl, rfl, rfl⟩⟩
    · exact .inr ⟨by omega, v1, .inr ⟨by omega, rfl, rfl⟩⟩

theorem HalfOf.lt (hh : HalfOf E n h v) :
    h < E.length ∨ n ≤ h ∧ h < E.length + n := by
  rcases hh with ⟨w, hw⟩ | ⟨hn, w, hw⟩
  · exact .inl (List.getElem?_eq_some_iff.mp hw).1
  · have := (List.getElem?_eq_some_iff.mp hw).1
    exact .inr ⟨hn, by omega⟩

/-- The graph has the edges that were added. -/
structure GraphT.Stores (g : GraphT) (E : List (Nat × Nat)) : Prop where
  lt : 2 * g.nedges < 2 ^ 32 - 1
  length_first : g.first.length = g.nnodes
  length_edges : g.edges.length = 2 * g.nedges
  length_next : g.next.length = 2 * g.nedges
  cedges : g.cedges = E.length
  le : E.length ≤ g.nedges
  shrinking : g.shrinking = false
  ends : ∀ e v w : Nat, E[e]? = some (v, w) → v < g.nnodes ∧ w < g.nnodes ∧ v ≠ w
  edges : ∀ e v w : Nat, E[e]? = some (v, w) → g.edges[e]? = some w ∧ g.edges[e + g.nedges]? = some v
  chain : ∀ v < g.nnodes, ∃ i hs, g.first[v]? = some i ∧ Chain g.next empty i hs ∧ hs.Nodup ∧
    ∀ h, h ∈ hs ↔ HalfOf E g.nedges h v

theorem graphNew_stores {nnodes nedges : Nat} (hlt : 2 * nedges < 2 ^ 32 - 1) :
    (graphNew nnodes nedges).Stores [] := by
  have hlen : u32 ((nedges : Int) * 2) = 2 * nedges := u32_of_eq (by omega) (by omega)
  refine ⟨hlt, List.length_replicate, ?_, ?_, rfl, Nat.zero_le _, rfl, fun e v w h => ?_,
    fun e v w h => ?_, fun v hv => ⟨empty, [], ?_, .nil, List.nodup_nil, fun h => ?_⟩⟩
  · exact List.length_replicate.trans hlen
  · exact List.length_replicate.trans hlen
  · cases h
  · cases h
  · exact (List.getElem?_replicate).trans (if_pos hv)
  · refine iff_of_false List.not_mem_nil ?_
    rintro (⟨w, hw⟩ | ⟨-, w, hw⟩) <;> cases hw

/-- Adding an edge between two different vertices. -/
theorem GraphT.Stores.addEdge (hg : g.Stores E) (hv1 : v1 < g.nnodes) (hv2 : v2 < g.nnodes)
    (hne : v1 ≠ v2) (hlt : E.length < g.nedges) :
    ∃ g', graphAddEdge g v1 v2 = some g' ∧ g'.Stores (E ++ [(v1, v2)]) ∧
      g'.nnodes = g.nnodes ∧ g'.nedges = g.nedges := by
  have hbound := hg.lt
  obtain ⟨i1, hs1, hfirst1, hchain1, hnodup1, hmem1⟩ := hg.chain v1 hv1
  obtain ⟨i2, hs2, hfirst2, hchain2, hnodup2, hmem2⟩ := hg.chain v2 hv2
  have hhalf : u32 ((E.length : Int) + g.nedges) = E.length + g.nedges :=
    u32_of_eq (by omega) (by push_cast; rfl)
  have hsucc : u32 ((E.length : Int) + 1) = E.length + 1 :=
    u32_of_eq (by omega) (by push_cast; rfl)
  -- both halves are new
  have hnew {v : Nat} : ¬ HalfOf E g.nedges E.length v := fun hh => by
    have := hh.lt
    omega
  have hnew' {v : Nat} : ¬ HalfOf E g.nedges (E.length + g.nedges) v := fun hh => by
    have := hh.lt
    omega
  have hfirst2' : (g.first.set v1 E.length)[v2]? = some i2 := by
    rw [List.getElem?_set_ne hne, hfirst2]
  have hempty : (empty : Nat) = 2 ^ 32 - 1 := rfl
  let next := (g.next.set E.length i1).set (E.length + g.nedges) i2
  let first := (g.first.set v1 E.length).set v2 (E.length + g.nedges)
  let edges := (g.edges.set E.length v2).set (E.length + g.nedges) v1
  refine ⟨{ g with next, first, edges, cedges := E.length + 1 }, ?_, ?_, rfl, rfl⟩
  · have hlenn := hg.length_next
    have hlene := hg.length_edges
    have hlenf := hg.length_first
    simp only [graphAddEdge, hg.cedges, hg.shrinking, hv1, hv2, hlt, Bool.not_false, and_self,
      if_true, hfirst1, hhalf, hsucc, Option.bind_eq_bind, Option.bind_some]
    rw [write_of_lt (by omega), Option.bind_some, write_of_lt (by omega), Option.bind_some,
      write_of_lt (by omega), Option.bind_some, hfirst2', Option.bind_some,
      write_of_lt (by rw [List.length_set]; omega), Option.bind_some,
      write_of_lt (by rw [List.length_set]; omega), Option.bind_some,
      write_of_lt (by rw [List.length_set]; omega), Option.bind_some]
    rfl
  · refine ⟨hbound, ?_, ?_, ?_, ?_, ?_, hg.shrinking, fun e v w he => ?_, fun e v w he => ?_,
      fun v hv => ?_⟩
    · exact (List.length_set.trans List.length_set).trans hg.length_first
    · exact (List.length_set.trans List.length_set).trans hg.length_edges
    · exact (List.length_set.trans List.length_set).trans hg.length_next
    · rw [List.length_append]
      rfl
    · rw [List.length_append]
      exact hlt
    · rcases getElem?_concat_iff.mp he with he | ⟨-, heq⟩
      · exact hg.ends e v w he
      · cases heq
        exact ⟨hv1, hv2, hne⟩
    · change edges[e]? = some w ∧ edges[e + g.nedges]? = some v
      have hlene := hg.length_edges
      have hget (i : Nat) (hi : i ≠ E.length) (hi' : i ≠ E.length + g.nedges) :
          edges[i]? = g.edges[i]? := by
        rw [List.getElem?_set_ne hi'.symm, List.getElem?_set_ne hi.symm]
      rcases getElem?_concat_iff.mp he with he | ⟨rfl, heq⟩
      · have hlt' := (List.getElem?_eq_some_iff.mp he).1
        obtain ⟨h1, h2⟩ := hg.edges e v w he
        exact ⟨(hget e (by omega) (by omega)).trans h1,
          (hget _ (by omega) (by omega)).trans h2⟩
      · cases heq
        refine ⟨?_, List.getElem?_set_self (by rw [List.length_set]; omega)⟩
        exact (List.getElem?_set_ne (by omega)).trans (List.getElem?_set_self (by omega))
    · have hlenn := hg.length_next
      have hlenf := hg.length_first
      have hfresh {hs : List Nat} {v : Nat} (hmem : ∀ h, h ∈ hs ↔ HalfOf E g.nedges h v) :
          E.length ∉ hs ∧ E.length + g.nedges ∉ hs :=
        ⟨fun hh => hnew ((hmem _).mp hh), fun hh => hnew' ((hmem _).mp hh)⟩
      obtain ⟨i, hs, hfirst, hchain, hnodup, hmem⟩ := hg.chain v hv
      obtain ⟨hf, hf'⟩ := hfresh hmem
      by_cases h1 : v = v1
      · subst h1
        obtain rfl := Option.some.inj (hfirst.symm.trans hfirst1)
        have hpush := hchain.push hf (by omega) (show E.length ≠ empty by omega)
        refine ⟨E.length, E.length :: hs, ?_, hpush.set ?_ i2,
          List.nodup_cons.mpr ⟨hf, hnodup⟩, fun h => ?_⟩
        · exact (List.getElem?_set_ne hne.symm).trans (List.getElem?_set_self (by omega))
        · exact List.not_mem_cons_of_ne_of_not_mem (by omega) hf'
        · rw [List.mem_cons, hmem, halfOf_concat]
          simp only [and_true, hne, and_false, or_false]
          exact or_comm
      · by_cases h2 : v = v2
        · subst h2
          obtain rfl := Option.some.inj (hfirst.symm.trans hfirst2)
          have hpush := (hchain.set hf i1).push hf' (by rw [List.length_set]; omega)
            (show E.length + g.nedges ≠ empty by omega)
          refine ⟨E.length + g.nedges, (E.length + g.nedges) :: hs, ?_, hpush,
            List.nodup_cons.mpr ⟨hf', hnodup⟩, fun h => ?_⟩
          · exact List.getElem?_set_self (by rw [List.length_set]; omega)
          · rw [List.mem_cons, hmem, halfOf_concat]
            simp only [and_true, h1, and_false, false_or]
            exact or_comm
        · refine ⟨i, hs, ?_, (hchain.set hf i1).set hf' i2, hnodup, fun h => ?_⟩
          · rw [List.getElem?_set_ne (Ne.symm h2), List.getElem?_set_ne (Ne.symm h1), hfirst]
          · rw [hmem, halfOf_concat]
            simp only [h1, h2, and_false, or_false]

/-- Adding edges one after the other. -/
theorem GraphT.Stores.addEdges (hg : g.Stores E) {F : List (Nat × Nat)}
    (hF : ∀ p ∈ F, p.1 < g.nnodes ∧ p.2 < g.nnodes ∧ p.1 ≠ p.2)
    (hle : E.length + F.length ≤ g.nedges) :
    ∃ g', F.foldlM (fun g p => graphAddEdge g p.1 p.2) g = some g' ∧ g'.Stores (E ++ F) ∧
      g'.nnodes = g.nnodes ∧ g'.nedges = g.nedges := by
  induction F generalizing g E with
  | nil => exact ⟨g, rfl, by rwa [List.append_nil], rfl, rfl⟩
  | cons p F ih =>
    obtain ⟨⟨h1, h2, hne⟩, hF⟩ := List.forall_mem_cons.mp hF
    rw [List.length_cons] at hle
    obtain ⟨g₁, hadd, hg₁, hn₁, hm₁⟩ := hg.addEdge h1 h2 hne (by omega)
    obtain ⟨g', hadds, hg', hn', hm'⟩ := ih hg₁ (by rwa [hn₁])
      (by rw [List.length_append, List.length_singleton, hm₁]; omega)
    refine ⟨g', ?_, ?_, hn'.trans hn₁, hm'.trans hm₁⟩
    · rw [List.foldlM_cons, hadd, Option.bind_eq_bind, Option.bind_some, hadds]
    · rwa [List.append_assoc, List.singleton_append] at hg'

theorem graphAddEdges_stores {nnodes nedges : Nat} (hlt : 2 * nedges < 2 ^ 32 - 1)
    (hE : ∀ p ∈ E, p.1 < nnodes ∧ p.2 < nnodes ∧ p.1 ≠ p.2) (hle : E.length ≤ nedges) :
    ∃ g, E.foldlM (fun g p => graphAddEdge g p.1 p.2) (graphNew nnodes nedges) = some g ∧
      g.Stores E ∧ g.nnodes = nnodes ∧ g.nedges = nedges :=
  (graphNew_stores hlt).addEdges hE (by rw [List.length_nil, Nat.zero_add]; exact hle)

end PerfectHash.Cmph
