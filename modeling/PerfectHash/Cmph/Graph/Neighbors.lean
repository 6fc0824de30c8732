import PerfectHash.Cmph.Graph.Peel

/-! # Walking over the edges of a vertex

`graph_next_neighbor` goes through the other ends of the edges of a vertex, and `graph_edge_id` finds
an edge between two neighbors. -/

namespace PerfectHash.Cmph

open NextTable PerfectHashInt

variable {g : GraphT} {E : List (Nat × Nat)} {h e i v w turns : Nat} {hs : List Nat}

/-- The neighbor at the half of an edge, and the half behind it. -/
theorem GraphT.Stores.nextNeighbor (hg : g.Stores E) (hfull : E.length = g.nedges)
    (hh : HalfOf E g.nedges h v) (hne : h ≠ empty) (hnext : g.next[h]? = some i) :
    ∃ w, graphNextNeighbor g v h = some (w, i) ∧
      (slotGraph E g.nnodes).IsLink (h % g.nedges) v w := by
  obtain ⟨w, hlink, -⟩ := hg.otherEnd hfull hh
  have hedge : g.edges[h]? = some w ∧ w ≠ v := by
    rcases hh with ⟨w', hw'⟩ | ⟨hle, w', hw'⟩
    · have hlt := (List.getElem?_eq_some_iff.mp hw').1
      rw [Nat.mod_eq_of_lt (by omega)] at hlink
      obtain ⟨hv, -, hvw⟩ := hg.ends h v w' hw'
      have hother := (hg.edges h v w' hw').1
      rcases hlink.2.2 with hw | hw <;> cases hw'.symm.trans hw
      · exact ⟨hother, hvw.symm⟩
      · exact absurd rfl hvw
    · have hlt := (List.getElem?_eq_some_iff.mp hw').1
      rw [Nat.mod_eq_sub_mod hle, Nat.mod_eq_of_lt (by omega)] at hlink
      obtain ⟨-, hv, hvw⟩ := hg.ends _ w' v hw'
      have hother := (hg.edges _ w' v hw').2
      rw [Nat.sub_add_cancel hle] at hother
      rcases hlink.2.2 with hw | hw <;> cases hw'.symm.trans hw
      · exact absurd rfl hvw
      · exact ⟨hother, hvw⟩
  refine ⟨w, ?_, hlink⟩
  rw [graphNextNeighbor, if_neg hne, hedge.1, Option.bind_eq_bind, Option.bind_some,
    if_neg hedge.2, hnext]
  rfl

/-- `check_edge` compares the ends of an edge in both orders. -/
theorem GraphT.Stores.checkEdge (hg : g.Stores E) (hfull : E.length = g.nedges)
    (hh : HalfOf E g.nedges h v) :
    ∃ b, checkEdge g h v w = some b ∧
      (b = true ↔ (slotGraph E g.nnodes).IsLink (h % g.nedges) v w) := by
  have hedge := (mem_edgeSet_slotGraph hg hfull).mp (hg.inc_of_halfOf hfull hh).edge_mem
  have hpos : 0 < g.nedges := by omega
  have hends := getElem?_eq_ends (E := E) (e := h % g.nedges) (by omega)
  obtain ⟨hr, hl⟩ := hg.edges _ _ _ hends
  obtain ⟨hleft, hright, -⟩ := hg.ends _ _ _ hends
  refine ⟨decide (right E (h % g.nedges) = v ∧ left E (h % g.nedges) = w ∨
    right E (h % g.nedges) = w ∧ left E (h % g.nedges) = v), ?_, decide_eq_true_iff.trans ?_⟩
  · rw [Cmph.checkEdge, absEdge_zero hg.lt hpos, absEdge_one hg.lt hpos, hr, hl]
    rfl
  · constructor
    · rintro (⟨rfl, rfl⟩ | ⟨rfl, rfl⟩)
      · exact ⟨hright, hleft, .inr hends⟩
      · exact ⟨hleft, hright, .inl hends⟩
    · rintro ⟨-, -, hlink | hlink⟩
      · cases hends.symm.trans hlink
        exact .inr ⟨rfl, rfl⟩
      · cases hends.symm.trans hlink
        exact .inl ⟨rfl, rfl⟩

theorem graphEdgeIdLoop_spec (hg : g.Stores E) (hfull : E.length = g.nedges)
    (hchain : Chain g.next empty i hs) (hhs : ∀ h ∈ hs, HalfOf E g.nedges h v)
    (hmem : h ∈ hs) (hlink : (slotGraph E g.nnodes).IsLink (h % g.nedges) v w)
    (hturns : hs.length < turns) :
    ∃ e, graphEdgeIdLoop g v w turns i = some e ∧ (slotGraph E g.nnodes).IsLink e v w := by
  induction hs generalizing i turns with
  | nil => cases hmem
  | cons h' hs ih =>
    cases hchain with
    | cons hne hnext hchain =>
      rw [List.length_cons] at hturns
      obtain ⟨turns, rfl⟩ := Nat.exists_eq_succ_of_ne_zero (by omega : turns ≠ 0)
      obtain ⟨hh', hhs⟩ := List.forall_mem_cons.mp hhs
      obtain ⟨b, hcheck, hb⟩ := hg.checkEdge hfull hh' (w := w)
      have hpos : 0 < g.nedges := by
        have := hh'.lt
        omega
      rw [graphEdgeIdLoop, if_neg hne, hcheck, Option.bind_eq_bind, Option.bind_some]
      by_cases hyes : b = true
      · rw [if_pos hyes, absEdge_zero hg.lt hpos]
        exact ⟨_, rfl, hb.mp hyes⟩
      · have htail : h ∈ hs := by
          rcases List.mem_cons.mp hmem with rfl | htail
          · exact absurd (hb.mpr hlink) hyes
          · exact htail
        rw [if_neg hyes, hnext, Option.bind_eq_bind, Option.bind_some]
        exact ih hchain hhs htail (by omega)

/-- `graph_edge_id` finds an edge between two vertices if there is one. -/
theorem GraphT.Stores.edgeId (hg : g.Stores E) (hfull : E.length = g.nedges)
    (hlink : (slotGraph E g.nnodes).IsLink e v w) :
    ∃ e', graphEdgeId g v w = some e' ∧ (slotGraph E g.nnodes).IsLink e' v w := by
  obtain ⟨i, hs, hfirst, hchain, hnodup, hmem⟩ := hg.chain v hlink.left_mem
  obtain ⟨h, hh, rfl⟩ := exists_halfOf hfull hlink.inc_left
  have hlen := hchain.length_le hnodup
  rw [hg.length_next] at hlen
  rw [graphEdgeId, hfirst, Option.bind_eq_bind, Option.bind_some]
  exact graphEdgeIdLoop_spec hg hfull hchain (fun h hh => (hmem h).mp hh) ((hmem h).mpr hh) hlink
    (by omega)

end PerfectHash.Cmph
