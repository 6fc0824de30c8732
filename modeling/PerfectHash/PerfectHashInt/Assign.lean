import PerfectHash.PerfectHashInt
import Mathlib.Data.List.Perm.Subperm
import Mathlib.Data.List.Nodup

/-! # Peeling and assignment

The two phases of `_construct_hash_table`. Peeling lists edges, each at most once if the second
phase does not die on it. The second phase gives the edge `e` an end that no earlier edge has, so
that its two entries add up to `e`, and never changes an entry that an earlier edge has
(`Assigned.step`). -/

namespace PerfectHash.PerfectHashInt

variable {E : List (Nat × Nat)} {nverts n e : Nat} {order : List Nat} {a a' : Assignment}

/-- The ends of an edge. -/
def left (E : List (Nat × Nat)) (e : Nat) : Nat := (E.getD e (0, 0)).1

/-- The ends of an edge. -/
def right (E : List (Nat × Nat)) (e : Nat) : Nat := (E.getD e (0, 0)).2

/-! ## Peeling -/

/-- Every edge number is the number of an edge. -/
structure Peel.Inv (n : Nat) (s : Peel) : Prop where
  vertices : ∀ es ∈ s.V, ∀ e ∈ es, e < n
  order : ∀ e ∈ s.outputOrder, e < n

theorem mem_of_mem_modify {α : Type} {f : α → α} {l : List α} {i : Nat} {x : α}
    (h : x ∈ l.modify i f) : x ∈ l ∨ ∃ y ∈ l, x = f y := by
  obtain ⟨j, hj⟩ := List.mem_iff_getElem?.mp h
  rw [List.getElem?_modify] at hj
  obtain ⟨y, hy, rfl⟩ := Option.map_eq_some_iff.mp hj
  have hmem := List.mem_of_getElem? hy
  split
  · exact .inr ⟨y, hmem, rfl⟩
  · exact .inl hmem

theorem vertices_inv (E : List (Nat × Nat)) (nverts : Nat) :
    Peel.Inv E.length { V := vertices E nverts, outputOrder := [] } := by
  have main (l : List ((Nat × Nat) × Nat)) (hl : ∀ p ∈ l, p.2 < E.length) (V : List (List Nat))
      (hV : ∀ es ∈ V, ∀ e ∈ es, e < E.length) :
      ∀ es ∈ l.foldl (fun V p => (V.modify p.1.1 (·.insert p.2)).modify p.1.2 (·.insert p.2)) V,
        ∀ e ∈ es, e < E.length := by
    induction l generalizing V with
    | nil => exact hV
    | cons p l ih =>
      have hp := hl p List.mem_cons_self
      have hinsert {V : List (List Nat)} (hV : ∀ es ∈ V, ∀ e ∈ es, e < E.length) (i : Nat) :
          ∀ es ∈ V.modify i (·.insert p.2), ∀ e ∈ es, e < E.length := by
        intro es hes e he
        rcases mem_of_mem_modify hes with hes | ⟨es', hes', rfl⟩
        · exact hV es hes e he
        · rcases List.mem_insert_iff.mp he with rfl | he
          · exact hp
          · exact hV es' hes' e he
      exact ih (fun q hq => hl q (List.mem_cons_of_mem _ hq)) _ (hinsert (hinsert hV _) _)
  refine ⟨main _ (fun p hp => ?_) _ fun es hes e he => ?_, nofun⟩
  · obtain ⟨-, hlt, -⟩ := List.mem_zipIdx hp
    simpa using hlt
  · rw [List.eq_of_mem_replicate hes] at he
    cases he

theorem unlink_inv {s s' : Peel} {turns v : Nat} (hs : s.Inv n)
    (h : unlink E turns v s = .ok s') : s'.Inv n := by
  induction turns generalizing v s with
  | zero =>
    unfold unlink at h
    split at h
    · cases h
    · cases h
      exact hs
  | succ turns ih =>
    unfold unlink at h
    split at h
    · rename_i e he
      have hmem : [e] ∈ s.V := by
        rw [List.getD_eq_getElem?_getD] at he
        cases hv : s.V[v]? with
        | none =>
          rw [hv] at he
          cases he
        | some es =>
          rw [hv] at he
          exact he ▸ List.mem_of_getElem? hv
      have herase {V : List (List Nat)} (hV : ∀ es ∈ V, ∀ e ∈ es, e < n) (i : Nat) :
          ∀ es ∈ V.modify i (·.erase e), ∀ e ∈ es, e < n := by
        intro es hes e he
        rcases mem_of_mem_modify hes with hes | ⟨es', hes', rfl⟩
        · exact hV es hes e he
        · exact hV es' hes' e (List.mem_of_mem_erase he)
      refine ih ⟨herase (herase hs.vertices _) _, fun e' he' => ?_⟩ h
      rcases List.mem_cons.mp he' with rfl | he'
      · exact hs.vertices _ hmem _ List.mem_cons_self
      · exact hs.order e' he'
    · cases h
      exact hs

/-- The edges in the output order are edges. -/
theorem peel_lt {s : Peel} (h : peel E nverts = .ok s) : ∀ e ∈ s.outputOrder, e < E.length := by
  have main (vs : List Nat) (s s' : Peel) (hs : s.Inv E.length)
      (h : vs.foldlM (fun s startv => unlink E (2 * E.length) startv s) s = .ok s') :
      s'.Inv E.length := by
    induction vs generalizing s with
    | nil =>
      cases h
      exact hs
    | cons v vs ih =>
      rw [List.foldlM_cons] at h
      obtain ⟨s'', hu, h⟩ := bind_eq_ok.mp h
      exact ih s'' (unlink_inv hs hu) h
  exact (main _ _ _ (vertices_inv E nverts) h).order

/-- As many different edge numbers as there are edges are all of them. -/
theorem perm_range (hnodup : order.Nodup) (hlt : ∀ e ∈ order, e < n) (hlen : order.length = n) :
    order.Perm (List.range n) :=
  (hnodup.subperm fun e he => List.mem_range.mpr (hlt e he)).perm_of_length_le (by simp [hlen])

/-- How many edge numbers the vertices have together. -/
def total (V : List (List Nat)) : Nat := (V.map List.length).sum

theorem total_modify_le (f : List Nat → List Nat) (V : List (List Nat)) (i : Nat) :
    total (V.modify i f) + (V.getD i []).length ≤ total V + (f (V.getD i [])).length := by
  induction V generalizing i with
  | nil => simp [total]
  | cons es V ih =>
    cases i with
    | zero =>
      simp only [total, List.modify_zero_cons, List.map_cons, List.sum_cons, List.getD_cons_zero]
      omega
    | succ i =>
      have := ih i
      simp only [total, List.modify_succ_cons, List.map_cons, List.sum_cons,
        List.getD_cons_succ] at this ⊢
      omega

theorem total_vertices_le (E : List (Nat × Nat)) (nverts : Nat) :
    total (vertices E nverts) ≤ 2 * E.length := by
  have hinsert (V : List (List Nat)) (i e : Nat) :
      total (V.modify i (·.insert e)) ≤ total V + 1 := by
    have htotal : total (V.modify i (·.insert e)) + (V.getD i []).length ≤
        total V + ((V.getD i []).insert e).length := total_modify_le (·.insert e) V i
    have : ((V.getD i []).insert e).length ≤ (V.getD i []).length + 1 := by
      rw [List.length_insert]
      split <;> omega
    omega
  have main (l : List ((Nat × Nat) × Nat)) (V : List (List Nat)) :
      total (l.foldl (fun V p => (V.modify p.1.1 (·.insert p.2)).modify p.1.2 (·.insert p.2)) V) ≤
        total V + 2 * l.length := by
    induction l generalizing V with
    | nil => exact Nat.le_refl _
    | cons p l ih =>
      have h1 := hinsert V p.1.1 p.2
      have h2 := hinsert (V.modify p.1.1 (·.insert p.2)) p.1.2 p.2
      rw [List.foldl_cons, List.length_cons]
      have := ih ((V.modify p.1.1 (·.insert p.2)).modify p.1.2 (·.insert p.2))
      omega
  have hmain := main E.zipIdx (List.replicate nverts [])
  have hzero : total (List.replicate nverts []) = 0 := by simp [total]
  rwa [hzero, Nat.zero_add, List.length_zipIdx] at hmain

/-- The inner loop ends before its turns do: each turn takes an edge number from a vertex. -/
theorem unlink_returns {turns v : Nat} {s : Peel} (h : total s.V ≤ turns) :
    ∃ s', unlink E turns v s = .ok s' ∧ total s'.V ≤ total s.V := by
  induction turns generalizing v s with
  | zero =>
    unfold unlink
    split
    · rename_i e he
      have := total_modify_le (fun _ => []) s.V v
      rw [he, List.length_singleton, List.length_nil] at this
      omega
    · exact ⟨s, rfl, Nat.le_refl _⟩
  | succ turns ih =>
    unfold unlink
    split
    · rename_i e he
      have herase (V : List (List Nat)) (i : Nat) : total (V.modify i (·.erase e)) ≤ total V := by
        have htotal : total (V.modify i (·.erase e)) + (V.getD i []).length ≤
            total V + ((V.getD i []).erase e).length := total_modify_le (·.erase e) V i
        have : ((V.getD i []).erase e).length ≤ (V.getD i []).length := List.length_erase_le
        omega
      have hfirst : total (s.V.modify v (·.erase e)) + 1 ≤ total s.V := by
        have := total_modify_le (·.erase e) s.V v
        rw [he] at this
        simpa using this
      set v2 := if (E.getD e (0, 0)).1 = v then (E.getD e (0, 0)).2 else (E.getD e (0, 0)).1
      have hsecond := herase (s.V.modify v (·.erase e)) v2
      obtain ⟨s', hs', hle⟩ := ih (v := v2)
        (s := ⟨(s.V.modify v (·.erase e)).modify v2 (·.erase e), e :: s.outputOrder⟩)
        (by dsimp only; omega)
      exact ⟨s', hs', by dsimp only at hle; omega⟩
    · exact ⟨s, rfl, Nat.le_refl _⟩

/-- Peeling ends. -/
theorem peel_returns (E : List (Nat × Nat)) (nverts : Nat) : ∃ s, peel E nverts = .ok s := by
  have main (vs : List Nat) (s : Peel) (hs : total s.V ≤ 2 * E.length) :
      ∃ s', vs.foldlM (fun s startv => unlink E (2 * E.length) startv s) s = .ok s' := by
    induction vs generalizing s with
    | nil => exact ⟨s, rfl⟩
    | cons v vs ih =>
      obtain ⟨s', hs', hle⟩ := unlink_returns (v := v) hs
      rw [List.foldlM_cons, hs']
      exact ih s' (hle.trans hs)
  exact main _ _ (total_vertices_le E nverts)

/-! ## Assignment -/

/-- The assignment after the edges of `order`: their ends are frozen with the right sum, every
other entry is 0. -/
structure Assigned (E : List (Nat × Nat)) (nverts : Nat) (order : List Nat) (a : Assignment) :
    Prop where
  length_hashtab : a.hashtab.length = nverts
  length_visited : a.visited.length = nverts
  nodup : order.Nodup
  frozen : ∀ e ∈ order, a.visited.getD (left E e) false ∧ a.visited.getD (right E e) false
  sum : ∀ e ∈ order, a.hashtab.getD (left E e) 0 + a.hashtab.getD (right E e) 0 = e
  unused : ∀ v, a.visited.getD v false = false → a.hashtab.getD v 0 = 0
  count : a.visited.count true ≤ 2 * order.length

/-- The ends of an edge are two different vertices. -/
structure IsEdge (E : List (Nat × Nat)) (nverts e : Nat) : Prop where
  left_lt : left E e < nverts
  right_lt : right E e < nverts
  ne : left E e ≠ right E e

theorem Assigned.start (E : List (Nat × Nat)) (nverts : Nat) :
    Assigned E nverts []
      { hashtab := List.replicate nverts 0, visited := List.replicate nverts false } where
  length_hashtab := List.length_replicate
  length_visited := List.length_replicate
  nodup := List.nodup_nil
  frozen := nofun
  sum := nofun
  unused v _ := by
    rw [List.getD_eq_getElem?_getD, List.getElem?_replicate]
    split <;> rfl
  count := by simp [List.count_replicate]

private theorem getD_set {α : Type} {l : List α} {i j : Nat} {x y : α} :
    (l.set i x).getD j y = if i = j ∧ i < l.length then x else l.getD j y := by
  simp only [List.getD_eq_getElem?_getD, List.getElem?_set]
  by_cases hij : i = j
  · subst hij
    by_cases hi : i < l.length
    · simp [hi]
    · simp [hi]
  · simp [hij]

/-- The second phase goes on with an edge that has an end that is not visited yet. -/
theorem assignEdge_returns
    (h : a.visited.getD (left E e) false = false ∨ a.visited.getD (right E e) false = false) :
    ∃ a', assignEdge E a e = .ok a' := by
  unfold assignEdge
  dsimp only
  split
  · exact ⟨_, rfl⟩
  · rename_i hl
    rw [not_not] at hl
    rcases h with h | h
    · exact absurd (hl.symm.trans h) (by decide)
    · rw [if_neg]
      · exact ⟨_, rfl⟩
      · rw [show a.visited.getD (E.getD e (0, 0)).2 false = false from h]
        decide

/-- Only the ends of the edge become visited. -/
theorem visited_of_assignEdge {v : Nat} (h : assignEdge E a e = .ok a')
    (hv : a'.visited.getD v false = true) :
    a.visited.getD v false = true ∨ left E e = v ∨ right E e = v := by
  have hset : a'.visited = (a.visited.set (left E e) true).set (right E e) true := by
    unfold assignEdge at h
    dsimp only at h
    split at h
    · cases h
      rfl
    · split at h
      · cases h
      · cases h
        rfl
  rw [hset, getD_set, getD_set] at hv
  split at hv
  · rename_i hr
    exact .inr (.inr hr.1)
  · split at hv
    · rename_i hl
      exact .inr (.inl hl.1)
    · exact .inl hv

/-- Marking the ends of an edge as visited. -/
theorem Assigned.visited_iff (h : Assigned E nverts order a) (he : IsEdge E nverts e) (v : Nat) :
    ((a.visited.set (left E e) true).set (right E e) true).getD v false = true ↔
      v = left E e ∨ v = right E e ∨ a.visited.getD v false = true := by
  rw [getD_set, getD_set, List.length_set, h.length_visited]
  by_cases hr : right E e = v
  · subst hr
    simp [he.right_lt]
  · by_cases hl : left E e = v
    · subst hl
      simp [hr, he.left_lt]
    · simp [hr, hl, Ne.symm hr, Ne.symm hl]

theorem Assigned.count_visited_le (h : Assigned E nverts order a) (he : IsEdge E nverts e) :
    ((a.visited.set (left E e) true).set (right E e) true).count true ≤
      a.visited.count true + 2 := by
  have hset (l : List Bool) (i : Nat) (hi : i < l.length) :
      (l.set i true).count true ≤ l.count true + 1 := by
    rw [List.count_set hi]
    simp
  have hl := hset a.visited (left E e) (by rw [h.length_visited]; exact he.left_lt)
  have hr := hset (a.visited.set (left E e) true) (right E e)
    (by rw [List.length_set, h.length_visited]; exact he.right_lt)
  omega

/-- Freezing an edge whose end `x` is free: `x` gets the rest of the sum. -/
theorem Assigned.freeze (h : Assigned E nverts order a) (he : IsEdge E nverts e) {x y : Nat}
    (hxy : x = left E e ∧ y = right E e ∨ x = right E e ∧ y = left E e)
    (hx : a.visited.getD x false = false) :
    Assigned E nverts (e :: order)
      { hashtab := a.hashtab.set x (e - a.hashtab.getD y 0)
        visited := (a.visited.set (left E e) true).set (right E e) true } := by
  have hxlt : x < nverts := by
    rcases hxy with ⟨rfl, -⟩ | ⟨rfl, -⟩
    · exact he.left_lt
    · exact he.right_lt
  have hne : x ≠ y := by
    rcases hxy with ⟨rfl, rfl⟩ | ⟨rfl, rfl⟩
    · exact he.ne
    · exact he.ne.symm
  have hvisited := h.visited_iff he
  have hkeep {v : Nat} (hv : a.visited.getD v false = true) :
      (a.hashtab.set x (e - a.hashtab.getD y 0)).getD v 0 = a.hashtab.getD v 0 := by
    rw [getD_set, if_neg]
    rintro ⟨rfl, -⟩
    rw [hx] at hv
    cases hv
  have hpair : ∀ f : Nat → Int, f (left E e) + f (right E e) = f x + f y := by
    intro f
    rcases hxy with ⟨rfl, rfl⟩ | ⟨rfl, rfl⟩
    · rfl
    · exact Int.add_comm _ _
  have hnew : e ∉ order := fun hmem => by
    obtain ⟨hl, hr⟩ := h.frozen e hmem
    rcases hxy with ⟨rfl, -⟩ | ⟨rfl, -⟩
    · rw [hx] at hl
      cases hl
    · rw [hx] at hr
      cases hr
  refine ⟨by rw [List.length_set, h.length_hashtab],
    by rw [List.length_set, List.length_set, h.length_visited],
    List.nodup_cons.mpr ⟨hnew, h.nodup⟩, fun e' he' => ?_, fun e' he' => ?_, fun v hv => ?_, ?_⟩
  · rw [hvisited, hvisited]
    rcases List.mem_cons.mp he' with rfl | he'
    · exact ⟨.inl rfl, .inr (.inl rfl)⟩
    · exact ⟨.inr (.inr (h.frozen e' he').1), .inr (.inr (h.frozen e' he').2)⟩
  · rcases List.mem_cons.mp he' with rfl | he'
    · rw [hpair fun v => (a.hashtab.set x _).getD v 0, getD_set,
        if_pos ⟨rfl, by rwa [h.length_hashtab]⟩, getD_set, if_neg fun hbad => hne hbad.1]
      omega
    · rw [hkeep (h.frozen e' he').1, hkeep (h.frozen e' he').2]
      exact h.sum e' he'
  · have hnot := mt (hvisited v).mpr (by rw [hv]; decide)
    simp only [not_or] at hnot
    have hxv : x ≠ v := by
      rcases hxy with ⟨rfl, -⟩ | ⟨rfl, -⟩
      · exact Ne.symm hnot.1
      · exact Ne.symm hnot.2.1
    rw [getD_set, if_neg fun hbad => hxv hbad.1]
    exact h.unused v (by simpa using hnot.2.2)
  · have := h.count_visited_le he
    have := h.count
    rw [List.length_cons]
    dsimp only
    omega

/-- One step of the second phase. -/
theorem Assigned.step (h : Assigned E nverts order a) (he : IsEdge E nverts e)
    (hstep : assignEdge E a e = .ok a') : Assigned E nverts (e :: order) a' := by
  unfold assignEdge at hstep
  dsimp only at hstep
  split at hstep
  · rename_i hl
    cases hstep
    exact h.freeze he (.inl ⟨rfl, rfl⟩) (by simpa using hl)
  · split at hstep
    · cases hstep
    · rename_i hr
      cases hstep
      exact h.freeze he (.inr ⟨rfl, rfl⟩) (by simpa using hr)

theorem Assigned.run (h : Assigned E nverts order a) {es : List Nat}
    (hes : ∀ e ∈ es, IsEdge E nverts e) (hrun : es.foldlM (assignEdge E) a = .ok a') :
    Assigned E nverts (es.reverse ++ order) a' := by
  induction es generalizing order a with
  | nil =>
    cases hrun
    exact h
  | cons e es ih =>
    rw [List.foldlM_cons] at hrun
    obtain ⟨a'', hstep, hrun⟩ := bind_eq_ok.mp hrun
    rw [List.reverse_cons, List.append_assoc]
    exact ih (h.step (hes e List.mem_cons_self) hstep)
      (fun e' he' => hes e' (List.mem_cons_of_mem _ he')) hrun

end PerfectHash.PerfectHashInt
