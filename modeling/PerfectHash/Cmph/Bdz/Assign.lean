import PerfectHash.Cmph.Bdz.Queue

/-! # The assigning step of BDZ

The edges get values in the opposite order of their removal, so each edge has a vertex that no earlier
one has. After the loop the values of an edge pick one of its vertices, no two edges the same, and the
values other than 3 are at the vertices that were picked (`assigning_spec`). -/

namespace PerfectHash.Cmph

open HyperPeeling

variable {g : BdzGraph3} {r m n e v a b c x xa xb : Nat} {j : Fin 3} {E : List (Fin 3 → Nat)}
  {p : Fin 3 → Nat} {vals picked done queue : List Nat} {s : Bytes × Bytes} {M : Set Nat}

theorem pick_set (hv : ∀ j, p j ≠ v) : pick (vals.set v x) p = pick vals p := by
  rw [pick, List.getElem?_set_ne (hv 0).symm, List.getElem?_set_ne (hv 1).symm,
    List.getElem?_set_ne (hv 2).symm]
  rfl

/-- The vertex that is picked when the value of one vertex is set. -/
theorem pick_set_self (xs : Fin 3 → Nat) (hlen : v < vals.length) (hv : p j = v)
    (hne : ∀ j', j' ≠ j → p j' ≠ v ∧ vals[p j']? = some (xs j')) (hj : xs j = x)
    (hsum : (xs 0 + xs 1 + xs 2) % 3 = j) : pick (vals.set v x) p = some v := by
  have hget (j' : Fin 3) : (vals.set v x)[p j']? = some (xs j') := by
    by_cases hjj : j' = j
    · rw [hjj, hv, List.getElem?_set_self hlen, hj]
    · rw [List.getElem?_set_ne (hne j' hjj).1.symm, (hne j' hjj).2]
  simp only [pick, hget, Option.bind_eq_bind, Option.bind_some, hsum]
  exact congrArg some hv

/-- What is picked is a vertex of the edge, and has a value. -/
theorem exists_of_pick (h : pick vals p = some v) : ∃ j, p j = v ∧ ∃ x, vals[v]? = some x := by
  simp only [pick, Option.bind_eq_bind, Option.bind_eq_some_iff, Option.pure_def,
    Option.some.injEq] at h
  obtain ⟨x₀, h₀, x₁, h₁, x₂, h₂, rfl⟩ := h
  refine ⟨_, rfl, ?_⟩
  generalize (⟨(x₀ + x₁ + x₂) % 3, _⟩ : Fin 3) = j
  match j with
  | 0 => exact ⟨x₀, h₀⟩
  | 1 => exact ⟨x₁, h₁⟩
  | 2 => exact ⟨x₂, h₂⟩

/-! ## The tables -/

/-- The marks of some vertices, and the vertices with a value other than 3. -/
structure Assigned (n : Nat) (picked : List Nat) (M : Set Nat) (s : Bytes × Bytes) : Prop where
  length_g : s.1.length = sizeG n
  length_marked : s.2.length = n >>> 3 + 1
  marked : ∀ v < n, ∃ b, getBit s.2 v = some b ∧ (b = true ↔ v ∈ M)
  subset : ∀ v ∈ picked, v ∈ M
  value : ∀ v x : Nat, (values s.1)[v]? = some x → (x ≠ 3 ↔ v ∈ picked)

theorem Assigned.lt_length (h : Assigned n picked M s) (hv : v < n) :
    v < (values s.1).length := by
  rw [length_values, h.length_g, sizeG]
  omega

theorem Assigned.three (h : Assigned n picked M s) (hv : v < n) (hM : v ∉ M) :
    (values s.1)[v]? = some 3 := by
  have hget := List.getElem?_eq_getElem (h.lt_length hv)
  have hthree := not_not.mp (mt (h.value v _ hget).mp (mt (h.subset v) hM))
  rwa [hthree] at hget

/-- Marking a vertex whose value was written. -/
theorem Assigned.mark {g' : Bytes} {picked' : List Nat} (h : Assigned n picked M s) (hv : v < n)
    (hlength : g'.length = s.1.length) (hpicked : ∀ v' ∈ picked', v' ∈ picked ∨ v' = v)
    (hvalue : ∀ v x : Nat, (values g')[v]? = some x → (x ≠ 3 ↔ v ∈ picked')) :
    ∃ marked', setBit s.2 v = some marked' ∧ Assigned n picked' (insert v M) (g', marked') := by
  have hroom {v : Nat} (hv : v < n) : v < 8 * s.2.length := by
    rw [h.length_marked, shiftRight_three]
    omega
  obtain ⟨marked', hset, hlen, hbits⟩ := setBit_spec (hroom hv)
  refine ⟨marked', hset, hlength.trans h.length_g, hlen.trans h.length_marked, fun v' hv' => ?_,
    fun v' hv' => ?_, hvalue⟩
  · obtain ⟨b, hb, hiff⟩ := h.marked v' hv'
    rw [getBit_eq] at hb
    by_cases heq : v = v'
    · refine ⟨true, ?_, iff_of_true rfl (heq ▸ Set.mem_insert _ _)⟩
      rw [getBit_eq, hbits, heq, List.getElem?_set_self (by rw [length_byteBits]; exact hroom hv')]
    · refine ⟨b, ?_, hiff.trans (Set.mem_insert_iff.trans (or_iff_right (Ne.symm heq))).symm⟩
      rw [getBit_eq, hbits, List.getElem?_set_ne heq, hb]
  · exact (hpicked v' hv').elim (fun hmem => Set.mem_insert_of_mem v (h.subset v' hmem))
      fun heq => heq ▸ Set.mem_insert _ _

/-- A vertex that gets no value. -/
theorem Assigned.assignOther (h : Assigned n picked M s) (hv : v < n) :
    ∃ s', assignOther v s = some s' ∧ Assigned n picked (insert v M) s' ∧
      values s'.1 = values s.1 := by
  obtain ⟨b, hb, hiff⟩ := h.marked v hv
  rw [Cmph.assignOther, hb]
  cases b with
  | true =>
    refine ⟨s, rfl, ?_, rfl⟩
    rwa [Set.insert_eq_of_mem (hiff.mp rfl)]
  | false =>
    have hM : v ∉ M := mt hiff.mpr Bool.false_ne_true
    obtain ⟨g', hset, hlength, hvalues⟩ := setValue1_three (h.three hv hM)
    obtain ⟨marked', hmark, h'⟩ := h.mark hv hlength (fun v' hv' => .inl hv')
      (fun v' x hx => h.value v' x (hvalues ▸ hx))
    refine ⟨(g', marked'), ?_, h', hvalues⟩
    simp [unassigned, hset, hmark]

/-- A vertex that gets a value. -/
theorem Assigned.assignVertex (h : Assigned n picked M s) (hv : v < n) (hM : v ∉ M)
    (ha : (values s.1)[a]? = some xa) (hb : (values s.1)[b]? = some xb) :
    ∃ s', assignVertex v a b c s = some s' ∧ Assigned n (v :: picked) (insert v M) s' ∧
      values s'.1 = (values s.1).set v ((c - (xa + xb)) % 3) := by
  have hlt : (c - (xa + xb)) % 3 < 3 := Nat.mod_lt _ (by decide)
  obtain ⟨g', hset, hlength, hvalues⟩ := setValue1_spec (h.three hv hM) (hlt.trans (by decide))
  have hvalue (v' x : Nat) (hx : (values g')[v']? = some x) : x ≠ 3 ↔ v' ∈ v :: picked := by
    rw [hvalues] at hx
    by_cases heq : v = v'
    · subst heq
      rw [List.getElem?_set_self (h.lt_length hv)] at hx
      have hx := Option.some.inj hx
      exact iff_of_true (by omega) List.mem_cons_self
    · rw [List.getElem?_set_ne heq] at hx
      rw [List.mem_cons, or_iff_right (Ne.symm heq)]
      exact h.value v' x hx
  obtain ⟨marked', hmark, h'⟩ := h.mark hv hlength
    (fun v' hv' => (List.mem_cons.mp hv').symm) hvalue
  refine ⟨(g', marked'), ?_, h', hvalues⟩
  simp only [Cmph.assignVertex, getValue_eq, ha, hb, Option.bind_eq_bind, Option.bind_some, hset,
    hmark]
  rfl

/-! ## The loop -/

/-- The vertices of some edges. -/
def incidentTo (E : List (Fin 3 → Nat)) (done : List Nat) : Set Nat :=
  {v | ∃ e ∈ done, Incident E e v}

theorem mem_incidentTo_cons (hp : E[e]? = some p) :
    v ∈ incidentTo E (e :: done) ↔ v = p 0 ∨ v = p 1 ∨ v = p 2 ∨ v ∈ incidentTo E done := by
  have hedge : Incident E e v ↔ v = p 0 ∨ v = p 1 ∨ v = p 2 := by
    constructor
    · rintro ⟨q, hq, j, rfl⟩
      obtain rfl := Option.some.inj (hp.symm.trans hq)
      match j with
      | 0 => exact .inl rfl
      | 1 => exact .inr (.inl rfl)
      | 2 => exact .inr (.inr rfl)
    · rintro (rfl | rfl | rfl)
      · exact ⟨p, hp, 0, rfl⟩
      · exact ⟨p, hp, 1, rfl⟩
      · exact ⟨p, hp, 2, rfl⟩
  refine (List.exists_mem_cons_iff _ e done).trans ?_
  rw [hedge, or_assoc, or_assoc]
  rfl

/-- One turn of the loop, for an edge with a vertex that was not marked. -/
theorem Assigned.assignEdge (h : Assigned n picked (incidentTo E done) s) (hp : E[e]? = some p)
    (hlt : ∀ j, p j < n) (hne : ∀ j j', j ≠ j' → p j ≠ p j')
    (hfree : ∃ j, p j ∉ incidentTo E done) :
    ∃ s' j x, assignEdge p s = some s' ∧ p j ∉ incidentTo E done ∧
      Assigned n (p j :: picked) (incidentTo E (e :: done)) s' ∧
      values s'.1 = (values s.1).set (p j) x ∧ pick (values s'.1) p = some (p j) := by
  have hmarks : incidentTo E (e :: done) =
      insert (p 0) (insert (p 1) (insert (p 2) (incidentTo E done))) := Set.ext fun v => by
    simp only [Set.mem_insert_iff, mem_incidentTo_cons hp]
  have hget (j : Fin 3) : ∃ x, (values s.1)[p j]? = some x ∧ x < 4 := by
    have hget := List.getElem?_eq_getElem (h.lt_length (hlt j))
    exact ⟨_, hget, values_lt hget⟩
  obtain ⟨x₀, hx₀, hlt₀⟩ := hget 0
  obtain ⟨x₁, hx₁, hlt₁⟩ := hget 1
  obtain ⟨x₂, hx₂, hlt₂⟩ := hget 2
  obtain ⟨b₀, hb₀, hiff₀⟩ := h.marked (p 0) (hlt 0)
  obtain ⟨b₁, hb₁, hiff₁⟩ := h.marked (p 1) (hlt 1)
  have h01 := hne 0 1 (by decide)
  have h02 := hne 0 2 (by decide)
  have h12 := hne 1 2 (by decide)
  rw [hmarks]
  cases b₀ with
  | false =>
    have hM := mt hiff₀.mpr Bool.false_ne_true
    obtain ⟨s₁, hrun₁, h₁, hvalues₁⟩ := h.assignOther (hlt 1)
    obtain ⟨s₂, hrun₂, h₂, hvalues₂⟩ := h₁.assignOther (hlt 2)
    have hvalues := hvalues₂.trans hvalues₁
    obtain ⟨s', hrun, h', hvalues'⟩ := h₂.assignVertex (c := 6) (hlt 0)
      (by simp only [Set.mem_insert_iff, h01, h02, hM, or_false, not_false_iff])
      (hvalues ▸ hx₁) (hvalues ▸ hx₂)
    rw [hvalues] at hvalues'
    refine ⟨s', 0, _, ?_, hM, ?_, hvalues', ?_⟩
    · rw [Cmph.assignEdge, hb₀]
      simp only [Option.bind_eq_bind, Option.bind_some, hrun₁, hrun₂]
      exact hrun
    · rwa [Set.insert_comm (p 2)] at h'
    · rw [hvalues']
      refine pick_set_self ![(6 - (x₁ + x₂)) % 3, x₁, x₂] (h.lt_length (hlt 0)) rfl
        (fun j' hj' => ?_) rfl ?_
      · match j' with
        | 0 => exact absurd rfl hj'
        | 1 => exact ⟨h01.symm, hx₁⟩
        | 2 => exact ⟨h02.symm, hx₂⟩
      · change ((6 - (x₁ + x₂)) % 3 + x₁ + x₂) % 3 = 0
        omega
  | true =>
    have hM₀ := hiff₀.mp rfl
    cases b₁ with
    | false =>
      have hM := mt hiff₁.mpr Bool.false_ne_true
      obtain ⟨s₂, hrun₂, h₂, hvalues⟩ := h.assignOther (hlt 2)
      obtain ⟨s', hrun, h', hvalues'⟩ := h₂.assignVertex (c := 7) (hlt 1)
        (by simp only [Set.mem_insert_iff, h12, hM, or_false, not_false_iff])
        (hvalues ▸ hx₀) (hvalues ▸ hx₂)
      rw [hvalues] at hvalues'
      refine ⟨s', 1, _, ?_, hM, ?_, hvalues', ?_⟩
      · rw [Cmph.assignEdge, hb₀, Option.bind_eq_bind, Option.bind_some]
        simp only [Option.bind_eq_bind, hb₁, Option.bind_some, hrun₂]
        exact hrun
      · rwa [Set.insert_eq_of_mem (a := p 0)]
        exact Set.mem_insert_of_mem _ (Set.mem_insert_of_mem _ hM₀)
      · rw [hvalues']
        refine pick_set_self ![x₀, (7 - (x₀ + x₂)) % 3, x₂] (h.lt_length (hlt 1)) rfl
          (fun j' hj' => ?_) rfl ?_
        · match j' with
          | 0 => exact ⟨h01, hx₀⟩
          | 1 => exact absurd rfl hj'
          | 2 => exact ⟨h12.symm, hx₂⟩
        · change (x₀ + (7 - (x₀ + x₂)) % 3 + x₂) % 3 = 1
          omega
    | true =>
      have hM₁ := hiff₁.mp rfl
      have hM : p 2 ∉ incidentTo E done := by
        obtain ⟨j, hj⟩ := hfree
        match j with
        | 0 => exact absurd hM₀ hj
        | 1 => exact absurd hM₁ hj
        | 2 => exact hj
      obtain ⟨s', hrun, h', hvalues'⟩ := h.assignVertex (c := 8) (hlt 2) hM hx₀ hx₁
      refine ⟨s', 2, _, ?_, hM, ?_, hvalues', ?_⟩
      · rw [Cmph.assignEdge, hb₀, Option.bind_eq_bind, Option.bind_some]
        simp only [Option.bind_eq_bind, hb₁, Option.bind_some]
        exact hrun
      · rwa [Set.insert_eq_of_mem (a := p 0), Set.insert_eq_of_mem (a := p 1)]
        · exact Set.mem_insert_of_mem _ hM₁
        · exact Set.mem_insert_of_mem _ (Set.mem_insert_of_mem _ hM₀)
      · rw [hvalues']
        refine pick_set_self ![x₀, x₁, (8 - (x₀ + x₁)) % 3] (h.lt_length (hlt 2)) rfl
          (fun j' hj' => ?_) rfl ?_
        · match j' with
          | 0 => exact ⟨h02, hx₀⟩
          | 1 => exact ⟨h12, hx₁⟩
          | 2 => exact absurd rfl hj'
        · change (x₀ + x₁ + (8 - (x₀ + x₁)) % 3) % 3 = 2
          omega

/-- Some edges are assigned, each with a vertex that it picks. -/
structure Assigning (n : Nat) (E : List (Fin 3 → Nat)) (done picked : List Nat) (s : Bytes × Bytes) :
    Prop where
  assigned : Assigned n picked (incidentTo E done) s
  nodup : picked.Nodup
  picks : List.Forall₂ (fun e v => ∃ p, E[e]? = some p ∧ pick (values s.1) p = some v) done picked

theorem Assigning.start (n : Nat) (E : List (Fin 3 → Nat)) :
    Assigning n E [] [] (List.replicate (sizeG n) 0xff, List.replicate (n >>> 3 + 1) 0) := by
  refine ⟨⟨List.length_replicate, List.length_replicate, fun v hv => ⟨false, ?_, ?_⟩,
    fun v hv => absurd hv List.not_mem_nil, fun v x hx => ?_⟩, List.nodup_nil, .nil⟩
  · refine getBit_replicate ?_
    rw [shiftRight_three, shiftRight_three]
    omega
  · refine iff_of_false Bool.false_ne_true ?_
    rintro ⟨e, he, -⟩
    cases he
  · refine iff_of_false (not_not.mpr ?_) List.not_mem_nil
    rw [getElem?_values, List.getElem?_replicate] at hx
    split at hx
    · have hall : ∀ i : Fin 4, 255 / 4 ^ (i : Nat) % 4 = 3 := by decide
      rw [← Option.some.inj hx]
      exact hall ⟨v % 4, Nat.mod_lt _ (by decide)⟩
    · cases hx

theorem Assigning.step (h : Assigning n E done picked s) (hp : E[e]? = some p)
    (hlt : ∀ j, p j < n) (hne : ∀ j j', j ≠ j' → p j ≠ p j')
    (hfree : ∃ j, p j ∉ incidentTo E done) :
    ∃ s' v, assignEdge p s = some s' ∧ Assigning n E (e :: done) (v :: picked) s' := by
  obtain ⟨s', j, x, hrun, hM, hassigned, hvalues, hpick⟩ := h.assigned.assignEdge hp hlt hne hfree
  refine ⟨s', p j, hrun, hassigned, List.nodup_cons.mpr ⟨?_, h.nodup⟩, .cons ⟨p, hp, hpick⟩ ?_⟩
  · exact fun hmem => hM (h.assigned.subset _ hmem)
  · have hpicks := (List.forall₂_and_left (p := fun e' => e' ∈ done) done picked).mpr
      ⟨fun _ => id, h.picks⟩
    refine hpicks.imp ?_
    rintro e' v ⟨hmem, q, hq, hv⟩
    refine ⟨q, hq, ?_⟩
    rw [hvalues, pick_set, hv]
    exact fun j' heq => hM ⟨e', hmem, q, hq, j', heq⟩

theorem assigning_run (later rest : List Nat) (hg : g.Stores r m E) (hm : E.length = m)
    (h : Assigning (3 * r) E later.reverse picked s)
    (hleaf : LeafOrder (Incident E) {e | e < m} (later ++ rest)) (hnodup : (later ++ rest).Nodup)
    (hlt : ∀ e ∈ later ++ rest, e < m) :
    ∃ s' picked', rest.foldlM (fun s e => do assignEdge (← g.edges[e]?).vertices s) s = some s' ∧
      Assigning (3 * r) E (later ++ rest).reverse picked' s' := by
  induction rest generalizing later picked s with
  | nil =>
    refine ⟨s, picked, rfl, ?_⟩
    rwa [List.append_nil]
  | cons e rest ih =>
    have he := hlt e (List.mem_append_right later List.mem_cons_self)
    have hp := List.getElem?_eq_getElem (hm ▸ he)
    generalize E[e] = p at hp
    have hcorners := hg.corners p (List.mem_of_getElem? hp)
    obtain ⟨edge, hedge, rfl⟩ := hg.vertices e p hp
    obtain ⟨v, ⟨q, hq, j, rfl⟩, hfree⟩ := exists_notMem_of_suffix hleaf hlt rfl hnodup
    obtain rfl := Option.some.inj (hp.symm.trans hq)
    obtain ⟨s', v, hrun, h'⟩ := h.step hp (fun j => lt_of_div_eq hg.pos (hcorners j))
      (fun j j' hj => hcorners.ne (hcorners j') hj) ⟨j, by
        rintro ⟨e', he', hinc⟩
        exact hfree e' (List.mem_reverse.mp he') hinc⟩
    rw [← List.reverse_concat] at h'
    rw [← List.singleton_append, ← List.append_assoc] at hleaf hnodup hlt ⊢
    obtain ⟨s'', picked', hrun', h''⟩ := ih (later ++ [e]) h' hleaf hnodup hlt
    refine ⟨s'', picked', ?_, h''⟩
    rw [List.singleton_append, List.foldlM_cons, hedge]
    simp only [Option.bind_eq_bind, Option.bind_some, hrun]
    exact hrun'

/-- When all edges are in the queue, each of them picks a vertex of its own, and the table has values
other than 3 at these vertices. -/
theorem assigning_spec (hg : g.Stores r m E) (hm : E.length = m)
    (hleaf : LeafOrder (Incident E) {e | e < m} queue.reverse) (hnodup : queue.Nodup)
    (hlt : ∀ e ∈ queue, e < m) (hlen : queue.length = m) :
    ∃ table picked, assigning (3 * r) g queue = some table ∧ table.length = sizeG (3 * r) ∧
      picked.Nodup ∧ (∀ v x : Nat, (values table)[v]? = some x → (x ≠ 3 ↔ v ∈ picked)) ∧
      List.Forall₂ (fun e v => ∃ p, E[e]? = some p ∧ pick (values table) p = some v) queue picked := by
  obtain ⟨⟨table, marked⟩, picked, hrun, h⟩ := assigning_run [] queue.reverse hg hm
    (Assigning.start (3 * r) E) hleaf (List.nodup_reverse.mpr hnodup)
    (fun e he => hlt e (List.mem_reverse.mp he))
  rw [List.nil_append, List.reverse_reverse] at h
  refine ⟨table, picked, ?_, h.assigned.length_g, h.nodup, h.assigned.value, h.picks⟩
  have hfold {σ : Type} (step : σ → Nat → Option σ) (s : σ) :
      (List.range queue.length).reverse.foldlM (fun s i => do step s (← queue[i]?)) s =
        queue.reverse.foldlM step s := by
    let read (s : σ) (o : Option Nat) : Option σ := do step s (← o)
    have hmap : ((List.range queue.length).reverse.map fun i => queue[i]?).foldlM read s =
        (List.range queue.length).reverse.foldlM (fun s i => read s queue[i]?) s := List.foldlM_map
    rw [List.map_reverse, map_getElem?_range, ← List.map_reverse, List.foldlM_map] at hmap
    exact hmap.symm
  rw [assigning, hg.nedges, hm, ← hlen, hfold, hrun]
  rfl

end PerfectHash.Cmph
