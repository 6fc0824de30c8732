import PerfectHash.Cmph.Bdz.Graph3
import PerfectHash.Lib.HyperPeeling

/-! # The queue of BDZ

The queue has each edge at most once. The edges in front of `queue_tail` are removed in its order, and
each vertex that has a single edge left has that edge in the queue (`Removing`). At the end the edges
outside the queue are a core of the hypergraph (`bdzGenerateQueue_spec`). -/

namespace PerfectHash.Cmph

open HyperPeeling

variable {g g' : BdzGraph3} {r m e v i tail turns : Nat} {j : Fin 3} {E : List (Fin 3 → Nat)}
  {p : Fin 3 → Nat} {removed : List Nat} {queue : List Nat × Bytes}

/-! ## Marks -/

/-- The edges in the queue are marked. -/
structure Queued (m : Nat) (queue : List Nat × Bytes) : Prop where
  nodup : queue.1.Nodup
  lt : ∀ e ∈ queue.1, e < m
  room : m ≤ 8 * queue.2.length
  marked : ∀ e < m, getBit queue.2 e = some (decide (e ∈ queue.1))

theorem Queued.length_le (h : Queued m queue) : queue.1.length ≤ m := by
  have hle := (h.nodup.subperm fun e he => List.mem_range.mpr (h.lt e he)).length_le
  rwa [List.length_range] at hle

theorem Queued.start (m : Nat) : Queued m ([], List.replicate (m >>> 3 + 1) 0) := by
  have hroom : m < 8 * (m >>> 3 + 1) := by
    rw [shiftRight_three]
    omega
  refine ⟨List.nodup_nil, fun e he => absurd he List.not_mem_nil, ?_, fun e he => ?_⟩
  · rw [List.length_replicate]
    exact hroom.le
  · have hlt : e >>> 3 < m >>> 3 + 1 := by
      rw [shiftRight_three, shiftRight_three]
      omega
    rw [getBit_replicate hlt]
    simp

/-- Putting an edge into the queue. -/
theorem Queued.push (h : Queued m queue) (he : e < m) :
    ∃ queue', bdzPush m queue e = some queue' ∧ Queued m queue' ∧ queue.1 <+: queue'.1 ∧
      e ∈ queue'.1 ∧ ∀ e' ∈ queue'.1, e' ∈ queue.1 ∨ e' = e := by
  obtain ⟨queue, marks⟩ := queue
  rw [bdzPush, h.marked e he]
  by_cases hmem : e ∈ queue
  · refine ⟨(queue, marks), ?_, h, List.prefix_rfl, hmem, fun e' he' => .inl he'⟩
    simp [hmem]
  · have hlen : (e :: queue).length ≤ (List.range m).length :=
      ((List.nodup_cons.mpr ⟨hmem, h.nodup⟩).subperm fun e' he' => List.mem_range.mpr
        ((List.mem_cons.mp he').elim (fun heq => heq ▸ he) (h.lt e'))).length_le
    rw [List.length_cons, List.length_range] at hlen
    obtain ⟨marks', hset, hlength, hbits⟩ := setBit_spec (he.trans_le h.room)
    refine ⟨(queue ++ [e], marks'), ?_, ⟨?_, ?_, ?_, ?_⟩, List.prefix_append _ _, ?_, ?_⟩
    · simp [hmem, hset, Nat.lt_of_succ_le hlen]
    · exact List.nodup_append.mpr ⟨h.nodup, List.nodup_singleton e, by
        rintro a ha b hb rfl
        exact hmem (List.mem_singleton.mp hb ▸ ha)⟩
    · intro e' he'
      rcases List.mem_append.mp he' with he' | he'
      · exact h.lt e' he'
      · rwa [List.mem_singleton.mp he']
    · rw [hlength]
      exact h.room
    · intro e' he'
      have hmarked := h.marked e' he'
      rw [getBit_eq] at hmarked ⊢
      rw [hbits, List.getElem?_set, hmarked, length_byteBits, if_pos (he.trans_le h.room)]
      by_cases heq : e = e'
      · simp [heq]
      · simp [heq, Ne.symm heq]
    · exact List.mem_append_right queue (List.mem_singleton_self e)
    · intro e' he'
      exact (List.mem_append.mp he').imp_right List.mem_singleton.mp

/-- Putting some edges into the queue. -/
theorem Queued.foldlM {ι : Type} (step : List Nat × Bytes → ι → Option (List Nat × Bytes))
    (P : ι → Prop) (edge : ι → Nat) (is : List ι) (h : Queued m queue)
    (hpush : ∀ i ∈ is, P i → edge i < m ∧ ∀ queue, step queue i = bdzPush m queue (edge i))
    (hskip : ∀ i ∈ is, ¬ P i → ∀ queue, step queue i = some queue) :
    ∃ queue', is.foldlM step queue = some queue' ∧ Queued m queue' ∧ queue.1 <+: queue'.1 ∧
      (∀ i ∈ is, P i → edge i ∈ queue'.1) ∧
      ∀ e ∈ queue'.1, e ∈ queue.1 ∨ ∃ i ∈ is, P i ∧ edge i = e := by
  induction is generalizing queue with
  | nil =>
    exact ⟨queue, rfl, h, List.prefix_rfl, fun i hi => absurd hi List.not_mem_nil,
      fun e he => .inl he⟩
  | cons i is ih =>
    obtain ⟨hpush₀, hpush⟩ := List.forall_mem_cons.mp hpush
    obtain ⟨hskip₀, hskip⟩ := List.forall_mem_cons.mp hskip
    rw [List.foldlM_cons]
    by_cases hP : P i
    · obtain ⟨hlt, hstep⟩ := hpush₀ hP
      obtain ⟨queue₁, hrun₁, h₁, hprefix₁, hmem₁, hnew₁⟩ := h.push hlt
      obtain ⟨queue₂, hrun₂, h₂, hprefix₂, hmem₂, hnew₂⟩ := ih h₁ hpush hskip
      refine ⟨queue₂, ?_, h₂, hprefix₁.trans hprefix₂,
        List.forall_mem_cons.mpr ⟨fun _ => hprefix₂.subset hmem₁, hmem₂⟩, fun e he => ?_⟩
      · rw [hstep, hrun₁, Option.bind_eq_bind, Option.bind_some, hrun₂]
      · rcases hnew₂ e he with he | ⟨i', hi', hP', rfl⟩
        · refine (hnew₁ e he).imp_right ?_
          rintro rfl
          exact ⟨i, List.mem_cons_self, hP, rfl⟩
        · exact .inr ⟨i', List.mem_cons_of_mem i hi', hP', rfl⟩
    · obtain ⟨queue₂, hrun₂, h₂, hprefix₂, hmem₂, hnew₂⟩ := ih h hpush hskip
      refine ⟨queue₂, ?_, h₂, hprefix₂,
        List.forall_mem_cons.mpr ⟨fun hP' => absurd hP' hP, hmem₂⟩, fun e he => ?_⟩
      · rw [hskip₀ hP, Option.bind_eq_bind, Option.bind_some, hrun₂]
      · refine (hnew₂ e he).imp_right ?_
        rintro ⟨i', hi', hP', rfl⟩
        exact ⟨i', List.mem_cons_of_mem i hi', hP', rfl⟩

/-! ## Vertices with a single edge -/

/-- The edge is the only one of the vertex that is left. -/
def Only (E : List (Fin 3 → Nat)) (removed : List Nat) (j : Fin 3) (v e : Nat) : Prop :=
  ∀ h, At E removed j v h ↔ h = e

/-- No vertex has more than 256 edges, which `vert_degree` could not tell from a single edge. -/
def Narrow (E : List (Fin 3 → Nat)) : Prop := ∀ v, E.countP (fun p => ∃ j, p j = v) ≤ 256

/-- The edge has the vertex. -/
def Incident (E : List (Fin 3 → Nat)) (e v : Nat) : Prop := ∃ p, E[e]? = some p ∧ ∃ j, p j = v

theorem map_getElem?_range {α : Type} (l : List α) :
    (List.range l.length).map (fun i => l[i]?) = l.map some := by
  refine List.ext_getElem? fun k => ?_
  rw [List.getElem?_map, List.getElem?_map]
  rcases Nat.lt_or_ge k l.length with hk | hk
  · rw [List.getElem?_range hk, List.getElem?_eq_getElem hk]
    exact congrArg some (List.getElem?_eq_getElem hk)
  · rw [List.getElem?_eq_none (by rwa [List.length_range]), List.getElem?_eq_none hk]
    rfl

theorem Narrow.length_le {hs : List Nat} (hE : Narrow E) (hnodup : hs.Nodup)
    (hat : ∀ h ∈ hs, At E removed j v h) : hs.length ≤ 256 := by
  have hsub : hs.Subperm ((List.range E.length).filter
      fun h => E[h]?.any fun p => ∃ j, p j = v) := by
    refine hnodup.subperm fun h hh => ?_
    obtain ⟨hnew, p, hp, hpj⟩ := hat h hh
    have hlt := (List.getElem?_eq_some_iff.mp hp).1
    rw [List.mem_filter, List.mem_range, hp]
    exact ⟨hlt, decide_eq_true ⟨j, hpj⟩⟩
  calc hs.length
      ≤ ((List.range E.length).filter fun h => E[h]?.any fun p => ∃ j, p j = v).length :=
        hsub.length_le
    _ = ((List.range E.length).map (fun h => E[h]?)).countP fun o => o.any fun p => ∃ j, p j = v := by
        rw [List.countP_map, List.countP_eq_length_filter]
        rfl
    _ = E.countP fun p => ∃ j, p j = v := by
        rw [map_getElem?_range, List.countP_map]
        rfl
    _ ≤ 256 := hE v

/-- What the degree of a vertex says about its edges. -/
theorem BdzGraph3.ListAt.degree (h : g.ListAt E j removed v) :
    ∃ d i, g.vertDegree[v]? = some d ∧ g.firstEdge[v]? = some i ∧
      (d = 1 → At E removed j v i) ∧ (∀ e, Only E removed j v e → d = 1 ∧ i = e) ∧
      (Narrow E → d = 1 → Only E removed j v i) := by
  obtain ⟨i, hs, hfirst, hchain, hnodup, hmem, hdegree⟩ := h
  refine ⟨_, i, hdegree, hfirst, fun hd => ?_, fun e he => ?_, fun hE hd h => ?_⟩
  · cases hchain with
    | nil => cases hd
    | cons => exact (hmem i).mp List.mem_cons_self
  · have hperm : hs.Perm [e] := (List.perm_ext_iff_of_nodup hnodup (List.nodup_singleton e)).mpr
      fun h => (hmem h).trans ((he h).trans List.mem_singleton.symm)
    obtain rfl := List.perm_singleton.mp hperm
    cases hchain
    exact ⟨rfl, rfl⟩
  · have hle := hE.length_le hnodup fun h hh => (hmem h).mp hh
    have hone : hs.length % 256 = 1 := by
      have := congrArg UInt8.toNat hd
      rwa [UInt8.toNat_ofNat'] at this
    have hlen : hs.length = 1 := by omega
    obtain ⟨e, rfl⟩ := List.length_eq_one_iff.mp hlen
    cases hchain
    rw [← hmem, List.mem_singleton]

/-! ## The loop -/

/-- The edges in front of the tail of the queue are removed. -/
structure Removing (r m : Nat) (E : List (Fin 3 → Nat)) (g : BdzGraph3) (queue : List Nat × Bytes)
    (tail : Nat) : Prop where
  stores : g.Stores r m E
  queued : Queued m queue
  le : tail ≤ queue.1.length
  lists : ∀ j, g.Lists r E j (queue.1.take tail).reverse
  complete : ∀ (j : Fin 3) v e, v / r = j → Only E (queue.1.take tail).reverse j v e → e ∈ queue.1
  pending : Narrow E → ∀ e ∈ queue.1.drop tail,
    ∃ (j : Fin 3) (v : Nat), v / r = j ∧ Only E (queue.1.take tail).reverse j v e
  leaf : Narrow E → LeafOrder (Incident E) {e | e < m} (queue.1.take tail).reverse

theorem BdzGraph3.Stores.at_of_incident (hg : g.Stores r m E) (h : Incident E e v)
    (hv : v / r = j) (hleft : e ∉ removed) : At E removed j v e := by
  obtain ⟨p, hp, j', rfl⟩ := h
  obtain rfl : j' = j := Fin.ext ((hg.corners p (List.mem_of_getElem? hp) j').symm.trans hv)
  exact ⟨hleft, p, hp, rfl⟩

theorem At.incident (h : At E removed j v e) : Incident E e v := by
  obtain ⟨-, p, hp, hj⟩ := h
  exact ⟨p, hp, j, hj⟩

/-- The first loop puts the edges with a vertex of their own into the queue. -/
theorem bdzStartQueue_spec (hg : g.Stores r m E) (hm : E.length = m)
    (hlists : ∀ j, g.Lists r E j []) :
    ∃ queue, bdzStartQueue g m (List.range m) ([], List.replicate (m >>> 3 + 1) 0) = some queue ∧
      Removing r m E g queue 0 := by
  have hdegree (i : Nat) (hi : i < m) : ∃ edge, g.edges[i]? = some edge ∧
      E[i]? = some edge.vertices ∧ ∀ j, g.ListAt E j [] (edge.vertices j) := by
    obtain ⟨edge, hedge, hp⟩ := hg.vertices i _ (List.getElem?_eq_getElem (hm ▸ hi))
    have hp' : E[i]? = some edge.vertices := by rw [hp, List.getElem?_eq_getElem]
    exact ⟨edge, hedge, hp',
      fun j => hlists j _ (hg.corners _ (List.mem_of_getElem? hp') j)⟩
  let P (i : Nat) : Prop := ∃ p j, E[i]? = some p ∧ g.vertDegree[p j]? = some 1
  let step (queue : List Nat × Bytes) (i : Nat) : Option (List Nat × Bytes) := do
    let edge ← g.edges[i]?
    if (← g.vertDegree[edge.vertices 0]?) = 1 ∨ (← g.vertDegree[edge.vertices 1]?) = 1 ∨
        (← g.vertDegree[edge.vertices 2]?) = 1 then
      bdzPush m queue i
    else return queue
  have hstep (i : Nat) (hi : i < m) :
      (P i → ∀ queue, step queue i = bdzPush m queue i) ∧
        (¬ P i → ∀ queue, step queue i = some queue) := by
    obtain ⟨edge, hedge, hp, hat⟩ := hdegree i hi
    obtain ⟨d₀, -, hd₀, -⟩ := (hat 0).degree
    obtain ⟨d₁, -, hd₁, -⟩ := (hat 1).degree
    obtain ⟨d₂, -, hd₂, -⟩ := (hat 2).degree
    simp only [step, hedge, hd₀, hd₁, hd₂, Option.bind_eq_bind, Option.bind_some]
    refine ⟨fun hP queue => if_pos ?_, fun hP queue => if_neg ?_⟩
    · obtain ⟨p, j, hp', hd⟩ := hP
      obtain rfl := Option.some.inj (hp.symm.trans hp')
      match j with
      | 0 => exact .inl (Option.some.inj (hd₀.symm.trans hd))
      | 1 => exact .inr (.inl (Option.some.inj (hd₁.symm.trans hd)))
      | 2 => exact .inr (.inr (Option.some.inj (hd₂.symm.trans hd)))
    · rintro (rfl | rfl | rfl)
      · exact hP ⟨_, 0, hp, hd₀⟩
      · exact hP ⟨_, 1, hp, hd₁⟩
      · exact hP ⟨_, 2, hp, hd₂⟩
  obtain ⟨queue, hrun, hqueued, -, hall, hnew⟩ := (Queued.start m).foldlM step P id (List.range m)
    (fun i hi hP => ⟨List.mem_range.mp hi, (hstep i (List.mem_range.mp hi)).1 hP⟩)
    fun i hi hP => (hstep i (List.mem_range.mp hi)).2 hP
  refine ⟨queue, hrun, hg, hqueued, Nat.zero_le _, hlists, fun j v e hv he => ?_,
    fun hE e he => ?_, fun _ => .nil _ _⟩
  · obtain ⟨-, p, hp, rfl⟩ := (he e).mpr rfl
    have hlt := (List.getElem?_eq_some_iff.mp hp).1
    obtain ⟨d, i, hd, -, -, honly, -⟩ := (hlists j _ hv).degree
    obtain ⟨rfl, -⟩ := honly e he
    exact hall e (List.mem_range.mpr (hm ▸ hlt)) ⟨p, j, hp, hd⟩
  · rcases hnew e he with he | ⟨e, -, ⟨p, j, hp, hd⟩, rfl⟩
    · cases he
    · have hv := hg.corners p (List.mem_of_getElem? hp) j
      obtain ⟨d, i, hd', -, -, -, honly⟩ := (hlists j _ hv).degree
      obtain rfl := Option.some.inj (hd'.symm.trans hd)
      have honly := honly hE rfl
      have hi : e = i := (honly e).mp ⟨List.not_mem_nil, p, hp, rfl⟩
      exact ⟨j, p j, hv, hi ▸ honly⟩

/-- The vertices of a removed edge put their last edges into the queue. -/
theorem Queued.pushLast {edge : BdzEdge} (h : Queued m queue) (hm : E.length = m)
    (hlist : ∀ j, g.ListAt E j removed (edge.vertices j)) :
    ∃ queue', ([0, 1, 2] : List (Fin 3)).foldlM (bdzPushLast m g edge) queue = some queue' ∧
      Queued m queue' ∧ queue.1 <+: queue'.1 ∧
      (∀ j e, Only E removed j (edge.vertices j) e → e ∈ queue'.1) ∧
      ∀ e ∈ queue'.1, e ∈ queue.1 ∨
        (Narrow E → ∃ j, Only E removed j (edge.vertices j) e) := by
  have hall (j : Fin 3) : j ∈ ([0, 1, 2] : List (Fin 3)) := by
    revert j
    decide
  obtain ⟨queue', hrun, hqueued, hprefix, hpushed, hnew⟩ := h.foldlM
    (bdzPushLast m g edge) (fun j => g.vertDegree[edge.vertices j]? = some 1)
    (fun j => g.firstEdge[edge.vertices j]?.getD 0) [0, 1, 2]
    (fun j _ hP => by
      obtain ⟨d, i, hd, hi, hat, -⟩ := (hlist j).degree
      obtain rfl := Option.some.inj (hd.symm.trans hP)
      rw [hi, Option.getD_some]
      refine ⟨hm ▸ (hat rfl).lt, fun queue => ?_⟩
      simp only [bdzPushLast, hd, hi, Option.bind_eq_bind, Option.bind_some]
      exact if_pos trivial)
    (fun j _ hP queue => by
      obtain ⟨d, i, hd, hi, -⟩ := (hlist j).degree
      simp only [bdzPushLast, hd, hi, Option.bind_eq_bind, Option.bind_some]
      exact if_neg fun heq => hP (hd.trans (congrArg some heq)))
  refine ⟨queue', hrun, hqueued, hprefix, fun j e he => ?_, fun e he => ?_⟩
  · obtain ⟨d, i, hd, hi, -, honly, -⟩ := (hlist j).degree
    obtain ⟨rfl, rfl⟩ := honly e he
    have hmem := hpushed j (hall j) hd
    rwa [hi, Option.getD_some] at hmem
  · refine (hnew e he).imp_right ?_
    rintro ⟨j, -, hP, rfl⟩ hE
    obtain ⟨d, i, hd, hi, -, -, honly⟩ := (hlist j).degree
    obtain rfl := Option.some.inj (hd.symm.trans hP)
    rw [hi, Option.getD_some]
    exact ⟨j, honly hE rfl⟩

/-- One turn of the second loop. -/
theorem Removing.step (h : Removing r m E g queue tail) (hm : E.length = m)
    (htail : tail < queue.1.length) :
    ∃ g' queue', (∀ turns, bdzQueueLoop m (turns + 1) tail g queue =
        bdzQueueLoop m turns (tail + 1) g' queue') ∧ Removing r m E g' queue' (tail + 1) := by
  have hget := List.getElem?_eq_getElem htail
  have htake := (List.take_concat_get' queue.1 tail htail).symm
  generalize queue.1[tail] = e at hget htake
  have hmem := List.mem_of_getElem? hget
  have hlt := h.queued.lt e hmem
  have hp := List.getElem?_eq_getElem (hm ▸ hlt)
  generalize E[e] = p at hp
  set R := (queue.1.take tail).reverse with hR
  have hnodup := h.queued.nodup
  rw [← List.take_append_drop (tail + 1) queue.1, htake, List.append_assoc, List.singleton_append,
    List.nodup_middle, List.nodup_cons] at hnodup
  have hleft : e ∉ R := fun hmem =>
    hnodup.1 (List.mem_append_left _ (List.mem_reverse.mp hmem))
  have hcorners := h.stores.corners p (List.mem_of_getElem? hp)
  obtain ⟨g', hremove, hg', hlists'⟩ := h.stores.removeEdge h.lists hp hleft
  obtain ⟨edge, hedge, rfl⟩ := hg'.vertices e p hp
  have hlist (j : Fin 3) : g'.ListAt E j (e :: R) (edge.vertices j) := hlists' j _ (hcorners j)
  obtain ⟨queue', hfold, hqueued, hprefix, hpushed, hnew⟩ := h.queued.pushLast hm hlist
  have hremoved : (queue'.1.take (tail + 1)).reverse = e :: R := by
    obtain ⟨rest, hrest⟩ := hprefix
    rw [← hrest, List.take_append_of_le_length htail, htake, List.reverse_concat]
  refine ⟨g', queue', fun turns => ?_, hg', hqueued, ?_, ?_, ?_, ?_, ?_⟩
  · rw [bdzQueueLoop, if_neg htail.ne, hget]
    simp only [Option.bind_eq_bind, Option.bind_some, hremove, hedge, hfold]
  · exact htail.trans_le hprefix.length_le
  · rwa [hremoved]
  · rw [hremoved]
    intro j v e' hv he'
    by_cases hat : At E R j v e
    · obtain ⟨-, q, hq, rfl⟩ := hat
      obtain rfl := Option.some.inj (hp.symm.trans hq)
      exact hpushed j e' he'
    · refine hprefix.subset (h.complete j v e' hv fun k => ?_)
      rw [← he' k, at_cons, ← hR]
      exact ⟨fun hk => ⟨fun heq => hat (heq ▸ hk), hk⟩, And.right⟩
  · rw [hremoved]
    intro hE e' he'
    have hother : e' ∉ e :: R := by
      have hsplit := hqueued.nodup
      rw [← List.take_append_drop (tail + 1) queue'.1, List.nodup_append] at hsplit
      rw [← hremoved, List.mem_reverse]
      exact fun hmem => hsplit.2.2 e' hmem e' he' rfl
    obtain ⟨hne, hnotMem⟩ := not_or.mp (mt List.mem_cons.mpr hother)
    rcases hnew e' (List.mem_of_mem_drop he') with hold | hsingle
    · rw [← List.take_append_drop tail queue.1, List.mem_append] at hold
      have hwait := hold.resolve_left fun hmem => hnotMem (List.mem_reverse.mpr hmem)
      obtain ⟨j, v, hv, honly⟩ := h.pending hE e' hwait
      refine ⟨j, v, hv, fun k => ?_⟩
      rw [at_cons, honly k]
      exact ⟨And.right, fun hk => ⟨hk ▸ hne, hk⟩⟩
    · obtain ⟨j, honly⟩ := hsingle hE
      exact ⟨j, _, hcorners j, honly⟩
  · rw [hremoved]
    intro hE
    have hwait : e ∈ queue.1.drop tail :=
      List.mem_of_getElem? (i := 0) (by rwa [List.getElem?_drop, Nat.add_zero])
    obtain ⟨j, v, hv, honly⟩ := h.pending hE e hwait
    refine (h.leaf hE).cons ((honly e).mpr rfl).incident fun e' _ hnew' hinc => ?_
    exact (honly e').mp (h.stores.at_of_incident hinc hv hnew')

/-- The second loop removes all edges that it put into the queue. -/
theorem bdzQueueLoop_spec (h : Removing r m E g queue tail) (hm : E.length = m)
    (hturns : m - tail < turns) :
    ∃ g' queue', bdzQueueLoop m turns tail g queue = some (g', queue'.1) ∧
      Removing r m E g' queue' queue'.1.length := by
  induction turns generalizing g queue tail with
  | zero => cases hturns
  | succ turns ih =>
    rcases h.le.eq_or_lt with heq | hlt
    · refine ⟨g, queue, ?_, heq ▸ h⟩
      rw [bdzQueueLoop, if_pos heq]
      rfl
    · obtain ⟨g₁, queue₁, hstep, h₁⟩ := h.step hm hlt
      have hlen := h.queued.length_le
      rw [hstep]
      exact ih h₁ (by omega)

/-- The number that `bdz_generate_queue` returns is 0 exactly if all edges are in the queue. Where no
vertex has more than 256 edges, the edges are in an order in which they can be removed, and they are
all in it exactly if the hypergraph has no core. -/
theorem bdzGenerateQueue_spec (hg : g.Stores r m E) (hm : E.length = m)
    (hlists : ∀ j, g.Lists r E j []) :
    ∃ ret g' queue, bdzGenerateQueue g m = some (ret, g', queue) ∧ g'.Stores r m E ∧
      queue.Nodup ∧ (∀ e ∈ queue, e < m) ∧ (ret = 0 ↔ queue.length = m) ∧
      (Narrow E → LeafOrder (Incident E) {e | e < m} queue.reverse ∧
        (queue.length = m ↔ ¬ ∃ S, IsCore (Incident E) {e | e < m} S)) := by
  obtain ⟨queue, hstart, hremoving⟩ := bdzStartQueue_spec hg hm hlists
  obtain ⟨g', queue', hloop, h⟩ := bdzQueueLoop_spec hremoving hm
    (show m - 0 < m + 1 by omega)
  have hle := h.queued.length_le
  have hnull : nullEdge = 2 ^ 32 - 1 := rfl
  have hbound := hg.lt
  have hleaf := h.leaf
  have hcomplete := h.complete
  rw [List.take_length] at hleaf hcomplete
  refine ⟨((queue'.1.length : Int) - m).bmod (2 ^ 32), g', queue'.1, ?_, h.stores,
    h.queued.nodup, h.queued.lt, ?_, fun hE => ⟨hleaf hE, ?_⟩⟩
  · rw [bdzGenerateQueue, hstart, Option.bind_eq_bind, Option.bind_some, hloop]
    rfl
  · rw [Int.bmod]
    split <;> omega
  · rw [← forall_mem_iff (hleaf hE)]
    · constructor
      · intro hlen e he
        have hsub := h.queued.nodup.subperm fun e he => List.mem_range.mpr (h.queued.lt e he)
        have hperm := hsub.perm_of_length_le (by rw [List.length_range, hlen])
        exact List.mem_reverse.mpr (hperm.mem_iff.mpr (List.mem_range.mpr he))
      · intro hall
        have hsub := List.nodup_range.subperm fun e he =>
          List.mem_reverse.mp (hall e (List.mem_range.mp he))
        have hge := hsub.length_le
        rw [List.length_range] at hge
        omega
    · intro e he hleft v hinc
      by_contra halone
      push Not at halone
      obtain ⟨p, hp, j, hj⟩ := hinc
      have hv : v / r = j := hj ▸ hg.corners p (List.mem_of_getElem? hp) j
      refine hleft (List.mem_reverse.mpr (hcomplete j v e hv fun k => ⟨fun hat => ?_, ?_⟩))
      · by_contra hne
        exact halone k (hm ▸ hat.lt) hat.1 hne hat.incident
      · rintro rfl
        exact ⟨hleft, p, hp, hj⟩

end PerfectHash.Cmph
