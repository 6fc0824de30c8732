import PerfectHash.Cmph.Bdz
import PerfectHash.Cmph.Graph.Stores

/-! # The graph of BDZ

The vertices of an edge are in three parts of `r` vertices each. Each vertex has a linked list of the
edges that were not removed, and their number modulo 256 (`BdzGraph3.Lists`). -/

namespace PerfectHash.Cmph

open NextTable

variable {g g' : BdzGraph3} {r m e h v i turns : Nat} {j j' : Fin 3} {E : List (Fin 3 → Nat)}
  {p : Fin 3 → Nat} {removed as bs : List Nat}

/-- The edges behind each edge in the lists of the vertices of a part. -/
def links (edges : List BdzEdge) (j : Fin 3) : List Nat := edges.map fun edge => edge.nextEdges j

/-- The vertices of an edge are in the three parts. -/
def Corners (r : Nat) (p : Fin 3 → Nat) : Prop := ∀ j, p j / r = j

/-- The graph has the edges that were added. -/
structure BdzGraph3.Stores (g : BdzGraph3) (r m : Nat) (E : List (Fin 3 → Nat)) : Prop where
  pos : 0 < r
  lt : m < nullEdge
  le : E.length ≤ m
  nedges : g.nedges = E.length
  length_edges : g.edges.length = m
  length_firstEdge : g.firstEdge.length = 3 * r
  length_vertDegree : g.vertDegree.length = 3 * r
  corners : ∀ p ∈ E, Corners r p
  vertices : ∀ (e : Nat) p, E[e]? = some p → ∃ edge, g.edges[e]? = some edge ∧ edge.vertices = p

/-- The edge number `h` is left, and has the vertex in its part. -/
def At (E : List (Fin 3 → Nat)) (removed : List Nat) (j : Fin 3) (v h : Nat) : Prop :=
  h ∉ removed ∧ ∃ p, E[h]? = some p ∧ p j = v

/-- The list of a vertex of a part, and its length modulo 256. -/
def BdzGraph3.ListAt (g : BdzGraph3) (E : List (Fin 3 → Nat)) (j : Fin 3) (removed : List Nat)
    (v : Nat) : Prop :=
  ∃ i hs, g.firstEdge[v]? = some i ∧ Chain (links g.edges j) nullEdge i hs ∧ hs.Nodup ∧
    (∀ h, h ∈ hs ↔ At E removed j v h) ∧ g.vertDegree[v]? = some (UInt8.ofNat hs.length)

/-- The lists of the vertices of a part. -/
def BdzGraph3.Lists (g : BdzGraph3) (r : Nat) (E : List (Fin 3 → Nat)) (j : Fin 3)
    (removed : List Nat) : Prop :=
  ∀ v, v / r = j → g.ListAt E j removed v

theorem lt_of_div_eq (hr : 0 < r) (hv : v / r = j) : v < 3 * r := by
  have hj := j.isLt
  have := Nat.lt_mul_div_succ v hr
  rw [hv] at this
  have hle : r * (j + 1) ≤ r * 3 := Nat.mul_le_mul_left r (by omega)
  omega

theorem Corners.ne (hp : Corners r p) (hv : v / r = j) (hj : j' ≠ j) : p j' ≠ v := fun h =>
  hj (Fin.ext ((hp j').symm.trans (h ▸ hv)))

/-- The position of a vertex in an edge. -/
theorem Corners.position (hp : Corners r p) (hv : p j = v) :
    (if p 0 = v then 0 else if p 1 = v then 1 else 2 : Fin 3) = j := by
  have hne (j' : Fin 3) (h : j' ≠ j) := hp.ne (hv ▸ hp j) h
  match j, hv with
  | 0, hv => exact if_pos hv
  | 1, hv => exact (if_neg (hne 0 (by decide))).trans (if_pos hv)
  | 2, _ =>
    exact (if_neg (hne 0 (by decide))).trans (if_neg (hne 1 (by decide)))

theorem degree_succ (n : Nat) : UInt8.ofNat n + 1 = UInt8.ofNat (n + 1) := by
  rw [UInt8.ofNat_add]
  rfl

theorem degree_pred (n : Nat) : UInt8.ofNat (n + 1) + -1 = UInt8.ofNat n := by
  rw [← degree_succ, UInt8.add_assoc, show (1 : UInt8) + -1 = 0 from rfl, UInt8.add_zero]

/-! ## Adding edges -/

theorem bdzInitGraph3_stores (hr : 0 < r) (hm : m < nullEdge) (hlen : g.edges.length = m) :
    (bdzInitGraph3 g (3 * r)).Stores r m [] ∧ ∀ j, (bdzInitGraph3 g (3 * r)).Lists r [] j [] := by
  refine ⟨⟨hr, hm, Nat.zero_le m, rfl, hlen, List.length_replicate, List.length_replicate,
    fun p hp => absurd hp List.not_mem_nil, fun e p he => nomatch he⟩, fun j v hv => ?_⟩
  have hlt := lt_of_div_eq hr hv
  refine ⟨nullEdge, [], ?_, .nil, List.nodup_nil, fun h => ?_, ?_⟩
  · exact List.getElem?_replicate.trans (if_pos hlt)
  · refine iff_of_false List.not_mem_nil ?_
    rintro ⟨-, p, hp, -⟩
    cases hp
  · exact List.getElem?_replicate.trans (if_pos hlt)

/-- The three vertices of an edge get a new entry. -/
theorem getElem?_set_corners {α : Type} {l : List α} (hp : Corners r p) (x : Fin 3 → α)
    (hv : v / r = j) :
    (((l.set (p 0) (x 0)).set (p 1) (x 1)).set (p 2) (x 2))[v]? = (l.set (p j) (x j))[v]? := by
  have hne (j' : Fin 3) (h : j' ≠ j) := hp.ne hv h
  match j with
  | 0 =>
    rw [List.getElem?_set_ne (hne 2 (by decide)),
      List.getElem?_set_ne (hne 1 (by decide))]
  | 1 =>
    rw [List.getElem?_set_ne (hne 2 (by decide)), List.getElem?_set, List.length_set,
      List.getElem?_set_ne (hne 0 (by decide)), List.getElem?_set]
  | 2 =>
    rw [List.getElem?_set, List.length_set, List.length_set,
      List.getElem?_set_ne (hne 1 (by decide)),
      List.getElem?_set_ne (hne 0 (by decide)), List.getElem?_set]

theorem at_concat : At (E ++ [p]) [] j v h ↔ At E [] j v h ∨ h = E.length ∧ p j = v := by
  simp only [At, getElem?_concat_iff]
  constructor
  · rintro ⟨hnew, p', hp' | ⟨rfl, rfl⟩, hv⟩
    · exact .inl ⟨hnew, p', hp', hv⟩
    · exact .inr ⟨rfl, hv⟩
  · rintro (⟨hnew, p', hp', hv⟩ | ⟨rfl, hv⟩)
    · exact ⟨hnew, p', .inl hp', hv⟩
    · exact ⟨List.not_mem_nil, p, .inr ⟨rfl, rfl⟩, hv⟩

theorem At.lt (hat : At E removed j v h) : h < E.length := by
  obtain ⟨-, p, hp, -⟩ := hat
  exact (List.getElem?_eq_some_iff.mp hp).1

theorem addDegree_of_get {vertDegree : List UInt8} {x : UInt8} (hx : vertDegree[v]? = some x)
    (d : UInt8) : addDegree vertDegree v d = some (vertDegree.set v (x + d)) := by
  rw [addDegree, hx]
  exact write_of_lt (List.getElem?_eq_some_iff.mp hx).1 _

/-- Adding an edge to the lists of its three vertices. -/
theorem BdzGraph3.Stores.addEdge (hg : g.Stores r m E) (hlists : ∀ j, g.Lists r E j [])
    (hp : Corners r p) (hlt : E.length < m) :
    ∃ g', bdzAddEdge g (p 0) (p 1) (p 2) = some g' ∧ g'.Stores r m (E ++ [p]) ∧
      ∀ j, g'.Lists r (E ++ [p]) j [] := by
  have hbound := hg.lt
  have hnull : nullEdge = 2 ^ 32 - 1 := rfl
  have hlenf := hg.length_firstEdge
  have hlend := hg.length_vertDegree
  have hlene := hg.length_edges
  have hcorner (j : Fin 3) : p j < 3 * r := lt_of_div_eq hg.pos (hp j)
  have h0 := hcorner 0
  have h1 := hcorner 1
  have h2 := hcorner 2
  have h10 : p 0 ≠ p 1 := hp.ne (hp 1) (by decide)
  have h20 : p 0 ≠ p 2 := hp.ne (hp 2) (by decide)
  have h21 : p 1 ≠ p 2 := hp.ne (hp 2) (by decide)
  have hsucc : u32 ((E.length : Int) + 1) = E.length + 1 :=
    u32_of_eq (by omega) (by push_cast; rfl)
  let first (j : Fin 3) : Nat := g.firstEdge.getD (p j) nullEdge
  let degree (j : Fin 3) : UInt8 := g.vertDegree.getD (p j) 0
  have hfirst (j : Fin 3) : g.firstEdge[p j]? = some (first j) := by
    have hlt : p j < g.firstEdge.length := by rw [hlenf]; exact hcorner j
    rw [List.getElem?_eq_getElem hlt, ← List.getD_eq_getElem _ nullEdge]
  have hdegree (j : Fin 3) : g.vertDegree[p j]? = some (degree j) := by
    have hlt : p j < g.vertDegree.length := by rw [hlend]; exact hcorner j
    rw [List.getElem?_eq_getElem hlt, ← List.getD_eq_getElem _ 0]
  let g' : BdzGraph3 := {
    nedges := E.length + 1
    edges := g.edges.set E.length { vertices := p, nextEdges := first }
    firstEdge := ((g.firstEdge.set (p 2) E.length).set (p 1) E.length).set (p 0) E.length
    vertDegree := ((g.vertDegree.set (p 0) (degree 0 + 1)).set (p 1) (degree 1 + 1)).set (p 2)
      (degree 2 + 1) }
  have hvertices : ![p 0, p 1, p 2] = p := by
    funext j
    match j with
    | 0 => rfl
    | 1 => rfl
    | 2 => rfl
  have hfirsts : ![first 0, first 1, first 2] = first := by
    funext j
    match j with
    | 0 => rfl
    | 1 => rfl
    | 2 => rfl
  have hfirst' : g'.firstEdge =
      ((g.firstEdge.set (p 0) E.length).set (p 1) E.length).set (p 2) E.length := by
    change ((g.firstEdge.set (p 2) _).set (p 1) _).set (p 0) _ = _
    rw [List.set_comm _ _ h21.symm, List.set_comm _ _ h20.symm, List.set_comm _ _ h10.symm]
  refine ⟨g', ?_, ?_, fun j v hv => ?_⟩
  · rw [bdzAddEdge, hfirst, hfirst, hfirst]
    simp only [Option.bind_eq_bind, Option.bind_some, hfirsts, hvertices, hg.nedges, hsucc]
    rw [write_of_lt (by omega), Option.bind_some, write_of_lt (by omega), Option.bind_some,
      write_of_lt (by rw [List.length_set]; omega), Option.bind_some,
      write_of_lt (by rw [List.length_set, List.length_set]; omega), Option.bind_some,
      addDegree_of_get (hdegree 0), Option.bind_some,
      addDegree_of_get ((List.getElem?_set_ne h10).trans (hdegree 1)), Option.bind_some,
      addDegree_of_get ((List.getElem?_set_ne h21).trans
        ((List.getElem?_set_ne h20).trans (hdegree 2))), Option.bind_some]
    rfl
  · refine ⟨hg.pos, hg.lt, ?_, ?_, ?_, ?_, ?_, fun q hq => ?_, fun e q he => ?_⟩
    · rw [List.length_append]
      exact hlt
    · rw [List.length_append]
      rfl
    · exact List.length_set.trans hlene
    · simp only [g', List.length_set]
      exact hlenf
    · simp only [g', List.length_set]
      exact hlend
    · rcases List.mem_append.mp hq with hq | hq
      · exact hg.corners q hq
      · rwa [List.mem_singleton.mp hq]
    · rcases getElem?_concat_iff.mp he with he | ⟨rfl, rfl⟩
      · obtain ⟨edge, hedge, hvert⟩ := hg.vertices e q he
        have := (List.getElem?_eq_some_iff.mp he).1
        exact ⟨edge, (List.getElem?_set_ne (by omega)).trans hedge, hvert⟩
      · exact ⟨_, List.getElem?_set_self (by omega), rfl⟩
  · obtain ⟨i, hs, hi, hchain, hnodup, hmem, hlen⟩ := hlists j v hv
    have hnew : E.length ∉ hs := fun hh => absurd ((hmem _).mp hh).lt (Nat.lt_irrefl _)
    have hlinks : links g'.edges j = (links g.edges j).set E.length (first j) := List.map_set
    have hvlt := lt_of_div_eq hg.pos hv
    rw [BdzGraph3.ListAt, hfirst', getElem?_set_corners hp (fun _ => E.length) hv,
      getElem?_set_corners hp (fun j => degree j + 1) hv, hlinks]
    by_cases hpv : p j = v
    · subst hpv
      have hij : first j = i := Option.some.inj ((hfirst j).symm.trans hi)
      have hdj : degree j = UInt8.ofNat hs.length := Option.some.inj ((hdegree j).symm.trans hlen)
      refine ⟨E.length, E.length :: hs, List.getElem?_set_self (by omega), ?_,
        List.nodup_cons.mpr ⟨hnew, hnodup⟩, fun h => ?_, ?_⟩
      · rw [hij]
        refine hchain.push hnew ?_ (by omega)
        rw [links, List.length_map]
        omega
      · rw [List.mem_cons, hmem, at_concat]
        simp only [and_true]
        exact or_comm
      · rw [List.getElem?_set_self (by omega), hdj, degree_succ, List.length_cons]
    · refine ⟨i, hs, (List.getElem?_set_ne hpv).trans hi, hchain.set hnew _, hnodup,
        fun h => ?_, (List.getElem?_set_ne hpv).trans hlen⟩
      rw [hmem, at_concat]
      simp only [hpv, and_false, or_false]

/-! ## Removing edges -/

/-- The search stops at the edge, and has the edge before it and its position in that edge. -/
theorem bdzFindEdge_spec (edge2 : Nat) (j' : Fin 3)
    (hedges : ∀ h ∈ as, ∃ edge, g.edges[h]? = some edge ∧
      (if edge.vertices 0 = v then 0 else if edge.vertices 1 = v then 1 else 2 : Fin 3) = j)
    (hchain : Chain (links g.edges j) nullEdge i (as ++ e :: bs)) (hnew : e ∉ as)
    (hturns : as.length < turns) :
    bdzFindEdge g e v turns i edge2 j' =
      some (e, as.getLast?.getD edge2, if as = [] then j' else j) := by
  induction as generalizing i edge2 j' turns with
  | nil =>
    obtain _ | turns := turns
    · cases hturns
    · cases hchain
      exact if_neg fun h => h.1 rfl
  | cons h as ih =>
    obtain _ | turns := turns
    · cases hturns
    · cases hchain with
      | cons hne hnext htail =>
        obtain ⟨⟨edge, hedge, hpos⟩, hedges⟩ := List.forall_mem_cons.mp hedges
        obtain ⟨hhe, hnew⟩ := not_or.mp (mt List.mem_cons.mpr hnew)
        rw [links, List.getElem?_map, hedge] at hnext
        have hnext := Option.some.inj hnext
        have ih := ih h j hedges htail hnew (Nat.lt_of_succ_lt_succ hturns)
        rw [bdzFindEdge, if_pos ⟨Ne.symm hhe, hne⟩, hedge]
        simp only [Option.bind_eq_bind, Option.bind_some, hpos, hnext]
        rw [ih, List.getLast?_cons, Option.getD_some, if_neg (List.cons_ne_nil _ _), ite_self]

theorem links_set {edges : List BdzEdge} {edge : BdzEdge} (x : Nat) (hedge : edges[e]? = some edge) :
    links (edges.set e { edge with nextEdges := Function.update edge.nextEdges j x }) j' =
      if j' = j then (links edges j').set e x else links edges j' := by
  rw [links, List.map_set]
  dsimp only
  split
  · rename_i hj
    rw [hj, Function.update_self]
    rfl
  · rename_i hj
    rw [Function.update_of_ne hj]
    refine List.ext_getElem? fun k => ?_
    rw [List.getElem?_set, List.length_map]
    split
    · rename_i hek
      rw [if_pos (List.getElem?_eq_some_iff.mp hedge).1, links, List.getElem?_map, ← hek, hedge]
      rfl
    · rfl

theorem at_cons : At E (e :: removed) j v h ↔ h ≠ e ∧ At E removed j v h := by
  simp only [At, List.mem_cons, not_or, and_assoc]

/-- A vertex where only the other lists change. -/
theorem BdzGraph3.ListAt.congr {removed' : List Nat} (h : g.ListAt E j removed v)
    (hfirst : g'.firstEdge[v]? = g.firstEdge[v]?) (hdegree : g'.vertDegree[v]? = g.vertDegree[v]?)
    (hchain : ∀ i hs, (∀ h ∈ hs, At E removed j v h) → Chain (links g.edges j) nullEdge i hs →
      Chain (links g'.edges j) nullEdge i hs)
    (hat : ∀ h, At E removed' j v h ↔ At E removed j v h) : g'.ListAt E j removed' v := by
  obtain ⟨i, hs, hi, hlist, hnodup, hmem, hlen⟩ := h
  exact ⟨i, hs, hfirst.trans hi, hchain i hs (fun h hh => (hmem h).mp hh) hlist, hnodup,
    fun h => (hmem h).trans (hat h).symm, hdegree.trans hlen⟩

/-- What the removal of an edge from the list of one of its vertices does to the graph. -/
structure BdzGraph3.Unlinked (g g' : BdzGraph3) (E : List (Fin 3 → Nat)) (e : Nat) (j : Fin 3)
    (removed : List Nat) (v : Nat) : Prop where
  stores {r m : Nat} : g.Stores r m E → g'.Stores r m E
  firstEdge : ∀ v' ≠ v, g'.firstEdge[v']? = g.firstEdge[v']?
  vertDegree : ∀ v' ≠ v, g'.vertDegree[v']? = g.vertDegree[v']?
  links_eq : ∀ j' ≠ j, links g'.edges j' = links g.edges j'
  chain : ∀ i hs, (∀ h ∈ hs, ¬ At E removed j v h) → Chain (links g.edges j) nullEdge i hs →
    Chain (links g'.edges j) nullEdge i hs
  listAt : g'.ListAt E j (e :: removed) v

/-- Removing an edge from the list of one of its vertices. -/
theorem BdzGraph3.Stores.unlink (hg : g.Stores r m E) (hlist : g.ListAt E j removed (p j))
    (hp : E[e]? = some p) (hleft : e ∉ removed) :
    ∃ g', bdzRemoveVertex e g j = some g' ∧ g.Unlinked g' E e j removed (p j) := by
  obtain ⟨edge, hedge, rfl⟩ := hg.vertices e p hp
  have hcorners := hg.corners _ (List.mem_of_getElem? hp)
  have hvlt := lt_of_div_eq hg.pos (hcorners j)
  obtain ⟨i, hs, hfirst, hchain, hnodup, hmem, hdegree⟩ := hlist
  obtain ⟨as, bs, rfl⟩ := List.append_of_mem ((hmem e).mpr ⟨hleft, _, hp, rfl⟩)
  have hnew : e ∉ as := fun h => (List.nodup_append.mp hnodup).2.2 e h e List.mem_cons_self rfl
  have hedges (h : Nat) (hh : h ∈ as) : ∃ edge', g.edges[h]? = some edge' ∧
      (if edge'.vertices 0 = edge.vertices j then 0
        else if edge'.vertices 1 = edge.vertices j then 1 else 2 : Fin 3) = j := by
    obtain ⟨-, q, hq, hqj⟩ := (hmem h).mp (List.mem_append_left _ hh)
    obtain ⟨edge', hedge', rfl⟩ := hg.vertices h q hq
    exact ⟨edge', hedge', (hg.corners _ (List.mem_of_getElem? hq)).position hqj⟩
  have hlen := hchain.length_le hnodup
  rw [links, List.length_map, List.length_append, List.length_cons] at hlen
  have hfind := bdzFindEdge_spec nullEdge 0 hedges hchain hnew
    (show as.length < g.edges.length + 1 by omega)
  have hnull : ∀ h ∈ as ++ e :: bs, h ≠ nullEdge := fun h hh => by
    have := ((hmem h).mp hh).lt
    have := hg.le
    have := hg.lt
    omega
  have hlinks : (links g.edges j)[e]? = some (edge.nextEdges j) := by
    rw [links, List.getElem?_map, hedge]
    rfl
  have hdeg : addDegree g.vertDegree (edge.vertices j) (-1) =
      some (g.vertDegree.set (edge.vertices j) (UInt8.ofNat (as ++ bs).length)) := by
    rw [addDegree_of_get hdegree, List.length_append,
      List.length_cons, ← Nat.add_assoc, degree_pred, List.length_append]
  obtain ⟨hnotMem, hnodup'⟩ := List.nodup_cons.mp (List.nodup_middle.mp hnodup)
  have hat (h : Nat) : h ∈ as ++ bs ↔ At E (e :: removed) j (edge.vertices j) h := by
    rw [at_cons, ← hmem]
    constructor
    · intro hh
      refine ⟨fun heq => hnotMem (heq ▸ hh), ?_⟩
      exact (List.sublist_cons_self e bs).append_left as |>.subset hh
    · rintro ⟨hne, hh⟩
      exact (List.mem_append.mp hh).elim (List.mem_append_left bs)
        fun hh => List.mem_append_right as (List.mem_of_ne_of_mem hne hh)
  obtain rfl | ⟨as', k, rfl⟩ := as.eq_nil_or_concat'
  · refine ⟨{ g with
      firstEdge := g.firstEdge.set (edge.vertices j) (edge.nextEdges j)
      vertDegree := g.vertDegree.set (edge.vertices j) (UInt8.ofNat bs.length) }, ?_, ?_⟩
    · have hfind : bdzFindEdge g e (edge.vertices j) (g.edges.length + 1) i nullEdge 0 =
        some (e, nullEdge, 0) := hfind
      simp only [bdzRemoveVertex, hedge, hfirst, hfind, Option.bind_eq_bind, Option.bind_some]
      rw [if_neg (hnull e List.mem_cons_self), hdeg, Option.bind_some, if_neg (fun h => h rfl),
        write_of_lt (by rw [hg.length_firstEdge]; exact hvlt)]
      rfl
    · refine ⟨fun hg => ?_, fun v' hv' => List.getElem?_set_ne hv'.symm,
        fun v' hv' => List.getElem?_set_ne hv'.symm, fun _ _ => rfl, fun _ _ _ h => h, ?_⟩
      · exact { hg with
          length_firstEdge := List.length_set.trans hg.length_firstEdge
          length_vertDegree := List.length_set.trans hg.length_vertDegree }
      · cases hchain with
        | cons _ hnext htail =>
          obtain rfl := Option.some.inj (hlinks.symm.trans hnext)
          exact ⟨_, bs, List.getElem?_set_self (by rw [hg.length_firstEdge]; exact hvlt), htail,
            hnodup', hat, List.getElem?_set_self (by rw [hg.length_vertDegree]; exact hvlt)⟩
  · have hk : k ∈ as' ++ [k] ++ e :: bs :=
      List.mem_append_left _ (List.mem_append_right as' (List.mem_singleton_self k))
    obtain ⟨-, q, hq, hqj⟩ := (hmem k).mp hk
    obtain ⟨edge', hedge', rfl⟩ := hg.vertices k q hq
    refine ⟨{ g with
      edges := g.edges.set k
        { edge' with nextEdges := Function.update edge'.nextEdges j (edge.nextEdges j) }
      vertDegree := g.vertDegree.set (edge.vertices j) (UInt8.ofNat (as' ++ [k] ++ bs).length) },
      ?_, ?_⟩
    · rw [List.getLast?_concat, Option.getD_some, if_neg (List.concat_ne_nil k as')] at hfind
      simp only [bdzRemoveVertex, hedge, hfirst, hfind, Option.bind_eq_bind, Option.bind_some]
      rw [if_neg (hnull e (List.mem_append_right _ List.mem_cons_self)), hdeg, Option.bind_some,
        if_pos (hnull k hk), hedge', Option.bind_some,
        write_of_lt (List.getElem?_eq_some_iff.mp hedge').1]
      rfl
    · refine ⟨fun hg => ?_, fun _ _ => rfl, fun v' hv' => List.getElem?_set_ne hv'.symm,
        fun j' hj' => ?_, fun i hs hh h => ?_, ?_⟩
      · exact { hg with
          length_edges := List.length_set.trans hg.length_edges
          length_vertDegree := List.length_set.trans hg.length_vertDegree
          vertices := fun e' q hq => by
            obtain ⟨edge, hedge, hvert⟩ := hg.vertices e' q hq
            by_cases hke : k = e'
            · subst hke
              obtain rfl := Option.some.inj (hedge.symm.trans hedge')
              exact ⟨_, List.getElem?_set_self (List.getElem?_eq_some_iff.mp hedge).1, hvert⟩
            · exact ⟨edge, (List.getElem?_set_ne hke).trans hedge, hvert⟩ }
      · rw [links_set _ hedge', if_neg hj']
      · rw [links_set _ hedge', if_pos rfl]
        exact h.set (fun hmem' => hh k hmem' ((hmem k).mp hk)) _
      · refine ⟨i, as' ++ [k] ++ bs, hfirst, ?_, hnodup', hat,
          List.getElem?_set_self (by rw [hg.length_vertDegree]; exact hvlt)⟩
        rw [links_set _ hedge', if_pos rfl]
        simp only [List.append_assoc, List.singleton_append] at hchain hnodup ⊢
        exact hchain.unlink hnodup hlinks

/-- The lists of the part have the edge no longer. -/
theorem BdzGraph3.Unlinked.lists (h : g.Unlinked g' E e j removed (p j)) (hp : E[e]? = some p)
    (hlists : g.Lists r E j removed) : g'.Lists r E j (e :: removed) := by
  intro v hv
  by_cases hvp : v = p j
  · rw [hvp]
    exact h.listAt
  · refine (hlists v hv).congr (h.firstEdge v hvp) (h.vertDegree v hvp) (fun i hs hhs => ?_)
      fun e' => ?_
    · refine h.chain i hs fun k hk hat => ?_
      obtain ⟨-, q, hq, hqj⟩ := hhs k hk
      obtain ⟨-, q', hq', hqj'⟩ := hat
      obtain rfl := Option.some.inj (hq.symm.trans hq')
      exact hvp (hqj.symm.trans hqj')
    · refine at_cons.trans (and_iff_right_of_imp ?_)
      rintro ⟨-, q, hq, hqj⟩ rfl
      obtain rfl := Option.some.inj (hp.symm.trans hq)
      exact hvp hqj.symm

/-- The lists of the other parts stay. -/
theorem BdzGraph3.Unlinked.others {removed' : List Nat} (h : g.Unlinked g' E e j removed (p j))
    (hp : Corners r p) (hj : j' ≠ j) (hlists : g.Lists r E j' removed') :
    g'.Lists r E j' removed' := by
  intro v hv
  have hvp : v ≠ p j := (hp.ne hv hj.symm).symm
  refine (hlists v hv).congr (h.firstEdge v hvp) (h.vertDegree v hvp) (fun i hs _ hchain => ?_)
    fun _ => Iff.rfl
  rwa [h.links_eq j' hj]

/-- Removing an edge from the lists of its three vertices. -/
theorem BdzGraph3.Stores.removeEdge (hg : g.Stores r m E) (hlists : ∀ j, g.Lists r E j removed)
    (hp : E[e]? = some p) (hleft : e ∉ removed) :
    ∃ g', bdzRemoveEdge g e = some g' ∧ g'.Stores r m E ∧ ∀ j, g'.Lists r E j (e :: removed) := by
  have hcorners := hg.corners p (List.mem_of_getElem? hp)
  obtain ⟨g₀, hg₀, hun₀⟩ := hg.unlink (hlists 0 _ (hcorners 0)) hp hleft
  have hlists₁ := hun₀.others hcorners (by decide) (hlists 1)
  obtain ⟨g₁, hg₁, hun₁⟩ := (hun₀.stores hg).unlink (hlists₁ _ (hcorners 1)) hp hleft
  have hlists₂ := hun₁.others hcorners (by decide) (hun₀.others hcorners (by decide) (hlists 2))
  obtain ⟨g₂, hg₂, hun₂⟩ := (hun₁.stores (hun₀.stores hg)).unlink (hlists₂ _ (hcorners 2)) hp hleft
  refine ⟨g₂, ?_, hun₂.stores (hun₁.stores (hun₀.stores hg)), fun j => ?_⟩
  · simp only [bdzRemoveEdge, List.foldlM_cons, List.foldlM_nil, hg₀, hg₁, hg₂,
      Option.bind_eq_bind, Option.bind_some, Option.pure_def]
  · match j with
    | 0 =>
      exact hun₂.others hcorners (by decide) (hun₁.others hcorners (by decide)
        (hun₀.lists hp (hlists 0)))
    | 1 => exact hun₂.others hcorners (by decide) (hun₁.lists hp hlists₁)
    | 2 => exact hun₂.lists hp hlists₂

end PerfectHash.Cmph
