import PerfectHash.Cmph.Chm.Traverse

/-! # The functions that CHM builds

`chm_new` tries 20 pairs of hash functions, and gives up exactly if each of the 20 graphs has a cycle
(`chmNew_eq_none_iff`). The function that it returns maps each key to its place in the list of keys
(`chmNew_search`). -/

namespace PerfectHash.Cmph

open PerfectHashInt

variable {n calls iterations : Nat} {hash1 hash2 : HashState} {keys : List Bytes} {key : Bytes}
  {graph : GraphT} {E : List (Nat × Nat)} {hashfuncs : CmphHash × CmphHash} {rand : Nat → Nat}
  {garbage : List (BitVec 32)} {mphf : CmphT ChmData}

/-! ## The graph of the keys -/

/-- The vertices of a key with the given hashes, when there are vertices. -/
def chmEnds (n hash1 hash2 : Nat) : Nat × Nat :=
  (hash1 % n,
    if hash1 % n = hash2 % n then if hash2 % n + 1 = n then 0 else hash2 % n + 1 else hash2 % n)

theorem chmVertices_eq (hn : 0 < n) (hlt : n < 2 ^ 32) (a b : Nat) :
    chmVertices n a b = some (chmEnds n a b) := by
  have hb := Nat.mod_lt b hn
  have hsucc : u32 ((b % n : Nat) + 1) = b % n + 1 := u32_of_eq (by omega) (by push_cast; rfl)
  simp only [chmVertices, if_neg hn.ne', chmEnds, hsucc]
  generalize a % n = x
  generalize b % n = y at hb
  by_cases hxy : x = y
  · rw [if_pos hxy, if_pos hxy]
    by_cases hy : y + 1 = n
    · rw [if_pos (by omega), if_pos hy]
      rfl
    · rw [if_neg (by omega), if_neg hy]
      rfl
  · rw [if_neg hxy, if_neg hxy]
    rfl

theorem chmEnds_lt (hn : 0 < n) (a b : Nat) : (chmEnds n a b).1 < n ∧ (chmEnds n a b).2 < n := by
  have ha := Nat.mod_lt a hn
  have hb := Nat.mod_lt b hn
  refine ⟨ha, ?_⟩
  rw [chmEnds]
  generalize a % n = x at ha
  generalize b % n = y at hb
  dsimp only
  split
  · split <;> omega
  · exact hb

/-- The edges of the keys. -/
def chmEdges (n : Nat) (hash1 hash2 : HashState) (keys : List Bytes) : List (Nat × Nat) :=
  keys.map fun key => chmEnds n (hash hash1 key) (hash hash2 key)

/-- The graph of the keys. -/
def chmGraph (n : Nat) (hash1 hash2 : HashState) (keys : List Bytes) : Graph Nat Nat :=
  slotGraph (chmEdges n hash1 hash2 keys) n

/-- A self loop is a cycle. -/
theorem hasCycle_of_selfLoop (hn : 0 < n)
    (h : ∃ p ∈ chmEdges n hash1 hash2 keys, p.1 = p.2) : (chmGraph n hash1 hash2 keys).HasCycle := by
  obtain ⟨⟨x, y⟩, hmem, heq⟩ := h
  obtain ⟨e, he⟩ := List.mem_iff_getElem?.mp hmem
  obtain ⟨key, -, hkey⟩ := List.mem_map.mp hmem
  obtain ⟨hx, hy⟩ := chmEnds_lt hn (hash hash1 key) (hash hash2 key)
  rw [hkey] at hx hy
  obtain rfl : x = y := heq
  exact Graph.hasCycle_of_isLoopAt (e := e) (v := x) ⟨hx, hy, .inl he⟩

/-! ## The mapping step -/

/-- Clearing the edges of a graph. -/
theorem graphClearEdges_stores (hlt : 2 * graph.nedges < 2 ^ 32 - 1) :
    (graphClearEdges graph).Stores [] := by
  have h : (graphNew graph.nnodes graph.nedges).Stores [] := graphNew_stores hlt
  exact { h with }

theorem chmAddEdges_spec (hash1 hash2 : HashState) (hn : 0 < graph.nnodes) (hlt : graph.nnodes < 2 ^ 32)
    (hg : graph.Stores E) (hle : E.length + keys.length ≤ graph.nedges) :
    ∃ graph' added, chmAddEdges graph.nnodes hash1 hash2 graph keys = some (graph', added) ∧
      graph'.nnodes = graph.nnodes ∧ graph'.nedges = graph.nedges ∧
      if added then graph'.Stores (E ++ chmEdges graph.nnodes hash1 hash2 keys)
      else ∃ p ∈ chmEdges graph.nnodes hash1 hash2 keys, p.1 = p.2 := by
  induction keys generalizing graph E with
  | nil =>
    refine ⟨graph, true, rfl, rfl, rfl, ?_⟩
    rw [if_pos rfl, chmEdges, List.map_nil, List.append_nil]
    exact hg
  | cons key keys ih =>
    rw [List.length_cons] at hle
    have hedges : chmEdges graph.nnodes hash1 hash2 (key :: keys) =
        chmEnds graph.nnodes (hash hash1 key) (hash hash2 key) ::
          chmEdges graph.nnodes hash1 hash2 keys := rfl
    obtain ⟨hx, hy⟩ := chmEnds_lt hn (hash hash1 key) (hash hash2 key)
    rw [hedges, chmAddEdges, chmVertices_eq hn hlt, Option.bind_eq_bind, Option.bind_some]
    generalize chmEnds graph.nnodes (hash hash1 key) (hash hash2 key) = p at hx hy
    obtain ⟨x, y⟩ := p
    dsimp only at hx hy ⊢
    by_cases hxy : x = y
    · rw [if_pos hxy]
      exact ⟨graph, false, rfl, rfl, rfl, ⟨_, List.mem_cons_self, hxy⟩⟩
    · obtain ⟨graph₁, hadd, hg₁, hn₁, hm₁⟩ := hg.addEdge hx hy hxy (by omega)
      obtain ⟨graph', added, hrun, hn', hm', hspec⟩ := ih (hn₁ ▸ hn) (hn₁ ▸ hlt) hg₁
        (by rw [List.length_append, List.length_singleton, hm₁]; omega)
      rw [hn₁] at hrun hspec hn'
      rw [if_neg hxy, hadd]
      refine ⟨graph', added, hrun, hn', hm'.trans hm₁, ?_⟩
      cases added with
      | true =>
        rw [if_pos rfl, List.append_assoc] at hspec
        exact hspec
      | false =>
        obtain ⟨p, hp, heq⟩ := hspec
        exact ⟨p, List.mem_cons_of_mem _ hp, heq⟩

/-- `chm_gen_edges` succeeds if the graph has no cycle. -/
theorem chmGenEdges_spec (hash1 hash2 : HashState) (hn : 0 < graph.nnodes) (hlt : graph.nnodes < 2 ^ 32)
    (hm : keys.length = graph.nedges) (hkeys : 2 * keys.length < 2 ^ 32 - 1) :
    ∃ graph' ok, chmGenEdges graph.nnodes hash1 hash2 graph keys = some (graph', ok) ∧
      graph'.nnodes = graph.nnodes ∧ graph'.nedges = graph.nedges ∧
      (ok = true ↔ ¬ (chmGraph graph.nnodes hash1 hash2 keys).HasCycle) ∧
      (ok = true → graph'.Stores (chmEdges graph.nnodes hash1 hash2 keys)) := by
  have hpos : 0 < (graphClearEdges graph).nnodes := hn
  obtain ⟨graph', added, hadd, hn', hm', hspec⟩ := chmAddEdges_spec hash1 hash2 hpos hlt
    (graphClearEdges_stores (hm ▸ hkeys)) (show 0 + keys.length ≤ graph.nedges by omega)
  change chmAddEdges graph.nnodes hash1 hash2 (graphClearEdges graph) keys = _ at hadd
  rw [chmGenEdges, hadd, Option.bind_eq_bind, Option.bind_some]
  cases added with
  | false =>
    refine ⟨graph', false, rfl, hn', hm', iff_of_false Bool.false_ne_true (not_not.mpr ?_), nofun⟩
    exact hasCycle_of_selfLoop hn hspec
  | true =>
    have hg' : graph'.Stores (chmEdges graph.nnodes hash1 hash2 keys) := hspec
    have hfull : (chmEdges graph.nnodes hash1 hash2 keys).length = graph'.nedges := by
      rw [hm', chmEdges, List.length_map]
      exact hm
    obtain ⟨cyclic, hcyclic, hiff⟩ := hg'.isCyclic hfull
    rw [hn'] at hiff
    refine ⟨graph', !cyclic, ?_, hn', hm', ?_, fun _ => hg'⟩
    · dsimp only
      rw [if_pos rfl, hcyclic]
      rfl
    · rw [Bool.not_eq_true', ← Bool.not_eq_true, hiff]
      rfl

/-- The graph of the attempt with two calls of `rand`. -/
def chmAttempt (n : Nat) (hashfuncs : CmphHash × CmphHash) (rand : Nat → Nat) (keys : List Bytes)
    (calls : Nat) : Graph Nat Nat :=
  chmGraph n (seededHash n (rand calls) hashfuncs.1) (seededHash n (rand (calls + 1)) hashfuncs.2) keys

theorem chmMapping_spec (hashfuncs : CmphHash × CmphHash) (rand : Nat → Nat) (calls : Nat)
    (hn : 0 < graph.nnodes) (hlt : graph.nnodes < 2 ^ 32)
    (hm : keys.length = graph.nedges) (hkeys : 2 * keys.length < 2 ^ 32 - 1)
    (hpos : 0 < iterations) :
    ∃ r, chmMapping graph.nnodes hashfuncs rand keys iterations calls graph = some r ∧
      (r = none ↔ ∀ k < iterations,
        (chmAttempt graph.nnodes hashfuncs rand keys (calls + 2 * k)).HasCycle) ∧
      ∀ graph' hash1 hash2, r = some (graph', hash1, hash2) → graph'.nnodes = graph.nnodes ∧
        graph'.nedges = graph.nedges ∧ ¬ (chmGraph graph.nnodes hash1 hash2 keys).HasCycle ∧
        graph'.Stores (chmEdges graph.nnodes hash1 hash2 keys) := by
  induction iterations generalizing graph calls with
  | zero => cases hpos
  | succ iterations ih =>
    obtain ⟨graph', ok, hgen, hn', hm', hok, hstores⟩ := chmGenEdges_spec
      (seededHash graph.nnodes (rand calls) hashfuncs.1)
      (seededHash graph.nnodes (rand (calls + 1)) hashfuncs.2) hn hlt hm hkeys
    rw [chmMapping, hashStateNew_eq hn, hashStateNew_eq hn]
    simp only [Option.bind_eq_bind, Option.bind_some, hgen]
    cases ok with
    | true =>
      refine ⟨_, rfl, iff_of_false nofun fun h => hok.mp rfl (h 0 hpos), ?_⟩
      rintro graph'' hash1 hash2 ⟨⟩
      exact ⟨hn', hm', hok.mp rfl, hstores rfl⟩
    | false =>
      have hcycle : (chmAttempt graph.nnodes hashfuncs rand keys (calls + 2 * 0)).HasCycle :=
        not_not.mp (mt hok.mpr Bool.false_ne_true)
      rw [if_neg Bool.false_ne_true]
      rcases Nat.eq_zero_or_pos iterations with rfl | hpos
      · refine ⟨none, rfl, iff_of_true rfl fun k hk => ?_, nofun⟩
        obtain rfl : k = 0 := by omega
        exact hcycle
      · obtain ⟨r, hrun, hnone, hsome⟩ := ih (calls + 2) (hn'.symm ▸ hn) (hn'.symm ▸ hlt)
          (hm'.symm ▸ hm) hpos
        rw [hn', hm'] at hsome
        rw [hn'] at hrun hnone
        rw [if_neg hpos.ne']
        refine ⟨r, hrun, hnone.trans ⟨fun h k hk => ?_, fun h k hk => ?_⟩, hsome⟩
        · cases k with
          | zero => exact hcycle
          | succ k =>
            have := h k (by omega)
            rwa [show calls + 2 + 2 * k = calls + 2 * (k + 1) by omega] at this
        · have := h (k + 1) (by omega)
          rwa [show calls + 2 * (k + 1) = calls + 2 + 2 * k by omega] at this

/-! ## What is built -/

/-- The function of the keys with two hash functions. -/
structure ChmBuilt (n : Nat) (keys : List Bytes) (hash1 hash2 : HashState) (mphf : CmphT ChmData) :
    Prop where
  algo : mphf.algo = .chm
  size : mphf.size = keys.length
  data_m : mphf.data.m = keys.length
  data_n : mphf.data.n = n
  length : mphf.data.g.length = n
  hashes : mphf.data.hashes = [some hash1, some hash2]
  value : ∀ e x y : Nat, (chmEdges n hash1 hash2 keys)[e]? = some (x, y) →
    ∃ a b, mphf.data.g[x]? = some a ∧ mphf.data.g[y]? = some b ∧ a + b = BitVec.ofNat 32 e

theorem chmNew_spec (hashfuncs : CmphHash × CmphHash) (rand : Nat → Nat) (hn : 0 < n)
    (hlt : n < 2 ^ 32) (hkeys : 2 * keys.length < 2 ^ 32 - 1) (hgarbage : garbage.length = n) :
    ∃ r, chmNew n hashfuncs rand keys garbage = some r ∧
      (r = none ↔ ∀ k < 20, (chmAttempt n hashfuncs rand keys (2 * k)).HasCycle) ∧
      ∀ mphf, r = some mphf → ∃ hash1 hash2, ChmBuilt n keys hash1 hash2 mphf := by
  have hpos : 0 < (graphNew n keys.length).nnodes := hn
  obtain ⟨r, hrun, hnone, hsome⟩ := chmMapping_spec hashfuncs rand 0 hpos hlt rfl hkeys
    (show 0 < 20 by decide)
  change chmMapping n hashfuncs rand keys 20 0 (graphNew n keys.length) = some r at hrun
  simp only [Nat.zero_add] at hnone
  rw [chmNew, hrun, Option.bind_eq_bind, Option.bind_some]
  cases r with
  | none => exact ⟨none, rfl, iff_of_true rfl (hnone.mp rfl), nofun⟩
  | some found =>
    obtain ⟨graph, hash1, hash2⟩ := found
    obtain ⟨hn', hm', hcycle, hg⟩ := hsome graph hash1 hash2 rfl
    change graph.nnodes = n at hn'
    change graph.nedges = keys.length at hm'
    subst hn'
    obtain ⟨g, visited, hassign, hlength, hvalue⟩ := chmAssign_values (g := garbage) hg
      (by rw [chmEdges, List.length_map]; exact hm'.symm) hlt hcycle hgarbage
    dsimp only
    rw [hassign]
    refine ⟨_, rfl, iff_of_false nofun fun h => ?_, ?_⟩
    · exact absurd (hnone.mpr h) nofun
    · rintro mphf ⟨⟩
      exact ⟨hash1, hash2, rfl, rfl, rfl, rfl, hlength, rfl, hvalue⟩

theorem ChmBuilt.search (h : ChmBuilt n keys hash1 hash2 mphf) (key : Bytes) :
    chmSearch mphf.data key = chmValue keys.length n mphf.data.g (hash hash1 key)
      (hash hash2 key) := by
  rw [chmSearch, h.hashes, h.data_m, h.data_n]
  rfl

/-- The value of a key is its place. -/
theorem ChmBuilt.search_key (h : ChmBuilt n keys hash1 hash2 mphf) (hn : 0 < n) (hlt : n < 2 ^ 32)
    (hkeys : 2 * keys.length < 2 ^ 32 - 1) {i : Nat} {key : Bytes} (hi : keys[i]? = some key) :
    chmSearch mphf.data key = some i := by
  have hlen := (List.getElem?_eq_some_iff.mp hi).1
  obtain ⟨a, b, ha, hb, hsum⟩ := h.value i (chmEnds n (hash hash1 key) (hash hash2 key)).1
    (chmEnds n (hash hash1 key) (hash hash2 key)).2 (by rw [chmEdges, List.getElem?_map, hi]; rfl)
  have hvalue : (a + b).toNat = i := by
    rw [hsum, BitVec.toNat_ofNat, Nat.mod_eq_of_lt (by omega)]
  rw [h.search, chmValue, chmVertices_eq hn hlt, Option.bind_eq_bind, Option.bind_some]
  dsimp only
  rw [ha, hb]
  simp only [Option.bind_eq_bind, Option.bind_some]
  rw [if_neg (by omega), hvalue, Nat.mod_eq_of_lt hlen]
  rfl

/-- `chm_new` gives up exactly if each of the 20 pairs of hash functions has a graph with a cycle. -/
theorem chmNew_eq_none_iff (hn : 0 < n) (hlt : n < 2 ^ 32) (hkeys : 2 * keys.length < 2 ^ 32 - 1)
    (hgarbage : garbage.length = n) :
    chmNew n hashfuncs rand keys garbage = some none ↔
      ∀ k < 20, (chmAttempt n hashfuncs rand keys (2 * k)).HasCycle := by
  obtain ⟨r, hrun, hnone, -⟩ := chmNew_spec hashfuncs rand hn hlt hkeys hgarbage
  rw [hrun, Option.some.injEq, hnone]

/-- Three keys on three vertices. -/
theorem chmNew_eq_none_iff_three :
    (chmAttempt 3 (.jenkins, .jenkins) (fun k => k) [[0x61], [0x62], [0x63]] 0).HasCycle :=
  (@chmNew_eq_none_iff 3 [[0x61], [0x62], [0x63]] (.jenkins, .jenkins) (fun k => k) [0, 0, 0]
    (by decide) (by decide) (by decide) rfl).mp rfl 0 (by decide)

/-- The function that `chm_new` returns maps each key to its place in the list of keys. -/
theorem chmNew_search (hn : 0 < n) (hlt : n < 2 ^ 32) (hkeys : 2 * keys.length < 2 ^ 32 - 1)
    (hgarbage : garbage.length = n) :
    ∃ r, chmNew n hashfuncs rand keys garbage = some r ∧ ∀ mphf, r = some mphf →
      mphf.size = keys.length ∧
      ∀ (i : Nat) key, keys[i]? = some key → chmSearch mphf.data key = some i := by
  obtain ⟨r, hrun, -, hsome⟩ := chmNew_spec hashfuncs rand hn hlt hkeys hgarbage
  refine ⟨r, hrun, fun mphf hr => ?_⟩
  obtain ⟨hash1, hash2, hbuilt⟩ := hsome mphf hr
  exact ⟨hbuilt.size, fun i key => hbuilt.search_key hn hlt hkeys⟩

theorem chmNew_search_two : ∃ mphf,
    chmNew 5 (.jenkins, .jenkins) (fun k => k) [[0x61], [0x62]] (List.replicate 5 0xff) =
      some (some mphf) ∧
    chmSearch mphf.data [0x61] = some 0 ∧ chmSearch mphf.data [0x62] = some 1 := by
  obtain ⟨r, hrun, hsearch⟩ := @chmNew_search 5 [[0x61], [0x62]] (.jenkins, .jenkins)
    (fun k => k) (List.replicate 5 0xff) (by decide) (by decide) (by decide) rfl
  have hsome : r.isSome := by
    rw [← Option.some.inj hrun]
    rfl
  obtain ⟨mphf, rfl⟩ := Option.isSome_iff_exists.mp hsome
  obtain ⟨-, hkeys⟩ := hsearch mphf rfl
  exact ⟨mphf, hrun, hkeys 0 _ rfl, hkeys 1 _ rfl⟩

end PerfectHash.Cmph
