import PerfectHash.Cmph.Bdz.Assign
import PerfectHash.Cmph.Bdz.Rank

/-! # The functions that BDZ builds

`bdz_new` tries 1000 hash functions, and gives up exactly if the hypergraph of each has a core
(`bdzNew_eq_none_iff`). The function that it returns maps the keys to the numbers below their number,
each number once (`bdzNew_search`). `vert_degree` has one byte, so both are about hypergraphs without
vertices of more than 256 keys. -/

namespace PerfectHash.Cmph

open HyperPeeling RankSelect

variable {g : BdzGraph3} {r m n calls iterations : Nat} {hl : HashState} {keys : List Bytes}
  {E : List (Fin 3 → Nat)} {hashfunc : CmphHash} {rand : Nat → Nat} {garbage : List BdzEdge}
  {b : UInt8} {mphf : CmphT BdzData}

/-! ## The hypergraph of the keys -/

/-- The vertices of a key with the given hashes, when there are vertices. -/
def bdzCorners (r : Nat) (h : Hashes) : Fin 3 → Nat :=
  ![h.h0.toNat % r, h.h1.toNat % r + r, h.h2.toNat % r + 2 * r]

theorem bdzVertices_eq (hr : 0 < r) (hlt : 3 * r < 2 ^ 32) (h : Hashes) :
    bdzVertices r h = some (bdzCorners r h) := by
  have h1 := Nat.mod_lt h.h1.toNat hr
  have h2 := Nat.mod_lt h.h2.toNat hr
  have htwice : u32 (2 * (r : Int)) = 2 * r := u32_of_eq (by omega) (by push_cast; rfl)
  have hone : u32 ((h.h1.toNat % r : Nat) + (r : Int)) = h.h1.toNat % r + r :=
    u32_of_eq (by omega) (by push_cast; rfl)
  have htwo : u32 ((h.h2.toNat % r : Nat) + ((2 * r : Nat) : Int)) = h.h2.toNat % r + 2 * r :=
    u32_of_eq (by omega) (by push_cast; rfl)
  simp only [bdzVertices, if_neg hr.ne', htwice, hone, htwo]
  rfl

theorem bdzCorners_corners (hr : 0 < r) (h : Hashes) : Corners r (bdzCorners r h) := by
  have hdiv (x k : Nat) : (x % r + k * r) / r = k := by
    rw [Nat.add_mul_div_right _ _ hr, Nat.div_eq_of_lt (Nat.mod_lt x hr), Nat.zero_add]
  intro j
  match j with
  | 0 => exact Nat.div_eq_of_lt (Nat.mod_lt _ hr)
  | 1 =>
    have := hdiv h.h1.toNat 1
    rwa [Nat.one_mul] at this
  | 2 => exact hdiv h.h2.toNat 2

/-- The edges of the keys. -/
def bdzEdges (r : Nat) (hl : HashState) (keys : List Bytes) : List (Fin 3 → Nat) :=
  keys.map fun key => bdzCorners r (hashVector hl key)

/-- The edges can not all be removed. -/
def HasCore (E : List (Fin 3 → Nat)) : Prop := ∃ S, IsCore (Incident E) {e | e < E.length} S

/-! ## The mapping step -/

theorem bdzAddEdges_spec (hl : HashState) (keys : List Bytes) (hlt : 3 * r < 2 ^ 32)
    (hg : g.Stores r m E)
    (hlists : ∀ j, g.Lists r E j []) (hle : E.length + keys.length ≤ m) :
    ∃ g', keys.foldlM (fun graph3 key => do
        let v ← bdzVertices r (hashVector hl key)
        bdzAddEdge graph3 (v 0) (v 1) (v 2)) g = some g' ∧
      g'.Stores r m (E ++ bdzEdges r hl keys) ∧ ∀ j, g'.Lists r (E ++ bdzEdges r hl keys) j [] := by
  induction keys generalizing g E with
  | nil =>
    rw [bdzEdges, List.map_nil, List.append_nil]
    exact ⟨g, rfl, hg, hlists⟩
  | cons key keys ih =>
    rw [List.length_cons] at hle
    have hcorners := bdzCorners_corners hg.pos (hashVector hl key)
    obtain ⟨g₁, hadd, hg₁, hlists₁⟩ := hg.addEdge hlists hcorners (by omega)
    obtain ⟨g', hrun, hg', hlists'⟩ := ih hg₁ hlists₁ (by
      rw [List.length_append, List.length_singleton]
      omega)
    have hedges : E ++ bdzEdges r hl (key :: keys) =
        E ++ [bdzCorners r (hashVector hl key)] ++ bdzEdges r hl keys := by
      rw [List.append_assoc]
      rfl
    rw [hedges]
    refine ⟨g', ?_, hg', hlists'⟩
    rw [List.foldlM_cons, bdzVertices_eq hg.pos hlt]
    simp only [Option.bind_eq_bind, Option.bind_some, hadd]
    exact hrun

/-- What a successful mapping step leaves. -/
structure BdzMapped (r : Nat) (E : List (Fin 3 → Nat)) (g : BdzGraph3) (queue : List Nat) : Prop where
  stores : g.Stores r E.length E
  nodup : queue.Nodup
  lt : ∀ e ∈ queue, e < E.length
  length : queue.length = E.length
  leaf : LeafOrder (Incident E) {e | e < E.length} queue.reverse

/-- `bdz_mapping` succeeds if the hypergraph has no core. -/
theorem bdzMapping_spec (hr : 0 < r) (hlt : 3 * r < 2 ^ 32) (hm : keys.length < nullEdge)
    (hlen : g.edges.length = keys.length) (hnarrow : Narrow (bdzEdges r hl keys)) :
    ∃ ok g' queue, bdzMapping r (3 * r) hl g keys = some (ok, g', queue) ∧
      g'.edges.length = keys.length ∧ (ok = true ↔ ¬ HasCore (bdzEdges r hl keys)) ∧
      (ok = true → BdzMapped r (bdzEdges r hl keys) g' queue) := by
  obtain ⟨hg₀, hlists₀⟩ := bdzInitGraph3_stores hr hm hlen
  obtain ⟨g₁, hadd, hg₁, hlists₁⟩ := bdzAddEdges_spec hl keys hlt hg₀ hlists₀
    (Nat.le_of_eq (Nat.zero_add _))
  rw [List.nil_append] at hg₁ hlists₁
  have hedges : (bdzEdges r hl keys).length = keys.length := List.length_map _
  obtain ⟨ret, g', queue, hrun, hg', hnodup, hlt', hret, hspec⟩ :=
    bdzGenerateQueue_spec hg₁ hedges hlists₁
  obtain ⟨hleaf, hcore⟩ := hspec hnarrow
  rw [← hedges] at hlt' hret hcore hleaf hg'
  refine ⟨decide (ret = 0), g', queue, ?_, hg'.length_edges.trans hedges,
    decide_eq_true_iff.trans (hret.trans hcore), fun hok => ?_⟩
  · rw [bdzMapping, hadd, Option.bind_eq_bind, Option.bind_some, hrun]
    rfl
  · exact ⟨hg', hnodup, hlt', hret.mp (of_decide_eq_true hok), hleaf⟩

/-- The hypergraph of an attempt. -/
def bdzAttempt (r : Nat) (hashfunc : CmphHash) (rand : Nat → Nat) (keys : List Bytes)
    (calls : Nat) : List (Fin 3 → Nat) :=
  bdzEdges r (seededHash 15 (rand calls) hashfunc) keys

theorem bdzMappingLoop_spec (hashfunc : CmphHash) (rand : Nat → Nat) (calls : Nat) (hr : 0 < r)
    (hlt : 3 * r < 2 ^ 32) (hm : keys.length < nullEdge)
    (hlen : g.edges.length = keys.length) (hpos : 0 < iterations)
    (hnarrow : ∀ k < iterations, Narrow (bdzAttempt r hashfunc rand keys (calls + k))) :
    ∃ res, bdzMappingLoop r (3 * r) hashfunc rand keys iterations calls g = some res ∧
      (res = none ↔ ∀ k < iterations, HasCore (bdzAttempt r hashfunc rand keys (calls + k))) ∧
      ∀ hl g' queue, res = some (hl, g', queue) → BdzMapped r (bdzEdges r hl keys) g' queue := by
  induction iterations generalizing g calls with
  | zero => cases hpos
  | succ iterations ih =>
    obtain ⟨ok, g', queue, hrun, hlen', hok, hmapped⟩ := bdzMapping_spec hr hlt hm hlen
      (hnarrow 0 hpos)
    rw [Nat.add_zero] at hrun hok hmapped
    rw [bdzMappingLoop, hashStateNew_eq (by decide)]
    simp only [Option.bind_eq_bind, Option.bind_some, hrun]
    cases ok with
    | true =>
      refine ⟨_, rfl, iff_of_false nofun fun h => hok.mp rfl (h 0 hpos), ?_⟩
      rintro hl' g'' queue' ⟨⟩
      exact hmapped rfl
    | false =>
      have hcore := not_not.mp (mt hok.mpr Bool.false_ne_true)
      rw [if_neg Bool.false_ne_true]
      rcases Nat.eq_zero_or_pos iterations with rfl | hpos
      · refine ⟨none, rfl, iff_of_true rfl fun k hk => ?_, nofun⟩
        obtain rfl : k = 0 := by omega
        exact hcore
      · have hshift (k : Nat) : calls + 1 + k = calls + (k + 1) := by omega
        obtain ⟨res, hrun, hnone, hsome⟩ := ih (calls + 1) hlen' hpos fun k hk => by
          rw [hshift]
          exact hnarrow (k + 1) (by omega)
        rw [if_neg hpos.ne']
        refine ⟨res, hrun, hnone.trans ⟨fun h k hk => ?_, fun h k hk => ?_⟩, hsome⟩
        · cases k with
          | zero => exact hcore
          | succ k => exact hshift k ▸ h k (by omega)
        · rw [hshift]
          exact h (k + 1) (by omega)

/-! ## What is built -/

/-- The number of vertices in a part: an odd number. -/
def bdzParts (r : Nat) : Nat := if r % 2 = 0 then r + 1 else r

theorem bdzParts_pos (r : Nat) : 0 < bdzParts r := by
  rw [bdzParts]
  split <;> omega

/-- The function of the keys with a hash function: each key has a vertex of its own, and these are
the vertices that have a value other than 3. -/
structure BdzBuilt (r : Nat) (b : UInt8) (keys : List Bytes) (hl : HashState) (mphf : CmphT BdzData)
    (picked : List Nat) : Prop where
  algo : mphf.algo = .bdz
  size : mphf.size = keys.length
  data_m : mphf.data.m = keys.length
  data_n : mphf.data.n = 3 * r
  data_r : mphf.data.r = r
  data_hl : mphf.data.hl = some hl
  data_k : mphf.data.k = 2 ^ b.toNat
  data_b : mphf.data.b = b
  length_g : mphf.data.g.length = sizeG (3 * r)
  ranktablesize : mphf.data.ranktablesize = rankTableSize (3 * r) (2 ^ b.toNat)
  length_ranktable : mphf.data.ranktable.length = mphf.data.ranktablesize
  ranks : HasRanks mphf.data.g (2 ^ b.toNat) mphf.data.ranktable mphf.data.ranktablesize
  nodup : picked.Nodup
  taken_iff : ∀ v : Nat, (taken mphf.data.g)[v]? = some true ↔ v ∈ picked
  picks : (bdzEdges r hl keys).map (pick (values mphf.data.g)) = picked.map some

theorem map_pick_eq {vals picked queue : List Nat}
    (hpicks : List.Forall₂ (fun e v => ∃ p, E[e]? = some p ∧ pick vals p = some v) queue picked) :
    queue.map (fun e => E[e]?.bind (pick vals)) = picked.map some := by
  induction hpicks with
  | nil => rfl
  | cons h _ ih =>
    obtain ⟨p, hp, hv⟩ := h
    rw [List.map_cons, List.map_cons, ih, hp, Option.bind_some, hv]

/-- The vertices that are picked, in the order of the keys. -/
theorem exists_map_pick_eq {vals picked queue : List Nat}
    (hqueue : queue.Perm (List.range E.length))
    (hpicks : List.Forall₂ (fun e v => ∃ p, E[e]? = some p ∧ pick vals p = some v) queue picked) :
    ∃ picked' : List Nat, E.map (pick vals) = picked'.map some ∧ picked'.Perm picked := by
  have hrange : (List.range E.length).map (fun e => E[e]?.bind (pick vals)) = E.map (pick vals) := by
    have h := congrArg (List.map fun o : Option _ => o.bind (pick vals)) (map_getElem?_range E)
    rwa [List.map_map, List.map_map] at h
  have hperm : (E.map (pick vals)).Perm (picked.map some) := by
    rw [← hrange, ← map_pick_eq hpicks]
    exact (hqueue.map _).symm
  have hsome : ∀ o ∈ E.map (pick vals), some (o.getD 0) = o := fun o ho => by
    obtain ⟨v, -, rfl⟩ := List.mem_map.mp (hperm.mem_iff.mp ho)
    rfl
  have hmap : E.map (pick vals) = ((E.map (pick vals)).map fun o => o.getD 0).map some := by
    rw [List.map_map]
    exact ((List.map_congr_left hsome).trans (List.map_id _)).symm
  refine ⟨(E.map (pick vals)).map fun o => o.getD 0, hmap, ?_⟩
  rw [hmap] at hperm
  exact (List.map_perm_map_iff (Option.some_injective _)).mp hperm

/-- The tables of a successful mapping step. -/
theorem BdzMapped.tables {queue : List Nat} (h : BdzMapped r E g queue) :
    ∃ (table : Bytes) (picked : List Nat), assigning (3 * r) g queue = some table ∧
      table.length = sizeG (3 * r) ∧ picked.Nodup ∧ picked.length = E.length ∧
      (∀ v : Nat, (taken table)[v]? = some true ↔ v ∈ picked) ∧
      E.map (pick (values table)) = picked.map some := by
  obtain ⟨table, picked, hassign, hlength, hnodup, hvalue, hpicks⟩ :=
    assigning_spec h.stores rfl h.leaf h.nodup h.lt h.length
  have hqueue : queue.Perm (List.range E.length) :=
    (h.nodup.subperm fun e he => List.mem_range.mpr (h.lt e he)).perm_of_length_le
      (by rw [List.length_range, h.length])
  obtain ⟨picked', hmap, hperm⟩ := exists_map_pick_eq hqueue hpicks
  refine ⟨table, picked', hassign, hlength, hperm.nodup_iff.mpr hnodup, ?_, fun v => ?_, hmap⟩
  · rw [← List.length_map some, ← hmap, List.length_map]
  · rw [taken, List.getElem?_map, Option.map_eq_some_iff, hperm.mem_iff]
    constructor
    · rintro ⟨x, hx, hne⟩
      exact (hvalue v x hx).mp (of_decide_eq_true hne)
    · intro hv
      have hmem : some v ∈ E.map (pick (values table)) := by
        rw [hmap]
        exact List.mem_map_of_mem (hperm.mem_iff.mpr hv)
      obtain ⟨p, -, hpick⟩ := List.mem_map.mp hmem
      obtain ⟨-, -, x, hx⟩ := exists_of_pick hpick
      exact ⟨x, hx, decide_eq_true ((hvalue v x hx).mpr hv)⟩

/-- The entries of the rank table stand for whole bytes. -/
theorem rankTableSize_fits {k size i : Nat} (hsize : k = 4 * size) (hpos : 0 < k)
    (hi : i < rankTableSize n k) : i * size ≤ sizeG n := by
  have hle := Nat.mul_le_of_le_div _ _ _ (show i + 1 ≤ (n + k - 1) / k from hi)
  rw [Nat.succ_mul, hsize, Nat.mul_left_comm] at hle
  rw [sizeG, Nat.le_div_iff_mul_le (by decide)]
  omega

theorem bdzNew_spec (hashfunc : CmphHash) (rand : Nat → Nat) (hlt : 3 * bdzParts r < 2 ^ 32)
    (hm : keys.length < nullEdge) (hgarbage : garbage.length = keys.length)
    (hb : 3 ≤ b.toNat) (hb' : b.toNat ≤ 10)
    (hnarrow : ∀ k < 1000, Narrow (bdzAttempt (bdzParts r) hashfunc rand keys k)) :
    ∃ res, bdzNew r b hashfunc rand keys garbage = some res ∧
      (res = none ↔ ∀ k < 1000, HasCore (bdzAttempt (bdzParts r) hashfunc rand keys k)) ∧
      ∀ mphf, res = some mphf → ∃ hl picked, BdzBuilt (bdzParts r) b keys hl mphf picked := by
  have hparts : (if r % 2 = 0 then u32 ((r : Int) + 1) else r) = bdzParts r := by
    rw [bdzParts] at hlt ⊢
    split
    · rename_i heven
      rw [if_pos heven] at hlt
      exact u32_of_eq (by omega) (by push_cast; rfl)
    · rfl
  have hr := bdzParts_pos r
  generalize bdzParts r = R at hparts hlt hr hnarrow
  have hn : u32 (3 * (R : Int)) = 3 * R := u32_of_eq hlt (by push_cast; rfl)
  have hshift (k : Nat) : 0 + k = k := Nat.zero_add k
  obtain ⟨res, hrun, hnone, hsome⟩ := bdzMappingLoop_spec (g := ⟨0, garbage, [], []⟩) hashfunc rand 0
    hr hlt hm hgarbage (show 0 < 1000 by decide) (by simpa only [hshift] using hnarrow)
  simp only [hshift] at hnone
  simp only [bdzNew, hparts, hn, hrun, Option.bind_eq_bind, Option.bind_some]
  cases res with
  | none => exact ⟨none, rfl, iff_of_true rfl (hnone.mp rfl), fun _ h => by cases h⟩
  | some found =>
    obtain ⟨hl, graph3, queue⟩ := found
    obtain ⟨table, picked, hassign, hlength, hnodup, hcount, htaken, hpicks⟩ :=
      (hsome hl graph3 queue rfl).tables
    have hedges : (bdzEdges R hl keys).length = keys.length := List.length_map _
    have hones : ones (taken table) < 2 ^ 32 := by
      have hperm := (map_rank_perm hnodup htaken).length_eq
      rw [List.length_map, List.length_range] at hperm
      have hnull : nullEdge = 2 ^ 32 - 1 := rfl
      omega
    have hpow : 2 ^ b.toNat = 4 * 2 ^ (b.toNat - 2) := by
      rw [show 4 = 2 ^ 2 from rfl, ← Nat.pow_add, Nat.add_sub_cancel' (by omega)]
    have hpos : 0 < 2 ^ b.toNat := Nat.two_pow_pos _
    have hshiftRight : 2 ^ b.toNat >>> 2 = 2 ^ (b.toNat - 2) := by
      rw [shiftRight_two, hpow, Nat.mul_div_cancel_left _ (by decide)]
    have hsizeG : sizeG (3 * R) < 2 ^ 32 := by
      rw [sizeG]
      omega
    have hentries : 0 < rankTableSize (3 * R) (2 ^ b.toNat) := Nat.div_pos (by omega) hpos
    obtain ⟨ranktable, hranking, hranklen, hranks⟩ := ranking_spec hpow hshiftRight hlength hentries
      (fun i hi => rankTableSize_fits hpow hpos hi) hsizeG hones
    rw [← Nat.one_shiftLeft] at hranking hranklen hranks
    dsimp only
    rw [hassign, Option.bind_some, hranking]
    refine ⟨_, rfl, iff_of_false (Option.some_ne_none _) fun h =>
      Option.some_ne_none _ (hnone.mpr h), ?_⟩
    rintro mphf ⟨⟩
    rw [Nat.one_shiftLeft] at hranks
    exact ⟨hl, picked, rfl, rfl, rfl, rfl, rfl, rfl, Nat.one_shiftLeft _, rfl, hlength,
      by rw [← Nat.one_shiftLeft], hranklen, by rwa [Nat.one_shiftLeft], hnodup, htaken, hpicks⟩

/-! ## Searching -/

theorem bdzVertex_eq (hr : 0 < r) (hlt : 3 * r < 2 ^ 32) (table : Bytes) (h : Hashes) :
    bdzVertex r table h = pick (values table) (bdzCorners r h) := by
  rw [bdzVertex, bdzVertices_eq hr hlt, Option.bind_eq_bind, Option.bind_some]
  simp only [getValue_eq]
  rfl

/-- There are as many values other than 3 as keys. -/
theorem BdzBuilt.ones {picked : List Nat} (h : BdzBuilt r b keys hl mphf picked) :
    ones (taken mphf.data.g) = keys.length := by
  have hcount := (map_rank_perm h.nodup h.taken_iff).length_eq
  rw [List.length_map, List.length_range] at hcount
  rw [← hcount, ← List.length_map some, ← h.picks, List.length_map, bdzEdges, List.length_map]

/-- The rank of a vertex. -/
theorem BdzBuilt.bdzRank {picked : List Nat} {v : Nat} (h : BdzBuilt r b keys hl mphf picked)
    (hlt : 3 * r < 2 ^ 32) (hm : keys.length < nullEdge) (hb : 3 ≤ b.toNat) (hv : v < 3 * r) :
    bdzRank mphf.data.b mphf.data.ranktable mphf.data.g v = some (rank (taken mphf.data.g) v) := by
  have hnull : nullEdge = 2 ^ 32 - 1 := rfl
  have hpos : 0 < 2 ^ b.toNat := Nat.two_pow_pos _
  have hentry : v / 2 ^ b.toNat < mphf.data.ranktablesize := by
    rw [h.ranktablesize, rankTableSize, Nat.lt_iff_add_one_le, ← Nat.add_div_right v hpos]
    exact Nat.div_le_div_right (by omega)
  rw [h.data_b]
  refine bdzRank_spec (by omega) h.ranks hentry ?_ (by omega) ?_
  · rw [h.length_g, sizeG]
    omega
  · rw [h.ones]
    omega

/-- The value of a key is the rank of the vertex that it picks. -/
theorem BdzBuilt.search {picked : List Nat} (h : BdzBuilt r b keys hl mphf picked) (hr : 0 < r)
    (hlt : 3 * r < 2 ^ 32) (hm : keys.length < nullEdge) (hb : 3 ≤ b.toNat) :
    keys.map (bdzSearch mphf.data) = (picked.map (rank (taken mphf.data.g))).map some := by
  have hrank : ∀ v ∈ picked, Cmph.bdzRank mphf.data.b mphf.data.ranktable mphf.data.g v =
      some (rank (taken mphf.data.g) v) := fun v hv => by
    have hmem : some v ∈ (bdzEdges r hl keys).map (pick (values mphf.data.g)) :=
      h.picks ▸ List.mem_map_of_mem hv
    obtain ⟨p, hp, hpick⟩ := List.mem_map.mp hmem
    obtain ⟨key, -, rfl⟩ := List.mem_map.mp hp
    obtain ⟨j, rfl, -⟩ := exists_of_pick hpick
    exact h.bdzRank hlt hm hb (lt_of_div_eq hr (bdzCorners_corners hr (hashVector hl key) j))
  have hsearch : bdzSearch mphf.data = fun key => (pick (values mphf.data.g)
      (bdzCorners r (hashVector hl key))).bind
        (Cmph.bdzRank mphf.data.b mphf.data.ranktable mphf.data.g) := by
    funext key
    rw [bdzSearch, h.data_hl, h.data_r, Option.bind_eq_bind, Option.bind_some, bdzVertex_eq hr hlt]
    rfl
  have hmap := congrArg (List.map fun o : Option Nat =>
    o.bind (Cmph.bdzRank mphf.data.b mphf.data.ranktable mphf.data.g)) h.picks
  rw [bdzEdges, List.map_map, List.map_map, List.map_map] at hmap
  rw [hsearch, List.map_map]
  exact hmap.trans (List.map_congr_left hrank)

/-- The values of the keys are the numbers below their number. -/
theorem BdzBuilt.search_perm {picked : List Nat} (h : BdzBuilt r b keys hl mphf picked) (hr : 0 < r)
    (hlt : 3 * r < 2 ^ 32) (hm : keys.length < nullEdge) (hb : 3 ≤ b.toNat) :
    ∃ vs : List Nat, keys.map (bdzSearch mphf.data) = vs.map some ∧
      vs.Perm (List.range keys.length) := by
  refine ⟨_, h.search hr hlt hm hb, ?_⟩
  rw [← h.ones]
  exact map_rank_perm h.nodup h.taken_iff

/-- Up to 256 keys can not have too many at one vertex. -/
theorem narrow_bdzAttempt (h : keys.length ≤ 256) :
    Narrow (bdzAttempt r hashfunc rand keys calls) := fun _ =>
  List.countP_le_length.trans ((List.length_map _).trans_le h)

/-- `bdz_new` gives up exactly if each of the 1000 hypergraphs has a core. -/
theorem bdzNew_eq_none_iff (hlt : 3 * bdzParts r < 2 ^ 32) (hm : keys.length < nullEdge)
    (hgarbage : garbage.length = keys.length) (hb : 3 ≤ b.toNat) (hb' : b.toNat ≤ 10)
    (hnarrow : ∀ k < 1000, Narrow (bdzAttempt (bdzParts r) hashfunc rand keys k)) :
    bdzNew r b hashfunc rand keys garbage = some none ↔
      ∀ k < 1000, HasCore (bdzAttempt (bdzParts r) hashfunc rand keys k) := by
  obtain ⟨res, hrun, hnone, -⟩ := bdzNew_spec hashfunc rand hlt hm hgarbage hb hb' hnarrow
  rw [hrun, Option.some.injEq, hnone]

theorem bdzNew_eq_none_iff_two :
    ¬ ∀ k < 1000, HasCore (bdzAttempt 3 .jenkins (fun k => k) [[0x61], [0x62]] k) := by
  intro hcore
  have hnone := (@bdzNew_eq_none_iff 3 [[0x61], [0x62]] .jenkins (fun k => k)
    (List.replicate 2 ⟨fun _ => 0, fun _ => 0⟩) 7 (by decide) (by decide) rfl (by decide) (by decide)
    fun k _ => narrow_bdzAttempt (by decide)).mpr hcore
  cases hnone

/-- The function that `bdz_new` returns is a bijection from the keys to the numbers below their
number. -/
theorem bdzNew_search (hlt : 3 * bdzParts r < 2 ^ 32) (hm : keys.length < nullEdge)
    (hgarbage : garbage.length = keys.length) (hb : 3 ≤ b.toNat) (hb' : b.toNat ≤ 10)
    (hnarrow : ∀ k < 1000, Narrow (bdzAttempt (bdzParts r) hashfunc rand keys k)) :
    ∃ res, bdzNew r b hashfunc rand keys garbage = some res ∧ ∀ mphf, res = some mphf →
      mphf.size = keys.length ∧
      ∃ vs : List Nat, keys.map (bdzSearch mphf.data) = vs.map some ∧
        vs.Perm (List.range keys.length) := by
  obtain ⟨res, hrun, -, hsome⟩ := bdzNew_spec hashfunc rand hlt hm hgarbage hb hb' hnarrow
  refine ⟨res, hrun, fun mphf hres => ?_⟩
  obtain ⟨hl, picked, hbuilt⟩ := hsome mphf hres
  exact ⟨hbuilt.size, hbuilt.search_perm (bdzParts_pos r) hlt hm hb⟩

theorem bdzNew_search_two : ∃ mphf,
    bdzNew 3 7 .jenkins (fun k => k) [[0x61], [0x62]] (List.replicate 2 ⟨fun _ => 0, fun _ => 0⟩) =
      some (some mphf) ∧
    ∃ vs : List Nat, [[0x61], [0x62]].map (bdzSearch mphf.data) = vs.map some ∧
      vs.Perm (List.range 2) := by
  obtain ⟨res, hrun, hsearch⟩ := @bdzNew_search 3 [[0x61], [0x62]] .jenkins (fun k => k)
    (List.replicate 2 ⟨fun _ => 0, fun _ => 0⟩) 7 (by decide) (by decide) rfl (by decide) (by decide)
    fun k _ => narrow_bdzAttempt (by decide)
  have hsome : res.isSome := by
    rw [← Option.some.inj hrun]
    rfl
  obtain ⟨mphf, rfl⟩ := Option.isSome_iff_exists.mp hsome
  exact ⟨mphf, hrun, (hsearch mphf rfl).2⟩

end PerfectHash.Cmph
