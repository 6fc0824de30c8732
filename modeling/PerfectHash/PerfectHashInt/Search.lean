import Mathlib.Data.Nat.ModEq
import Mathlib.Tactic.NormNum.Prime
import PerfectHash.PerfectHashInt.Acyclic

/-! # The search for parameters

The search fails if the graph of the keys has a cycle for each combination of seeds and multipliers
(`findParams_eq_failed`). With integer keys the two slots of a key differ by the same amount for all
keys, unless a hash wraps at 32 bits. So the graph is a part of one cycle through all vertices, and
the search fails exactly if two keys have the same slot. -/

namespace PerfectHash.PerfectHashInt

variable {mode : Mode} {E : List (Nat × Nat)} {nverts : Nat}

theorem two_le_mult2 {p : Nat × Nat × Nat} (h : p ∈ params) : 2 ≤ p.2.2 := by
  obtain ⟨seed1, seed2, mult2⟩ := p
  have hmult := (mem_params.mp h).2.2
  simp only [List.mem_cons, List.not_mem_nil, or_false] at hmult
  dsimp only
  omega

theorem findParams_eq_failed {keys : List mode.Key} {fixedKeyLength : Option Nat}
    {ps : List (Nat × Nat × Nat)} (hps : ∀ p ∈ ps, 2 ≤ p.2.2) :
    findParams mode keys fixedKeyLength ps = .error (.die "failed to generate perfect hash") ↔
      ∀ p ∈ ps, (keyGraph mode keys 257 p.2.2 p.1 p.2.1).HasCycle := by
  induction ps with
  | nil => exact ⟨fun _ _ => nofun, fun _ => rfl⟩
  | cons p ps ih =>
    obtain ⟨seed1, seed2, mult2⟩ := p
    obtain ⟨hmult, hps⟩ := List.forall_mem_cons.mp hps
    rw [List.forall_mem_cons, ← ih hps, ← constructHashTable_eq_none (by decide) hmult]
    simp only [findParams, bind, Except.bind]
    cases htable : constructHashTable mode keys 257 mult2 seed1 seed2 with
    | error stop =>
      rw [constructHashTable_error (by decide) hmult htable]
      exact ⟨fun h => absurd (Stop.die.inj (Except.error.inj h)) (by decide), nofun⟩
    | ok r =>
      cases r with
      | none => exact ⟨fun h => ⟨rfl, h⟩, fun h => h.2⟩
      | some p => exact ⟨nofun, nofun⟩

/-- The generator always ends: with a function or by dying with a message. -/
theorem generateHashFunction_error {keys : List mode.Key} {fixedKeyLength : Option Nat}
    {stop : Stop} (h : generateHashFunction mode keys fixedKeyLength = .error stop) :
    ∃ message, stop = .die message := by
  have main (ps : List (Nat × Nat × Nat)) (hps : ∀ p ∈ ps, 2 ≤ p.2.2)
      (h : findParams mode keys fixedKeyLength ps = .error stop) :
      ∃ message, stop = .die message := by
    induction ps with
    | nil =>
      cases h
      exact ⟨_, rfl⟩
    | cons p ps ih =>
      obtain ⟨seed1, seed2, mult2⟩ := p
      obtain ⟨hmult, hps⟩ := List.forall_mem_cons.mp hps
      simp only [findParams, bind, Except.bind] at h
      split at h
      · rename_i stop' hstop
        cases h
        exact ⟨_, constructHashTable_error (by decide) hmult hstop⟩
      · split at h
        · cases h
        · exact ih hps h
  exact main params (fun _ => two_le_mult2) h

theorem generateHashFunction_eq_failed {keys : List mode.Key} {fixedKeyLength : Option Nat} :
    generateHashFunction mode keys fixedKeyLength =
        .error (.die "failed to generate perfect hash") ↔
      ∀ seed1 < 10, ∀ seed2 < 10, ∀ mult2 ∈ [17, 31, 127, 8191],
        (keyGraph mode keys 257 mult2 seed1 seed2).HasCycle := by
  rw [generateHashFunction, findParams_eq_failed fun _ => two_le_mult2]
  constructor
  · exact fun h seed1 h1 seed2 h2 mult2 h3 => h (seed1, seed2, mult2) (mem_params.mpr ⟨h1, h2, h3⟩)
  · rintro h ⟨seed1, seed2, mult2⟩ hp
    obtain ⟨h1, h2, h3⟩ := mem_params.mp hp
    exact h seed1 h1 seed2 h2 mult2 h3

/-! ## Slots that differ by the same amount -/

/-- Where the ends of every edge differ by `d`, going on by `d` from the end of an edge of a cycle
leads through all vertices. -/
theorem not_hasCycle_of_shift {d : Nat} (hE : IsSimple E nverts) (hd : Nat.Coprime nverts d)
    (hshift : ∀ e < E.length, right E e = (left E e + d) % nverts)
    (hinj : ∀ e < E.length, ∀ e' < E.length, left E e = left E e' → e = e')
    (hlt : E.length < nverts) : ¬ (slotGraph E nverts).HasCycle := by
  rintro ⟨c⟩
  have hedge {i : Nat} (hi : i < c.length) : c.edge i < E.length :=
    ((inc_slotGraph hE).mp (c.isLink i hi).inc_left).1
  have hwalk (k : Nat) : ∃ e < E.length, left E e = (left E (c.edge 0) + k * d) % nverts ∧
      ∃ i < c.length, c.edge i = e := by
    induction k with
    | zero =>
      rw [Nat.zero_mul, Nat.add_zero, Nat.mod_eq_of_lt (hE _ (hedge c.pos)).left_lt]
      exact ⟨_, hedge c.pos, rfl, 0, c.pos, rfl⟩
    | succ k ih =>
      obtain ⟨_, he, hleft, i, hi, rfl⟩ := ih
      obtain ⟨j, hj, hne, hinc⟩ := c.exists_ne (not_isLoopAt_slotGraph hE) hi
        ((inc_slotGraph hE).mpr ⟨he, .inr rfl⟩)
      refine ⟨_, hedge hj, ?_, j, hj, rfl⟩
      rcases ((inc_slotGraph hE).mp hinc).2 with h | h
      · rw [h, hshift _ he, hleft, Nat.mod_add_mod, Nat.add_assoc, Nat.succ_mul]
      · -- an edge with the same end on the right would be the same one
        rw [hshift _ he, hshift _ (hedge hj)] at h
        have hmod := (Nat.ModEq.add_right_cancel' d h).eq_of_lt_of_lt (hE _ (hedge hj)).left_lt
          (hE _ he).left_lt
        exact absurd (hinj _ (hedge hj) _ he hmod) hne
  choose e he hleft _ using hwalk
  have hnodup : ((List.range nverts).map e).Nodup := by
    refine List.Nodup.map_on (fun x hx y hy hxy => ?_) List.nodup_range
    have hmod : left E (c.edge 0) + x * d ≡ left E (c.edge 0) + y * d [MOD nverts] := by
      rw [Nat.ModEq, ← hleft, ← hleft, hxy]
    exact ((Nat.ModEq.add_left_cancel' _ hmod).cancel_right_of_coprime hd).eq_of_lt_of_lt
      (List.mem_range.mp hx) (List.mem_range.mp hy)
  have hsub : (List.range nverts).map e ⊆ List.range E.length := fun x hx => by
    obtain ⟨k, -, rfl⟩ := List.mem_map.mp hx
    exact List.mem_range.mpr (he k)
  have hle := (hnodup.subperm hsub).length_le
  rw [List.length_map, List.length_range, List.length_range] at hle
  omega

/-! ## Integer keys -/

/-- The slot of an integer key under a seed of 0. -/
def intSlot (nverts : Nat) (key : Int) : Nat := (key % 4294967296).toNat % nverts

theorem getElem?_slots {κ : Type} {hash1 hash2 : κ → Nat} {keys : List κ} {i : Nat} {key : κ}
    (hi : keys[i]? = some key) : (slots hash1 hash2 nverts keys)[i]? =
      some (hash1 key % nverts, hash2 key % nverts) := by
  rw [slots, List.getElem?_map, hi]
  rfl

/-- Seed 0 for the first hash and 1 for the second make the slots of a key differ by the
multiplier. -/
theorem not_hasCycle_of_nodup {keys : List Int} {mult2 : Nat} (hmult : mult2 ∈ [17, 31, 127, 8191])
    (hkeys : ∀ key ∈ keys, key < 2 ^ 31 ∧ -2 ^ 31 ≤ key ∧ (key < -mult2 ∨ 0 ≤ key))
    (hnodup : (keys.map (intSlot (tableSize 257 mult2 keys.length))).Nodup) :
    ¬ (keyGraph .int keys 257 mult2 0 1).HasCycle := by
  have hprime : mult2.Prime := by
    simp only [List.mem_cons, List.not_mem_nil, or_false] at hmult
    rcases hmult with rfl | rfl | rfl | rfl <;> norm_num
  have hmult_le : mult2 ≤ 8191 := by
    simp only [List.mem_cons, List.not_mem_nil, or_false] at hmult
    omega
  obtain ⟨hsize, -, -, hmod⟩ := adjust_ok
    (adjust_eq_tableSize (show 2 ≤ 257 by decide) hprime.two_le keys.length)
  have hcop : Nat.Coprime (tableSize 257 mult2 keys.length) mult2 := by
    rwa [Nat.coprime_comm, hprime.coprime_iff_not_dvd, Nat.dvd_iff_mod_eq_zero]
  unfold keyGraph
  generalize tableSize 257 mult2 keys.length = N at *
  have hlen : (slots (calcHash .int · 257 0) (calcHash .int · mult2 1) N keys).length =
      keys.length := List.length_map _
  have hget {e : Nat} {key : Int} (he : keys[e]? = some key) :
      (slots (calcHash .int · 257 0) (calcHash .int · mult2 1) N keys)[e]? =
        some (intSlot N key, (intSlot N key + mult2) % N) := by
    obtain ⟨hlt, hge, hnot⟩ := hkeys key (List.mem_of_getElem? he)
    have hleft : calcHash .int key 257 0 % N = intSlot N key := by simp [calcHash, intSlot]
    have hnowrap : calcHash .int key mult2 1 = (key % 4294967296).toNat + mult2 := by
      change (((1 : Nat) * mult2 + key) % 4294967296).toNat = _
      omega
    rw [getElem?_slots he, hleft, hnowrap, intSlot, Nat.mod_add_mod]
  generalize slots (calcHash .int · 257 0) (calcHash .int · mult2 1) N keys = E at *
  have hends {e : Nat} (he : e < E.length) : ∃ key, keys[e]? = some key ∧
      left E e = intSlot N key ∧ right E e = (intSlot N key + mult2) % N := by
    have hkey : keys[e]? = some _ := List.getElem?_eq_getElem (hlen ▸ he)
    have hpair := hget hkey
    rw [getElem?_eq_ends he] at hpair
    obtain ⟨hleft, hright⟩ := Prod.mk.inj (Option.some.inj hpair)
    exact ⟨_, hkey, hleft, hright⟩
  have hE : IsSimple E N := by
    intro e he
    obtain ⟨key, -, hleft, hright⟩ := hends he
    have hlt : intSlot N key < N := Nat.mod_lt _ (by omega)
    refine ⟨by rwa [hleft], by rw [hright]; exact Nat.mod_lt _ (by omega), fun heq => ?_⟩
    have hmod : intSlot N key + 0 ≡ intSlot N key + mult2 [MOD N] := by
      rw [Nat.ModEq, ← hright, Nat.add_zero, Nat.mod_eq_of_lt hlt, ← hleft]
      exact heq
    have hdvd := Nat.modEq_zero_iff_dvd.mp (Nat.ModEq.add_left_cancel' _ hmod).symm
    have hone := Nat.Coprime.eq_one_of_dvd hcop hdvd
    omega
  refine not_hasCycle_of_shift hE hcop (fun e he => ?_) (fun e he e' he' heq => ?_) (by omega)
  · obtain ⟨key, -, hleft, hright⟩ := hends he
    rw [hleft, hright]
  · obtain ⟨key, hkey, hleft, -⟩ := hends he
    obtain ⟨key', hkey', hleft', -⟩ := hends he'
    rw [hleft, hleft'] at heq
    refine (List.getElem?_inj (by rwa [List.length_map, ← hlen]) hnodup).mp ?_
    rw [List.getElem?_map, List.getElem?_map, hkey, hkey', Option.map_some, Option.map_some, heq]

/-- Where hashes do not wrap, keys with the same slot are parallel edges. -/
theorem hasCycle_of_not_nodup {keys : List Int} {mult2 seed1 seed2 : Nat} (h1 : seed1 < 10)
    (h2 : seed2 < 10) (hmult : 2 ≤ mult2 ∧ mult2 ≤ 8191)
    (hkeys : ∀ key ∈ keys, 0 ≤ key ∧ key < 2 ^ 31)
    (hnodup : ¬ (keys.map (intSlot (tableSize 257 mult2 keys.length))).Nodup) :
    (keyGraph .int keys 257 mult2 seed1 seed2).HasCycle := by
  have hsize := two_mul_lt_tableSize (show 2 ≤ 257 by decide) hmult.1 keys.length
  unfold keyGraph
  generalize tableSize 257 mult2 keys.length = N at *
  obtain ⟨i, j, hij, hj, heq⟩ : ∃ i j, i < j ∧ j < keys.length ∧
      intSlot N (keys.getD i 0) = intSlot N (keys.getD j 0) := by
    by_contra hall
    push Not at hall
    refine hnodup (List.pairwise_iff_getElem.mpr fun i j hi hj hij => ?_)
    rw [List.length_map] at hi hj
    rw [List.getElem_map, List.getElem_map, ← List.getD_eq_getElem _ 0 hi,
      ← List.getD_eq_getElem _ 0 hj]
    exact hall i j hij hj
  have hslot {mult seed : Nat} (hmult : mult ≤ 8191) (hseed : seed < 10) :
      calcHash .int (keys.getD i 0) mult seed % N =
        calcHash .int (keys.getD j 0) mult seed % N := by
    have hle : seed * mult ≤ 9 * 8191 := Nat.mul_le_mul (by omega) hmult
    have hnowrap {k : Nat} (hk : k < keys.length) : calcHash .int (keys.getD k 0) mult seed =
        ((keys.getD k 0) % 4294967296).toNat + seed * mult := by
      have hkey := hkeys _ (List.getElem_mem hk)
      rw [← List.getD_eq_getElem _ 0 hk] at hkey
      change (((seed : Int) * mult + keys.getD k 0) % 4294967296).toNat = _
      rw [← Nat.cast_mul]
      omega
    rw [hnowrap hj, hnowrap (hij.trans hj)]
    exact Nat.ModEq.add_right _ heq
  have hpair {k : Nat} (hk : k < keys.length) :
      (slots (calcHash .int · 257 seed1) (calcHash .int · mult2 seed2) N keys)[k]? =
        some (calcHash .int (keys.getD k 0) 257 seed1 % N,
          calcHash .int (keys.getD k 0) mult2 seed2 % N) :=
    getElem?_slots (getElem?_eq_getD hk 0)
  have hlt (n : Nat) : n % N < N := Nat.mod_lt _ (by omega)
  refine Graph.hasCycle_of_parallel hij.ne
    ⟨hlt _, hlt _, .inl (hpair (hij.trans hj))⟩ ⟨hlt _, hlt _, .inl ?_⟩
  rw [hpair hj, hslot (by norm_num) h1, hslot hmult.2 h2]

/-- With integer keys the generator fails exactly if the graph has a cycle for each combination. It
does not fail if the keys have different slots for one of the multipliers and their hashes do not
wrap; if no key is negative, it fails in all other cases. -/
theorem generateHashFunction_int_failed {keys : List Int} {fixedKeyLength : Option Nat}
    (hkeys : ∀ key ∈ keys, -2 ^ 31 ≤ key ∧ key < 2 ^ 31) :
    (generateHashFunction .int keys fixedKeyLength =
        .error (.die "failed to generate perfect hash") ↔
      ∀ seed1 < 10, ∀ seed2 < 10, ∀ mult2 ∈ [17, 31, 127, 8191],
        (keyGraph .int keys 257 mult2 seed1 seed2).HasCycle) ∧
    ((∃ mult2 : Nat, mult2 ∈ [17, 31, 127, 8191] ∧ (∀ key ∈ keys, key < -mult2 ∨ 0 ≤ key) ∧
        (keys.map (intSlot (tableSize 257 mult2 keys.length))).Nodup) →
      generateHashFunction .int keys fixedKeyLength ≠
        .error (.die "failed to generate perfect hash")) ∧
    ((∀ key ∈ keys, 0 ≤ key) →
      (generateHashFunction .int keys fixedKeyLength =
          .error (.die "failed to generate perfect hash") ↔
        ∀ mult2 ∈ [17, 31, 127, 8191],
          ¬ (keys.map (intSlot (tableSize 257 mult2 keys.length))).Nodup)) := by
  have hreturns {mult2 : Nat} (hmult : mult2 ∈ [17, 31, 127, 8191])
      (hnot : ∀ key ∈ keys, key < -(mult2 : Int) ∨ 0 ≤ key)
      (hnodup : (keys.map (intSlot (tableSize 257 mult2 keys.length))).Nodup) :
      generateHashFunction .int keys fixedKeyLength ≠
        .error (.die "failed to generate perfect hash") := by
    intro h
    exact not_hasCycle_of_nodup hmult
      (fun key hkey => ⟨(hkeys key hkey).2, (hkeys key hkey).1, hnot key hkey⟩) hnodup
      (generateHashFunction_eq_failed.mp h 0 (by norm_num) 1 (by norm_num) mult2 hmult)
  refine ⟨generateHashFunction_eq_failed,
    fun ⟨mult2, hmult, hnot, hnodup⟩ => hreturns hmult hnot hnodup,
    fun hpos => ⟨fun h mult2 hmult hnodup => ?_, fun h => ?_⟩⟩
  · exact hreturns hmult (fun key hkey => .inr (hpos key hkey)) hnodup h
  · rw [generateHashFunction_eq_failed]
    intro seed1 h1 seed2 h2 mult2 hmult
    have hbounds : 2 ≤ mult2 ∧ mult2 ≤ 8191 := by
      simp only [List.mem_cons, List.not_mem_nil, or_false] at hmult
      omega
    exact hasCycle_of_not_nodup h1 h2 hbounds
      (fun key hkey => ⟨hpos key hkey, (hkeys key hkey).2⟩) (h mult2 hmult)

theorem generateHashFunction_int_failed_two :
    generateHashFunction .int [3, -40] none ≠ .error (.die "failed to generate perfect hash") :=
  (generateHashFunction_int_failed (by decide)).2.1
    ⟨17, by decide, by decide, by decide +kernel⟩

/-- Two keys that are equal modulo the table size are parallel edges whatever the parameters are. -/
theorem not_generates_int : ¬ ∀ keys : List Int, keys.Nodup →
    (∀ key ∈ keys, -2 ^ 31 ≤ key ∧ key < 2 ^ 31) →
    generateHashFunction .int keys none ≠ .error (.die "failed to generate perfect hash") := by
  intro h
  refine h [0, 5] (by decide) (by decide) (generateHashFunction_eq_failed.mpr ?_)
  intro seed1 h1 seed2 h2 mult2 hmult
  have hslot : ∀ mult2 ∈ [17, 31, 127, 8191],
      (2 ≤ mult2 ∧ mult2 ≤ 8191) ∧ ¬ ([0, 5].map (intSlot (tableSize 257 mult2 2))).Nodup := by
    decide +kernel
  exact hasCycle_of_not_nodup h1 h2 (hslot mult2 hmult).1 (by decide) (hslot mult2 hmult).2

end PerfectHash.PerfectHashInt
