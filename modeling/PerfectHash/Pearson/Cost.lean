import PerfectHash.Pearson.Table
import Mathlib.Data.Finset.Card
import Mathlib.Order.Bounds.Basic

/-! # The cost and the collisions of a table

For any table, size and keys that all have a hash value, `cost` and `collisions` describe how the
keys share these values (`cost_collisions`). -/

namespace PerfectHash.Pearson

variable {α : Type} {size : Nat} {H slots : List Nat} {keys : List Bytes} {key : Bytes} {h : Nat}

/-! ## The sum -/

/-- `cost` counts the keys that are not the first of their slot. -/
theorem Cost.sum_of (slots : List Nat) :
    (Cost.of slots).sum + slots.toFinset.card = slots.length := by
  induction slots using List.reverseRecOn with
  | nil => rfl
  | append_singleton slots h ih =>
    have hpos : (Cost.of slots).N h + 1 > 1 ↔ h ∈ slots := by
      rw [(Cost.counts_of slots).N, ← List.count_pos_iff]
      omega
    have hset : (slots ++ [h]).toFinset = insert h slots.toFinset := by
      ext j
      simp
    rw [Cost.of_concat, Cost.count, hset, List.length_append, List.length_singleton]
    dsimp only
    by_cases hh : h ∈ slots
    · rw [if_pos (hpos.mpr hh), Finset.insert_eq_of_mem (List.mem_toFinset.mpr hh)]
      omega
    · rw [if_neg (mt hpos.mp hh), Finset.card_insert_of_notMem (mt List.mem_toFinset.mp hh)]
      omega

/-! ## The maximum -/

/-- The maximum is the largest number of keys with one hash value. -/
theorem Cost.Counts.isGreatest {c : Cost} (hc : c.Counts slots) :
    IsGreatest (Set.range fun h => slots.count h) c.max := by
  refine ⟨?_, ?_⟩
  · by_contra hne
    -- a maximum that is not reached could be lowered
    have hlt (h : Nat) : slots.count h < c.max :=
      ((hc.max _).mp (Nat.le_refl _) h).lt_of_ne fun heq => hne ⟨h, heq⟩
    have hpos := hlt 0
    have hle := (hc.max (c.max - 1)).mpr fun h => Nat.le_sub_one_of_lt (hlt h)
    omega
  · rintro n ⟨h, rfl⟩
    exact (hc.max _).mp (Nat.le_refl _) h

/-! ## The lists -/

/-- The values of a list of `collisions`. -/
def entries : Option (Colliding α) → List (Option α)
  | some (.pairs l) => l.map Prod.snd
  | some (.value v) => [v]
  | none => []

theorem entries_gather (l : List (Bytes × Option α)) : entries (gather l) = l.map Prod.snd := by
  match l with
  | [] => rfl
  | [p] => rfl
  | p :: q :: l => rfl

/-! ## Hash values -/

/-- The value that `hash` returns is the slot of the key, which is below the size. -/
theorem slot_of_hash (hhash : hash (object size H) key = .ok h) :
    h = slot size H key ∧ h < size := by
  obtain ⟨d, hd, hmod⟩ := bind_eq_ok.mp hhash
  have hwalk : d = walk H 0 key := by
    rcases eq_or_ne H [] with rfl | hH
    · cases key with
      | nil => exact (Except.ok.inj hd).symm
      | cons c key =>
        rw [List.foldlM_cons] at hd
        cases hd
    · rw [foldlM_step hH] at hd
      exact (Except.ok.inj hd).symm
  unfold modulo at hmod
  split at hmod
  · cases hmod
  · obtain rfl := Except.ok.inj hmod
    exact ⟨by rw [hwalk, slot], Nat.mod_lt _ (Nat.pos_of_ne_zero ‹_›)⟩

theorem slots_of_hashes (hslots : keys.mapM (hash (object size H)) = .ok slots) :
    slots = keys.map (slot size H) ∧
      ∀ k ∈ keys, hash (object size H) k = .ok (slot size H k) ∧ slot size H k < size := by
  induction keys generalizing slots with
  | nil => exact ⟨(Except.ok.inj hslots).symm, nofun⟩
  | cons k keys ih =>
    rw [List.mapM_cons] at hslots
    obtain ⟨h, hh, hslots⟩ := bind_eq_ok.mp hslots
    obtain ⟨slots', hslots', hcons⟩ := bind_eq_ok.mp hslots
    obtain ⟨rfl, hlt⟩ := slot_of_hash hh
    obtain ⟨rfl, hkeys⟩ := ih hslots'
    exact ⟨(Except.ok.inj hcons).symm, List.forall_mem_cons.mpr ⟨⟨hh, hlt⟩, hkeys⟩⟩

/-- In the list of a slot are as many values as there are keys with this hash value. -/
theorem length_filter_zip {values : List (Option α)} (hlength : slots.length = values.length)
    (h : Nat) : (((slots.zip values).filter (·.1 = h)).map Prod.snd).length = slots.count h := by
  have hslots : (slots.zip values).map Prod.fst = slots :=
    List.map_fst_zip (Nat.le_of_eq hlength)
  conv_rhs => rw [← hslots]
  rw [List.length_map, ← List.countP_eq_length_filter, List.count, List.countP_map]
  rfl

section
variable [Scalar α]

/-- The values that `collisions` gives the keys. -/
def valuesOf (size : Nat) (keys : List Bytes) (values : List (Option α)) : List (Option α) :=
  (keyValues size keys values).map Prod.snd

theorem zip_valuesOf (size : Nat) (H : List Nat) (keys : List Bytes) (values : List (Option α)) :
    (keys.map (slot size H)).zip (valuesOf size keys values) =
      (keyValues size keys values).map fun q => (slot size H q.1, q.2) := by
  have hkeys : (keyValues size keys values).map Prod.fst = keys := by
    rw [keyValues, List.map_map]
    exact List.zipIdx_map_fst 0 keys
  have hslots : keys.map (slot size H) =
      (keyValues size keys values).map fun q => slot size H q.1 := by
    conv_lhs => rw [← hkeys, List.map_map]
    rfl
  rw [hslots, valuesOf, List.zip_map']

/-- The lists of `collisions` are described by the hash values of the keys. -/
theorem entries_collisions (values : List (Option α))
    (hslots : keys.mapM (hash (object size H)) = .ok slots) :
    ∃ C, collisions size H keys values = .ok C ∧ C.length = size ∧
      (∀ h < size, C[h]?.map entries =
        some (((slots.zip (valuesOf size keys values)).filter (·.1 = h)).map Prod.snd)) ∧
      (C.flatMap entries).Perm (valuesOf size keys values) := by
  obtain ⟨rfl, hhash⟩ := slots_of_hashes hslots
  refine ⟨_, collisions_of_hash values fun k hk => (hhash k hk).1, ?_, fun h hh => ?_, ?_⟩
  · rw [List.length_map, Buckets.length_distribute]
  · rw [List.getElem?_map, Buckets.getElem?_distribute hh, Option.map_some, Option.map_some,
      entries_gather, zip_valuesOf, List.filter_map, List.map_map]
    rfl
  · have hlt : ∀ q ∈ keyValues size keys values, slot size H q.1 < size := by
      intro q hq
      obtain ⟨p, hp, rfl⟩ := List.mem_map.mp hq
      exact (hhash p.1 (List.fst_mem_of_mem_zipIdx hp)).2
    have hperm := (Buckets.flatten_distribute_perm hlt).map Prod.snd
    rw [List.map_flatten] at hperm
    rw [List.flatMap_map, List.flatMap_def]
    simp only [entries_gather]
    exact hperm

/-- `cost` and `collisions` for keys with the hash values `slots`. -/
theorem cost_collisions (values : List (Option α))
    (hslots : keys.mapM (hash (object size H)) = .ok slots) :
    ∃ c, cost (object size H) keys = .ok c ∧ c.sum = keys.length - slots.toFinset.card ∧
      IsGreatest (Set.range fun h => slots.count h) c.max ∧ (c.max ≤ 1 ↔ slots.Nodup) ∧
      ∃ C, collisions size H keys values = .ok C ∧
        ((∃ l ∈ C, 2 ≤ (entries l).length) ↔ 1 < c.max) ∧
        (∀ h < size, C[h]?.map entries =
          some (((slots.zip (valuesOf size keys values)).filter (·.1 = h)).map Prod.snd)) ∧
        (C.flatMap entries).Perm (valuesOf size keys values) := by
  obtain ⟨C, hC, hlength, hlists, hperm⟩ := entries_collisions values hslots
  obtain ⟨hslots', hhash⟩ := slots_of_hashes hslots
  have hcounts := Cost.counts_of slots
  have hsum := Cost.sum_of slots
  have hcard : slots.length = keys.length := by rw [hslots', List.length_map]
  refine ⟨.of slots, hslots' ▸ cost_of_hash fun k hk => (hhash k hk).1, by omega,
    hcounts.isGreatest, hcounts.max_le_one_iff, C, hC, ?_, hlists, hperm⟩
  have hmax : 1 < (Cost.of slots).max ↔ ∃ h, 2 ≤ slots.count h := by
    rw [← not_le, hcounts.max, not_forall]
    simp only [not_le, Nat.lt_iff_add_one_le]
  have hentries {h : Nat} (hh : h < size) :
      ∃ l, C[h]? = some l ∧ (entries l).length = slots.count h := by
    obtain ⟨l, hl, heq⟩ := Option.map_eq_some_iff.mp (hlists h hh)
    refine ⟨l, hl, ?_⟩
    rw [heq, length_filter_zip]
    rw [hcard, valuesOf, keyValues, List.length_map, List.length_map, List.length_zipIdx]
  rw [hmax]
  constructor
  · rintro ⟨l, hl, htwo⟩
    obtain ⟨h, hh⟩ := List.mem_iff_getElem?.mp hl
    obtain ⟨l', hl', heq⟩ := hentries (hlength ▸ (List.getElem?_eq_some_iff.mp hh).1)
    obtain rfl := Option.some.inj (hh.symm.trans hl')
    exact ⟨h, heq ▸ htwo⟩
  · rintro ⟨h, htwo⟩
    have hmem : h ∈ slots := List.count_pos_iff.mp (by omega)
    rw [hslots'] at hmem
    obtain ⟨k, hk, rfl⟩ := List.mem_map.mp hmem
    obtain ⟨l, hl, heq⟩ := hentries (hhash k hk).2
    exact ⟨l, List.mem_of_getElem? hl, heq ▸ htwo⟩

end

/-- Three keys, two of which share slot 0. -/
theorem cost_collisions_three : ∃ c, cost (object 3 [1, 0, 3, 2]) [[0], [1], [2]] = .ok c ∧
    c.sum = 1 ∧ ¬ c.max ≤ 1 ∧
      ∃ C, collisions (α := Int) 3 [1, 0, 3, 2] [[0], [1], [2]] [] = .ok C ∧
        ∃ l ∈ C, 2 ≤ (entries l).length := by
  have hslots : [[0], [1], [2]].mapM (hash (object 3 [1, 0, 3, 2])) = .ok [1, 0, 0] := rfl
  obtain ⟨c, hcost, hsum, -, hmax, C, hC, htwo, -⟩ := cost_collisions (α := Int) [] hslots
  have hnot : ¬ c.max ≤ 1 := fun h => absurd (hmax.mp h) (by decide)
  exact ⟨c, hcost, hsum, hnot, C, hC, htwo.mpr (Nat.lt_of_not_le hnot)⟩

end PerfectHash.Pearson
