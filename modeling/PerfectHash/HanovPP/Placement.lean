import PerfectHash.HanovPP.SeedSearch
import PerfectHash.Lib.Buckets

/-! # The placement of the keys

The invariant of the two placement loops of `new` and what it gives for finished tables
(`Tables.Complete`): every key with a value finds that value in the slot that `G` leads it to, the
entry of `G` tells how many keys its bucket has, and if all keys have values no slot is empty.
Nothing is assumed of the hash function; that the keys are distinct follows from the end of the
seed searches, since two equal keys share a bucket and every slot. -/

namespace PerfectHash.HanovPP

section
variable (hash : Bytes → Nat → Nat) (size : Nat) (keys : List Bytes) (dict : Bytes → Option α)

/-- The keys of bucket `b`. -/
def bucket (b : Nat) : List Bytes := keys.filter fun k => hash k 0 % size = b

/-- The slot that the entry `g` of its bucket leads a key to. -/
def entrySlot (g : Int) (k : Bytes) : Nat :=
  if g < 0 then (-g - 1).toNat else if g = 0 then hash k 0 % size else hash k g.toNat % size

/-- The slot that `G` leads a key to. -/
def slotOf (G : List Int) (k : Bytes) : Nat := entrySlot hash size (G.getD (hash k 0 % size) 0) k

/-- The writes to `V` when bucket `b` gets the entry `g`. -/
def seats (g : Int) (b : Nat) : List (Nat × Option α) :=
  ((bucket hash size keys b).map fun k => (entrySlot hash size g k, dict k)).reverse

/-- The sizes of the buckets of `rest` together. -/
def load (rest : List Nat) : Nat := (rest.map fun b => (bucket hash size keys b).length).sum

/-- What an entry of `G` says about its bucket: a seed for two or more keys, a slot written as a
negative number for one key, `0` for no key. It leads the keys of the bucket to distinct slots. -/
structure Entry (b : Nat) (g : Int) : Prop where
  multi : 2 ≤ (bucket hash size keys b).length → 0 < g
  single : (bucket hash size keys b).length = 1 → -(size : Int) ≤ g ∧ g < 0
  empty : (bucket hash size keys b).length = 0 → g = 0
  distinct : ((bucket hash size keys b).map (entrySlot hash size g)).Nodup

/-- The tables after the buckets outside `rest` were placed. -/
structure Placed (rest : List Nat) (t : Tables α) : Prop where
  length_G : t.G.length = size
  length_V : t.V.length = size
  seated : ∀ k ∈ keys, hash k 0 % size ∉ rest → ∀ v, dict k = some v →
    SlotTable.get t.V (slotOf hash size t.G k) = some v
  entry : ∀ b < size, b ∉ rest → Entry hash size keys b (t.G.getD b 0)
  unset : ∀ b ∈ rest, t.G.getD b 0 = 0
  exact : (∀ k ∈ keys, (dict k).isSome) → SlotTable.free t.V = load hash size keys rest

/-- The tables of `new` when it returns. -/
structure Complete (t : Tables α) : Prop where
  length_G : t.G.length = size
  length_V : t.V.length = size
  nodup : keys.Nodup
  seated : ∀ k ∈ keys, ∀ v, dict k = some v →
    SlotTable.get t.V (slotOf hash size t.G k) = some v
  entry : ∀ b < size, Entry hash size keys b (t.G.getD b 0)
  full : (∀ k ∈ keys, (dict k).isSome) → SlotTable.free t.V = 0

end

variable {hash : Bytes → Nat → Nat} {size : Nat} {keys : List Bytes} {dict : Bytes → Option α}

/-! ## The buckets -/

theorem getD_fillBuckets (hb : b < size) :
    (fillBuckets hash size keys).getD b [] = bucket hash size keys b :=
  Buckets.getD_distribute hb

theorem mem_bucket : k ∈ bucket hash size keys b ↔ k ∈ keys ∧ hash k 0 % size = b := by
  simp [bucket]

/-- The buckets together hold every key once. -/
theorem sum_length_bucket (keys : List Bytes) (hsize : 0 < size) :
    ((List.range size).map fun b => (bucket hash size keys b).length).sum = keys.length :=
  Buckets.sum_length_filter fun _ _ => Nat.mod_lt _ hsize

/-- If no bucket has a key twice then no key is there twice. -/
theorem nodup_of_nodup_bucket (hsize : 0 < size)
    (h : ∀ b < size, (bucket hash size keys b).Nodup) : keys.Nodup := by
  rw [List.nodup_iff_count_le_one]
  intro k
  have hb := h _ (Nat.mod_lt (hash k 0) hsize)
  rw [List.nodup_iff_count_le_one] at hb
  have hcount := hb k
  rwa [bucket, List.count_filter (by simp)] at hcount

/-! ## One bucket -/

theorem Placed.start (hsize : size = keys.length) (hpos : 0 < size)
    (hsorted : sorted.Perm (List.range size)) :
    Placed hash size keys dict sorted
      { G := List.replicate size 0, V := List.replicate size none } where
  length_G := List.length_replicate
  length_V := List.length_replicate
  seated k _ hmem :=
    absurd (hsorted.mem_iff.mpr (List.mem_range.mpr (Nat.mod_lt (hash k 0) hpos))) hmem
  entry b hb hmem := absurd (hsorted.mem_iff.mpr (List.mem_range.mpr hb)) hmem
  unset b _ := by
    rw [List.getD_eq_getElem?_getD, List.getElem?_replicate]
    split <;> rfl
  exact _ := by
    rw [SlotTable.free_replicate, load, (hsorted.map _).sum_eq, sum_length_bucket keys hpos, hsize]

theorem map_fst_seats (g : Int) (b : Nat) : (seats hash size keys dict g b).map Prod.fst =
    ((bucket hash size keys b).map (entrySlot hash size g)).reverse := by
  simp [seats, List.map_reverse, Function.comp_def]

theorem length_seats (dict : Bytes → Option α) (g : Int) (b : Nat) :
    (seats hash size keys dict g b).length = (bucket hash size keys b).length := by
  rw [seats, List.length_reverse, List.length_map]

theorem mem_seats : p ∈ seats hash size keys dict g b ↔
    ∃ k ∈ bucket hash size keys b, (entrySlot hash size g k, dict k) = p := by
  simp [seats]

/-- The seats of a bucket are distinct free slots if its keys are led to such. -/
theorem seats_fresh (hlength : V.length = size)
    (hdistinct : ((bucket hash size keys b).map (entrySlot hash size g)).Nodup)
    (hempty : ∀ k ∈ bucket hash size keys b,
      entrySlot hash size g k < size ∧ SlotTable.get V (entrySlot hash size g k) = none) :
    ((seats hash size keys dict g b).map Prod.fst).Nodup ∧
      ∀ p ∈ seats hash size keys dict g b, p.1 < V.length ∧ SlotTable.get V p.1 = none := by
  rw [map_fst_seats, List.nodup_reverse]
  refine ⟨hdistinct, fun p hp => ?_⟩
  obtain ⟨k, hk, rfl⟩ := mem_seats.mp hp
  rw [hlength]
  exact hempty k hk

/-- Placing a bucket: its entry of `G` leads its keys to distinct free slots, which get their
values. No slot that was given away before changes, because it is not free. -/
theorem Placed.seat (h : Placed hash size keys dict (b :: rest) t) (hnd : (b :: rest).Nodup)
    (hb : b < size) (hempty : ∀ k ∈ bucket hash size keys b,
      entrySlot hash size g k < size ∧ SlotTable.get t.V (entrySlot hash size g k) = none)
    (hentry : Entry hash size keys b g) :
    Placed hash size keys dict rest
      { G := t.G.set b g, V := SlotTable.fill t.V (seats hash size keys dict g b) } := by
  have hbrest : b ∉ rest := (List.nodup_cons.mp hnd).1
  have hset : (t.G.set b g).getD b 0 = g := by
    simp [List.getD_eq_getElem?_getD, h.length_G, hb]
  have hkeep : ∀ c, c ≠ b → (t.G.set b g).getD c 0 = t.G.getD c 0 := by
    intro c hc
    simp only [List.getD_eq_getElem?_getD, List.getElem?_set_ne (Ne.symm hc)]
  obtain ⟨hslots, hseats⟩ := seats_fresh h.length_V hentry.distinct hempty
  refine ⟨by rw [List.length_set, h.length_G], by rw [SlotTable.length_fill, h.length_V],
    ?_, ?_, ?_, ?_⟩
  · intro k hk hmem v hv
    rcases eq_or_ne (hash k 0 % size) b with hkb | hkb
    · have hp : (entrySlot hash size g k, dict k) ∈ seats hash size keys dict g b :=
        mem_seats.mpr ⟨k, mem_bucket.mpr ⟨hk, hkb⟩, rfl⟩
      have := SlotTable.get_fill_of_mem hslots (fun p hp => (hseats p hp).1) hp
      rw [slotOf, hkb, hset, this, hv]
    · have hold := h.seated k hk (by simp [hkb, hmem]) v hv
      rw [slotOf, hkeep _ hkb]
      exact SlotTable.get_fill_of_some (fun p hp => (hseats p hp).2) hold
  · intro c hc hmem
    rcases eq_or_ne c b with rfl | hcb
    · rwa [hset]
    · rw [hkeep c hcb]
      exact h.entry c hc (by simp [hcb, hmem])
  · intro c hc
    rw [hkeep c (fun e => hbrest (e ▸ hc))]
    exact h.unset c (List.mem_cons_of_mem _ hc)
  · intro hall
    change SlotTable.free (SlotTable.fill t.V (seats hash size keys dict g b)) = _
    have hfree := SlotTable.free_fill hslots (fun p hp => (hseats p hp).1)
      (fun p hp => (hseats p hp).2)
    have hcount : (seats hash size keys dict g b).countP (fun p => p.2.isSome) =
        (bucket hash size keys b).length := by
      rw [seats, List.countP_reverse, List.countP_map, List.countP_eq_length]
      exact fun k hk => hall k (mem_bucket.mp hk).1
    have hexact := h.exact hall
    rw [load, List.map_cons, List.sum_cons] at hexact
    rw [load]
    omega

/-! ## The loop over the buckets with two or more keys -/

theorem entrySlot_natCast {d : Nat} (hd : 1 ≤ d) :
    entrySlot hash size d k = hash k d % size := by
  rw [entrySlot, if_neg (by omega), if_neg (by omega), Int.toNat_natCast]

theorem map_entrySlot_natCast {d : Nat} (hd : 1 ≤ d) (ks : List Bytes) :
    ks.map (entrySlot hash size d) = ks.map fun k => hash k d % size :=
  List.map_congr_left fun _ _ => entrySlot_natCast hd

/-- The writes of the seed search are the seats of its bucket. -/
theorem seats_of_search {s : Search} (hd : 1 ≤ s.d)
    (hslots : s.slots.map (fun p => (p.1, (bucket hash size keys b).getD p.2 [])) =
      ((bucket hash size keys b).map fun k => (hash k s.d % size, k)).reverse) :
    s.slots.map (fun p => (p.1, dict ((bucket hash size keys b).getD p.2 []))) =
      seats hash size keys dict s.d b := by
  have h := congrArg (List.map fun q : Nat × Bytes => (q.1, dict q.2)) hslots
  simp only [List.map_map, List.map_reverse, Function.comp_def] at h
  simp only [seats, entrySlot_natCast hd]
  exact h

/-- Placing a bucket whose seed search returns. -/
theorem placeBuckets_place {turns : Nat} {s : Search} (hb : b < size)
    (hmany : 2 ≤ (bucket hash size keys b).length)
    (hs : searchSeed hash size t.V (bucket hash size keys b) turns ⟨1, 0, []⟩ = .ok s) :
    placeBuckets hash dict size (fillBuckets hash size keys) turns (b :: sorted) t =
      placeBuckets hash dict size (fillBuckets hash size keys) turns sorted
        { G := t.G.set b s.d, V := SlotTable.fill t.V (seats hash size keys dict s.d b) } := by
  obtain ⟨⟨⟨hd, -⟩, -⟩, hslots⟩ := searchSeed_ok .first hs
  have hfirst : hash ((bucket hash size keys b).getD 0 []) 0 % size = b := by
    obtain ⟨k, ks, hk⟩ := List.exists_cons_of_length_pos
      (show 0 < (bucket hash size keys b).length by omega)
    rw [hk]
    exact (mem_bucket.mp (hk ▸ List.mem_cons_self)).2
  have hone : ¬ (bucket hash size keys b).length ≤ 1 := by omega
  simp only [placeBuckets, getD_fillBuckets hb, if_neg hone, hs, seats_of_search hd hslots, hfirst]

theorem placeBuckets_ok (hsize : 0 < size) (hlt : ∀ b ∈ sorted, b < size) (hnd : sorted.Nodup)
    (hdesc : sorted.Pairwise fun a b =>
      (bucket hash size keys b).length ≤ (bucket hash size keys a).length)
    (hp : Placed hash size keys dict sorted t)
    (hroom : load hash size keys sorted ≤ SlotTable.free t.V)
    (h : placeBuckets hash dict size (fillBuckets hash size keys) turns sorted t =
      .ok (rest, t')) :
    Placed hash size keys dict rest t' ∧ load hash size keys rest ≤ SlotTable.free t'.V ∧
      rest <:+ sorted ∧ ∀ b ∈ rest, (bucket hash size keys b).length ≤ 1 := by
  induction sorted generalizing t with
  | nil =>
    cases h
    exact ⟨hp, hroom, List.suffix_rfl, nofun⟩
  | cons b sorted ih =>
    have hb : b < size := hlt b List.mem_cons_self
    obtain ⟨hhead, htail⟩ := List.pairwise_cons.mp hdesc
    by_cases hone : (bucket hash size keys b).length ≤ 1
    · simp only [placeBuckets, getD_fillBuckets hb, if_pos hone] at h
      cases h
      refine ⟨hp, hroom, List.suffix_rfl, fun c hc => ?_⟩
      rcases List.mem_cons.mp hc with rfl | hc
      · exact hone
      · exact (hhead c hc).trans hone
    · cases hs : searchSeed hash size t.V (bucket hash size keys b) turns ⟨1, 0, []⟩ with
      | error e =>
        simp only [placeBuckets, getD_fillBuckets hb, if_neg hone, hs] at h
        cases h
      | ok s =>
        rw [placeBuckets_place hb (by omega) hs] at h
        obtain ⟨⟨⟨hd, hgood⟩, -⟩, -⟩ := searchSeed_ok .first hs
        have hdistinct : ((bucket hash size keys b).map (entrySlot hash size s.d)).Nodup := by
          rw [map_entrySlot_natCast hd]
          exact hgood.nodup
        have hempty : ∀ k ∈ bucket hash size keys b, entrySlot hash size s.d k < size ∧
            SlotTable.get t.V (entrySlot hash size s.d k) = none := by
          intro k hk
          rw [entrySlot_natCast hd]
          exact ⟨Nat.mod_lt _ hsize, hgood.empty k hk⟩
        have hentry : Entry hash size keys b (s.d : Int) :=
          ⟨fun _ => by omega, fun _ => by omega, fun _ => by omega, hdistinct⟩
        have hfree : SlotTable.free t.V ≤
            SlotTable.free (SlotTable.fill t.V (seats hash size keys dict s.d b)) +
              (bucket hash size keys b).length := by
          obtain ⟨hslots, hseats⟩ := seats_fresh hp.length_V hdistinct hempty
          rw [← length_seats dict]
          exact SlotTable.free_le_free_fill hslots (fun p hp' => (hseats p hp').1)
            (fun p hp' => (hseats p hp').2)
        rw [load, List.map_cons, List.sum_cons] at hroom
        obtain ⟨h1, h2, h3, h4⟩ := ih (fun c hc => hlt c (List.mem_cons_of_mem _ hc))
          (List.nodup_cons.mp hnd).2 htail (hp.seat hnd hb hempty hentry)
          (by rw [load]; dsimp only; omega) h
        exact ⟨h1, h2, h3.trans (List.suffix_cons b sorted), h4⟩

/-! ## The loop over the buckets with one key -/

theorem placeSingles_ok (hlt : ∀ b ∈ rest, b < size) (hnd : rest.Nodup)
    (hdesc : rest.Pairwise fun a b =>
      (bucket hash size keys b).length ≤ (bucket hash size keys a).length)
    (hone : ∀ b ∈ rest, (bucket hash size keys b).length ≤ 1)
    (hp : Placed hash size keys dict rest t) (hfl : freelist.Nodup)
    (hempty : ∀ x ∈ freelist, x < size ∧ SlotTable.get t.V x = none)
    (hroom : load hash size keys rest ≤ freelist.length) :
    ∃ rest', Placed hash size keys dict rest'
        (placeSingles hash dict size (fillBuckets hash size keys) rest freelist t) ∧
      ∀ b ∈ rest', (bucket hash size keys b).length = 0 := by
  induction rest generalizing freelist t with
  | nil => exact ⟨[], hp, nofun⟩
  | cons b rest ih =>
    have hb : b < size := hlt b List.mem_cons_self
    obtain ⟨hhead, htail⟩ := List.pairwise_cons.mp hdesc
    simp only [placeSingles, getD_fillBuckets hb]
    rw [load, List.map_cons, List.sum_cons] at hroom
    have hbone := hone b List.mem_cons_self
    cases hk : bucket hash size keys b with
    | nil =>
      refine ⟨b :: rest, hp, fun c hc => ?_⟩
      rcases List.mem_cons.mp hc with rfl | hc
      · rw [hk, List.length_nil]
      · have := hhead c hc
        rw [hk, List.length_nil] at this
        omega
    | cons k ks =>
      rw [hk, List.length_cons] at hbone hroom
      obtain rfl : ks = [] := List.length_eq_zero_iff.mp (by omega)
      have hfirst : hash k 0 % size = b := (mem_bucket.mp (hk ▸ List.mem_cons_self)).2
      -- the free list still has a slot for every key that is left
      obtain ⟨front, slot, rfl⟩ := (List.eq_nil_or_concat' freelist).resolve_left
        (fun h => by simp [h] at hroom)
      have hslot := hempty slot (by simp)
      have hentrySlot : ∀ k', entrySlot hash size (-(slot : Int) - 1) k' = slot := by
        intro k'
        rw [entrySlot, if_pos (by omega)]
        omega
      have hseats : seats hash size keys dict (-(slot : Int) - 1) b = [(slot, dict k)] := by
        simp [seats, hk, hentrySlot]
      have hseat := hp.seat (g := -(slot : Int) - 1) hnd hb
        (fun k' _ => by rw [hentrySlot]; exact hslot)
        ⟨fun h2 => by rw [hk] at h2; simp at h2, fun _ => by omega,
          fun h0 => by rw [hk] at h0; simp at h0, by simp [hk]⟩
      rw [hseats] at hseat
      simp only [List.getLastD_concat, List.dropLast_concat, hfirst]
      rw [List.nodup_append] at hfl
      refine ih (fun c hc => hlt c (List.mem_cons_of_mem _ hc)) (List.nodup_cons.mp hnd).2 htail
        (fun c hc => hone c (List.mem_cons_of_mem _ hc)) hseat hfl.1 (fun x hx => ?_) ?_
      · have hne : slot ≠ x := fun e => hfl.2.2 x hx slot (by simp) e.symm
        exact ⟨(hempty x (by simp [hx])).1,
          (SlotTable.get_set_ne hne).trans (hempty x (by simp [hx])).2⟩
      · rw [load]
        simp only [List.length_append, List.length_singleton] at hroom
        omega

/-! ## The finished tables -/

theorem sortBuckets_perm (size : Nat) (buckets : List (List Bytes)) :
    (sortBuckets size buckets).Perm (List.range size) := sortDescOn_perm _ _

@[simp] theorem mem_sortBuckets {buckets : List (List Bytes)} :
    b ∈ sortBuckets size buckets ↔ b < size :=
  (sortBuckets_perm size buckets).mem_iff.trans List.mem_range

theorem nodup_sortBuckets (size : Nat) (buckets : List (List Bytes)) :
    (sortBuckets size buckets).Nodup :=
  (sortBuckets_perm size buckets).nodup_iff.mpr List.nodup_range

theorem pairwise_sortBuckets : (sortBuckets size (fillBuckets hash size keys)).Pairwise fun a b =>
    (bucket hash size keys b).length ≤ (bucket hash size keys a).length := by
  apply (sortDescOn_pairwise _ _).imp_of_mem
  intro a b ha hb hab
  rwa [getD_fillBuckets (mem_sortBuckets.mp ha), getD_fillBuckets (mem_sortBuckets.mp hb)] at hab

/-- Between the two loops of `new` the buckets of two or more keys are placed. -/
theorem tables_placed (hkeys : keys ≠ []) (h : tables hash turns keys dict = .ok t) :
    ∃ rest t', placeBuckets hash dict keys.length (fillBuckets hash keys.length keys) turns
        (sortBuckets keys.length (fillBuckets hash keys.length keys))
        ⟨List.replicate keys.length 0, List.replicate keys.length none⟩ = .ok (rest, t') ∧
      t = placeSingles hash dict keys.length (fillBuckets hash keys.length keys) rest
        (SlotTable.freelist t'.V) t' ∧
      Placed hash keys.length keys dict rest t' ∧
      load hash keys.length keys rest ≤ SlotTable.free t'.V ∧
      rest <:+ sortBuckets keys.length (fillBuckets hash keys.length keys) ∧
      ∀ b ∈ rest, (bucket hash keys.length keys b).length ≤ 1 := by
  have hsize : 0 < keys.length := List.length_pos_iff.mpr hkeys
  have hperm := sortBuckets_perm keys.length (fillBuckets hash keys.length keys)
  unfold tables at h
  dsimp only at h
  split at h
  · cases h
  · rename_i rest t' hplace
    cases h
    have hload : load hash keys.length keys
        (sortBuckets keys.length (fillBuckets hash keys.length keys)) ≤ keys.length := by
      rw [load, (hperm.map _).sum_eq, sum_length_bucket keys hsize]
    obtain ⟨hp, hroom, hsuffix, hone⟩ := placeBuckets_ok hsize (fun b => mem_sortBuckets.mp)
      (nodup_sortBuckets _ _) pairwise_sortBuckets (Placed.start rfl hsize hperm)
      (hload.trans (by rw [SlotTable.free_replicate])) hplace
    exact ⟨rest, t', hplace, rfl, hp, hroom, hsuffix, hone⟩

/-- The tables of `new`, when it returns, lead every key that has a value to it. -/
theorem tables_complete (hkeys : keys ≠ []) (h : tables hash turns keys dict = .ok t) :
    Complete hash keys.length keys dict t := by
  have hsize : 0 < keys.length := List.length_pos_iff.mpr hkeys
  obtain ⟨rest, t', -, rfl, hp, hroom, hsuffix, hone⟩ := tables_placed hkeys h
  rw [← SlotTable.length_freelist] at hroom
  obtain ⟨rest', hp, hempty⟩ := placeSingles_ok
    (fun b hb => mem_sortBuckets.mp (hsuffix.subset hb))
    (hsuffix.sublist.nodup (nodup_sortBuckets _ _))
    (pairwise_sortBuckets.sublist hsuffix.sublist) hone hp (SlotTable.nodup_freelist _)
    (fun x hx => by
      have := SlotTable.mem_freelist.mp hx
      rwa [hp.length_V] at this) hroom
  -- the buckets that were not placed are empty, so no key is in one of them
  have hnot : ∀ k ∈ keys, hash k 0 % keys.length ∉ rest' := by
    intro k hk hmem
    have := hempty _ hmem
    rw [List.length_eq_zero_iff] at this
    exact List.not_mem_nil (this ▸ mem_bucket.mpr ⟨hk, rfl⟩)
  have hnodup : ∀ b < keys.length, (bucket hash keys.length keys b).Nodup := by
    intro b hb
    by_cases hb' : b ∈ rest'
    · rw [List.length_eq_zero_iff.mp (hempty b hb')]
      exact List.nodup_nil
    · exact (hp.entry b hb hb').distinct.of_map
  refine ⟨hp.length_G, hp.length_V, nodup_of_nodup_bucket hsize hnodup,
    fun k hk => hp.seated k hk (hnot k hk), fun b hb => ?_, fun hall => ?_⟩
  · by_cases hb' : b ∈ rest'
    · have h0 := hempty b hb'
      refine ⟨fun h2 => by omega, fun h1 => by omega, fun _ => hp.unset b hb', ?_⟩
      rw [List.length_eq_zero_iff.mp h0]
      exact List.nodup_nil
    · exact hp.entry b hb hb'
  · rw [hp.exact hall, load, List.sum_eq_zero]
    intro x hx
    obtain ⟨b, hb, rfl⟩ := List.mem_map.mp hx
    exact hempty b hb

/-! ## The entries of `V` -/

section
variable {P : Option α → Prop} (hdict : ∀ k, P (dict k))
include hdict

theorem placeBuckets_forall {size turns : Nat} {buckets : List (List Bytes)}
    {sorted rest : List Nat} {t t' : Tables α} (hV : ∀ v ∈ t.V, P v)
    (h : placeBuckets hash dict size buckets turns sorted t = .ok (rest, t')) :
    ∀ v ∈ t'.V, P v := by
  induction sorted generalizing t with
  | nil =>
    cases h
    exact hV
  | cons b sorted ih =>
    rw [placeBuckets] at h
    split at h
    · cases h
      exact hV
    · split at h
      · cases h
      · refine ih (SlotTable.forall_mem_fill hV fun p hp => ?_) h
        obtain ⟨q, -, rfl⟩ := List.mem_map.mp hp
        exact hdict _

theorem placeSingles_forall {size : Nat} {buckets : List (List Bytes)} {sorted freelist : List Nat}
    {t : Tables α} (hV : ∀ v ∈ t.V, P v) :
    ∀ v ∈ (placeSingles hash dict size buckets sorted freelist t).V, P v := by
  induction sorted generalizing freelist t with
  | nil => exact hV
  | cons b sorted ih =>
    rw [placeSingles]
    split
    · exact hV
    · refine ih fun v hv => ?_
      rcases List.mem_or_eq_of_mem_set hv with hv | rfl
      · exact hV v hv
      · exact hdict _

/-- Every entry of `V` is the value of a key or empty. -/
theorem tables_forall (hnone : P none) (h : tables hash turns keys dict = .ok t) :
    ∀ v ∈ t.V, P v := by
  unfold tables at h
  dsimp only at h
  split at h
  · cases h
  · rename_i rest t' hplace
    cases h
    apply placeSingles_forall hdict
    apply placeBuckets_forall hdict _ hplace
    intro v hv
    rw [List.eq_of_mem_replicate hv]
    exact hnone

end

end PerfectHash.HanovPP
