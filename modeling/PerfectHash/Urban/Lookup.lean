import PerfectHash.Urban.ReadBack

/-! # Lookups in the packed string

`perfecthash` recovers the size from the string, reads an entry of `G` and fixes its sign, and reads
`V` where `HanovPP` does. That gives the index of every key and `undef` for all other strings if and
only if the width is one of 8, 16 and 32 bits and holds what is read at it (`indexes_iff`): at other
widths the accessors die or overwrite each other, a seed that is too large is read as the slot of a
single key, and an index that is too large is cut. -/

namespace PerfectHash.Urban

open C CValues HanovPP

/-- The entries of `G` need more than `lo` and at most `hi` bits, the sign included, and are less
than `seeds`. -/
def Within (G : List Int) (lo hi : Nat) (seeds : Int) : Prop :=
  (∃ g ∈ G, 2 ^ lo ≤ signFactor G * g.natAbs) ∧
    ∀ g ∈ G, signFactor G * g.natAbs < 2 ^ hi ∧ g < seeds

instance (G : List Int) (lo hi : Nat) (seeds : Int) : Decidable (Within G lo hi seeds) := by
  unfold Within
  infer_instance

/-- Tables of `n` slots that survive the packing: at the width that their entries need, the seeds
keep their sign and the indexes are not cut. -/
def Packable (G : List Int) (n : Nat) : Prop :=
  Within G 4 8 (2 ^ 7) ∧ n ≤ 2 ^ 8 ∨
    Within G 8 16 (2 ^ 15) ∧ n ≤ 2 ^ 15 ∨
    Within G 16 32 (2 ^ 31 - 1) ∧ n ≤ 2 ^ 31

instance (G : List Int) (n : Nat) : Decidable (Packable G n) := by
  unfold Packable
  infer_instance

variable {hash : Bytes → Nat → Nat} {turns w n i bits index base : Nat} {G : List Int}
  {g x v d : Int}
  {s s' key k : Bytes} {keys : List Bytes} {args : List String} {t : Tables Int} {ph : Urban}

theorem within_iff (hw : Width w) : Within G (4 * w) (8 * w) (seedBound w) ↔
    roundBits (neededBits G) = 8 * w ∧ ∀ g ∈ G, g < seedBound w := by
  have hlow : neededBits G ≤ 4 * w ↔ _ :=
    neededBits_le_iff (by rcases hw with rfl | rfl | rfl <;> decide)
  have hhigh : neededBits G ≤ 8 * w ↔ _ :=
    neededBits_le_iff (by rcases hw with rfl | rfl | rfl <;> decide)
  rw [roundBits_eq_iff hw, ← Nat.not_le, hlow, hhigh, and_assoc, ← forall₂_and]
  simp only [Within, not_forall, Nat.not_lt, exists_prop]

theorem packable_iff : Packable G n ↔ ∃ w, Width w ∧ roundBits (neededBits G) = 8 * w ∧
    (∀ g ∈ G, g < seedBound w) ∧ n ≤ valueBound w := by
  constructor
  · rintro (⟨h, hn⟩ | ⟨h, hn⟩ | ⟨h, hn⟩)
    · have := (within_iff (w := 1) (.inl rfl)).mp h
      exact ⟨1, .inl rfl, this.1, this.2, hn⟩
    · have := (within_iff (w := 2) (.inr (.inl rfl))).mp h
      exact ⟨2, .inr (.inl rfl), this.1, this.2, hn⟩
    · have := (within_iff (w := 4) (.inr (.inr rfl))).mp h
      exact ⟨4, .inr (.inr rfl), this.1, this.2, hn⟩
  · rintro ⟨w, hw, hbits, hseeds, hn⟩
    have h := (within_iff hw).mpr ⟨hbits, hseeds⟩
    rcases hw with rfl | rfl | rfl
    · exact .inl ⟨h, hn⟩
    · exact .inr (.inl ⟨h, hn⟩)
    · exact .inr (.inr ⟨h, hn⟩)

/-! ## The object of `new` -/

/-- `new` builds the tables of `HanovPP` and packs them. -/
theorem new_ok {dict : Dict Int} (h : new hash turns dict args = .ok ph) :
    ∃ keys values t, dictInit dict = .ok (keys, values) ∧ checkValues keys.length dict = .ok () ∧
      tables hash turns keys (valueOf dict keys values) = .ok t ∧
      ph.bits = roundBits (neededBits t.G) ∧ pack ph.bits keys.length t = .ok ph.G ∧
      ph.keys = if (handleOpts args).has "-false-positives" then none else some keys := by
  obtain ⟨⟨keys, values⟩, hinit, h⟩ := bind_eq_ok.mp h
  obtain ⟨_, hcheck, h⟩ := bind_eq_ok.mp h
  obtain ⟨t, ht, h⟩ := bind_eq_ok.mp h
  obtain ⟨G, hpack, h⟩ := bind_eq_ok.mp h
  cases h
  exact ⟨keys, values, t, hinit, hcheck, ht, rfl, hpack, rfl⟩

/-- The object of `HanovPP` with the same tables. -/
theorem unpacked_ok {dict : Dict Int} {values : List (Option Int)}
    (hinit : dictInit dict = .ok (keys, values))
    (ht : tables hash turns keys (valueOf dict keys values) = .ok t) :
    HanovPP.new hash turns dict args = .ok { t with
      options := handleOpts args
      keys := if (handleOpts args).has "-false-positives" then none else some keys } := by
  unfold HanovPP.new
  rw [hinit]
  simp only [bind, Except.bind, ht]
  rfl

/-- With an arrayref the tables are those of the indexes. -/
theorem new_array_ok (h : new hash turns (.array keys) args = .ok ph) :
    ∃ t, tables hash turns (pad keys) (indexHash (pad keys)) = .ok t ∧
      ph.bits = roundBits (neededBits t.G) ∧ pack ph.bits (pad keys).length t = .ok ph.G ∧
      ph.keys = if (handleOpts args).has "-false-positives" then none else some (pad keys) := by
  obtain ⟨_, _, t, hinit, -, h⟩ := new_ok h
  cases hinit
  exact ⟨t, h⟩

/-- With stored keys, an index that is returned is one that was read. -/
theorem ivLookup_of_perfecthash (hkeys : ph.keys = some keys)
    (h : perfecthash hash ph key = .ok (some v)) : ivLookup hash ph key = .ok v := by
  obtain ⟨w, hiv, h⟩ := bind_eq_ok.mp h
  obtain ⟨v', hlookup, hiv⟩ := bind_eq_ok.mp hiv
  rw [hkeys] at hiv
  obtain ⟨k, -, hiv⟩ := bind_eq_ok.mp hiv
  cases hiv
  have h := Except.ok.inj h
  by_cases hk : key = k
  · rw [if_pos hk] at h
    split at h
    · cases h
    · rw [hlookup, Option.some.inj h]
  · rw [if_neg hk, if_pos rfl] at h
    cases h

/-- The object of `new` for the tables of a list of keys, packed at the width of `w` bytes. -/
structure Packed (hash : Bytes → Nat → Nat) (keys : List Bytes) (t : Tables Int) (w : Nat)
    (ph : Urban) : Prop where
  width : Width w
  bits : ph.bits = 8 * w
  needed : neededBits t.G ≤ 8 * w
  G : ph.G = Cells.encode w (t.G ++ t.V.map Scalar.number)
  stored : ph.keys = some keys
  ne_nil : keys ≠ []
  complete : Complete hash keys.length keys (indexHash keys) t

theorem Packed.pos (h : Packed hash keys t w ph) : 0 < keys.length :=
  List.length_pos_iff.mpr h.ne_nil

theorem Packed.mod_lt (h : Packed hash keys t w ph) (key : Bytes) :
    hash key 0 % keys.length < t.G.length := by
  rw [h.complete.length_G]
  exact Nat.mod_lt _ h.pos

/-- The entry of `G` for a hash. -/
theorem Packed.getElem?_G (h : Packed hash keys t w ph) (key : Bytes) :
    t.G[hash key 0 % keys.length]? = some (t.G.getD (hash key 0 % keys.length) 0) :=
  getElem?_eq_getD (h.mod_lt key) 0

/-- The entries of `G` fit the width, with a bit for the sign if there are negative ones. -/
theorem Packed.bounds (h : Packed hash keys t w ph) (hg : g ∈ t.G) :
    -2 ^ (8 * w - 1) ≤ g ∧ g < 2 ^ (8 * w) := bounds_of_neededBits h.width h.needed hg

theorem Packed.toStored (h : Packed hash keys t w ph) : Stored t keys.length w ph :=
  ⟨h.width, h.bits, h.G, h.complete.length_G, h.complete.length_V⟩

/-- `iv_perfecthash` reads an entry of `G` and then the entry of `V` to which that leads. -/
theorem Packed.ivLookup_eq (h : Packed hash keys t w ph)
    (hfix : fixSign (8 * w) (decode w (t.G.getD (hash key 0 % keys.length) 0)) = .ok d) :
    ivLookup hash ph key =
      vec ph.G (w * keys.length) (entrySlot hash keys.length d key) (8 * w) := by
  have hd : vec ph.G 0 (hash key 0 % keys.length) ph.bits >>= fixSign ph.bits = .ok d := by
    rw [h.toStored.vec_G (h.getElem?_G key), h.bits]
    exact hfix
  rw [Urban.ivLookup_eq h.pos h.toStored.size_eq hd, h.toStored.offset_eq, h.bits]

/-- An index that is read at a slot of `V`. -/
theorem Packed.vec_V (h : Packed hash keys t w ph) (hi : i < valueBound w)
    (hget : SlotTable.get t.V index = some (i : Int)) :
    vec ph.G (w * keys.length) index (8 * w) = .ok (i : Int) := by
  have hnumber : Scalar.number (some (i : Int)) = i := rfl
  rw [← h.bits, h.toStored.vec_V (SlotTable.getElem?_of_get hget), hnumber,
    decode_of_lt h.width (by omega) (by exact_mod_cast hi)]

/-! ## Tables that survive the packing -/

/-- The lookup of a key whose slot holds an index. -/
theorem Packed.perfecthash_of_get (h : Packed hash keys t w ph)
    (hseeds : ∀ g ∈ t.G, g < seedBound w) (hn : keys.length ≤ valueBound w)
    (hi : keys[i]? = some k)
    (hget : SlotTable.get t.V (slotOf hash keys.length t.G key) = some (i : Int)) :
    perfecthash hash ph key = .ok (if key = k then some (i : Int) else none) := by
  have hmem := List.mem_of_getElem? (h.getElem?_G key)
  obtain ⟨d, hfix, hseed, -⟩ := fixSign_decode h.width (h.bounds hmem).1 (h.bounds hmem).2
  rw [hseed (hseeds _ hmem)] at hfix
  have hlt := (List.getElem?_eq_some_iff.mp hi).1
  have hlookup : ivLookup hash ph key = .ok (i : Int) := by
    rw [h.ivLookup_eq hfix]
    exact h.vec_V (by omega) hget
  have hstored : storedKey keys i = .ok k := by simp [storedKey, hi, inside]
  simp only [perfecthash, ivPerfecthash, hlookup, h.stored, hstored, bind, Except.bind, pure,
    Except.pure]
  by_cases hk : key = k
  · rw [if_pos hk, if_pos hk, if_neg (by omega)]
  · rw [if_neg hk, if_neg hk, if_pos rfl]

theorem Packed.indexes (h : Packed hash keys t w ph) (hseeds : ∀ g ∈ t.G, g < seedBound w)
    (hn : keys.length ≤ valueBound w) : Indexes (perfecthash hash ph) keys where
  member i k hi := by
    rw [h.perfecthash_of_get hseeds hn hi (h.complete.get_index hi), if_pos rfl]
  absent k hk := by
    obtain ⟨i, hi, hget⟩ := h.complete.exists_get h.ne_nil k
    have hi' := List.getElem?_eq_getElem hi
    rw [h.perfecthash_of_get hseeds hn hi' hget,
      if_neg (ne_of_mem_of_not_mem (List.mem_of_getElem? hi') hk).symm]

/-! ## Tables that do not -/

/-- An index that is too large is cut, so its key is not found. -/
theorem Packed.length_le (h : Packed hash keys t w ph)
    (hindex : Indexes (perfecthash hash ph) keys) : keys.length ≤ valueBound w := by
  by_contra hlt
  obtain ⟨k, hk⟩ : ∃ k, keys[valueBound w]? = some k :=
    ⟨_, List.getElem?_eq_getElem (by omega)⟩
  have hlookup := ivLookup_of_perfecthash h.stored (hindex.member _ k hk)
  have hmem := List.mem_of_getElem? (h.getElem?_G k)
  obtain ⟨d, hfix, -, -⟩ := fixSign_decode h.width (h.bounds hmem).1 (h.bounds hmem).2
  rw [h.ivLookup_eq hfix] at hlookup
  have := vec_lt h.width hlookup
  omega

/-- A seed that is too large is read as a slot, in which all keys of its bucket meet. -/
theorem Packed.lt_seedBound (h : Packed hash keys t w ph)
    (hindex : Indexes (perfecthash hash ph) keys) (hg : g ∈ t.G) : g < seedBound w := by
  by_contra hge
  obtain ⟨b, hb, rfl⟩ := List.mem_iff_getElem.mp hg
  have hgetD : t.G.getD b 0 = t.G[b] := List.getD_eq_getElem _ _ hb
  obtain ⟨d, hfix, -, hneg⟩ := fixSign_decode h.width (h.bounds hg).1 (h.bounds hg).2
  have hd := hneg (by omega)
  have hpos : 0 < t.G[b] := by
    have : 0 < seedBound w := by rcases h.width with rfl | rfl | rfl <;> decide
    omega
  have hentry := h.complete.entry b (h.complete.length_G ▸ hb)
  rw [hgetD] at hentry
  have hlookup : ∀ k ∈ bucket hash keys.length keys b, ivLookup hash ph k =
      vec ph.G (w * keys.length) (-d - 1).toNat (8 * w) := by
    intro k hk
    have hkb := (mem_bucket.mp hk).2
    rw [h.ivLookup_eq (by rw [hkb, hgetD]; exact hfix), entrySlot, if_pos hd]
  -- two keys of the bucket read one index
  have hsame : ∀ k ∈ bucket hash keys.length keys b, ∀ k' ∈ bucket hash keys.length keys b,
      k = k' := by
    intro k hk k' hk'
    obtain ⟨i, hi⟩ := List.mem_iff_getElem?.mp (mem_bucket.mp hk).1
    obtain ⟨j, hj⟩ := List.mem_iff_getElem?.mp (mem_bucket.mp hk').1
    have hki := ivLookup_of_perfecthash h.stored (hindex.member i k hi)
    have hkj := ivLookup_of_perfecthash h.stored (hindex.member j k' hj)
    rw [hlookup k hk, ← hlookup k' hk', hkj] at hki
    obtain rfl : j = i := by simpa using hki
    rw [hi] at hj
    simpa using hj
  have hnodup : (bucket hash keys.length keys b).Nodup := h.complete.nodup.filter _
  rcases Nat.lt_trichotomy (bucket hash keys.length keys b).length 1 with hlen | hlen | hlen
  · have := hentry.empty (by omega)
    omega
  · have := (hentry.single hlen).2
    omega
  · have h0 := hsame _ (List.getElem_mem (show 0 < _ by omega)) _ (List.getElem_mem hlen)
    exact absurd (hnodup.getElem_inj_iff.mp h0) (by decide)

/-! ## Widths that do not work -/

/-- The accessors have no branch for 2 bits or for more than 64, and the shift that fixes the sign
is undefined for 64 bits. -/
theorem ivLookup_ne_ok (hbits : ph.bits = 2 ∨ 64 ≤ ph.bits) : ivLookup hash ph key ≠ .ok v := by
  have hfix (d : Int) (h64 : 64 ≤ ph.bits) : fixSign ph.bits d = .error .undefined := by
    rw [fixSign, if_neg (by omega), if_pos (by omega)]
  have hvec (base index : Nat) (hbits : ph.bits = 2 ∨ 64 < ph.bits) :
      vec ph.G base index ph.bits = .error (.die s!"Unsupported bits {ph.bits}\n") := by
    unfold vec
    rw [if_neg (by omega), if_neg (by omega), if_neg (by omega), if_neg (by omega),
      if_neg (by omega)]
  intro h
  unfold ivLookup at h
  dsimp only at h
  split at h
  · cases h
  · obtain ⟨g, hg, h⟩ := bind_eq_ok.mp h
    obtain ⟨d, hd, h⟩ := bind_eq_ok.mp h
    rcases hbits with h2 | h64
    · rw [hvec _ _ (.inl h2)] at hg
      cases hg
    · rw [hfix _ h64] at hd
      cases hd

theorem length_nvecset (h : nvecset s index bits x = .ok s') : s'.length = s.length := by
  have hinside {o : Option Bytes} (ho : inside o = .ok s') : o = some s' := by
    cases o with
    | none => cases ho
    | some s' => cases ho; rfl
  unfold nvecset at h
  split_ifs at h
  · exact Cells.length_store (hinside h)
  · exact Cells.length_store (hinside h)
  · exact Cells.length_store (hinside h)
  · exact Cells.length_store (hinside h)
  · exact Cells.length_store (hinside h)
  · cases h
    rfl

theorem length_packArray {xs : List Int} (h : packArray bits index xs s = .ok s') :
    s'.length = s.length := by
  induction xs generalizing index s with
  | nil => cases h; rfl
  | cons x xs ih =>
    rw [packArray] at h
    split at h
    · exact ih h
    · obtain ⟨s1, hset, h⟩ := bind_eq_ok.mp h
      rw [ih h, length_nvecset hset]

theorem length_pack (h : pack bits n t = .ok s) : s.length = bits * n / 4 := by
  obtain ⟨s1, hfirst, h⟩ := bind_eq_ok.mp h
  rw [length_packArray h, length_packArray hfirst, List.length_replicate]

/-- At 4 bits an access is to a whole byte, which two neighbours share, so there are too few numbers
to read. -/
theorem length_le_one_of_four (hbits : ph.bits = 4) (hlength : ph.G.length = keys.length)
    (hkeys : ph.keys = some keys) (hindex : Indexes (perfecthash hash ph) keys) :
    keys.length ≤ 1 := by
  let values : List Int := (ph.G.drop (keys.length / 2)).map fun b => signedChar.conv b.toNat % 16
  have hread {index : Nat} {v : Int} (h : vec ph.G (keys.length / 2) index 4 = .ok v) :
      v ∈ values := by
    obtain ⟨x, hx, rfl⟩ := exists_of_inside (f := fun x => signedChar.conv x % 16) h
    rw [Cells.load_one, Option.map_eq_some_iff] at hx
    obtain ⟨b, hb, rfl⟩ := hx
    apply List.mem_map.mpr ⟨b, List.mem_of_getElem? (i := index / 2) _, rfl⟩
    rw [List.getElem?_drop, hb]
  have hmem : (List.range keys.length).map (fun i : Nat => (i : Int)) ⊆ values := by
    intro v hv
    obtain ⟨i, hi, rfl⟩ := List.mem_map.mp hv
    have hlookup := ivLookup_of_perfecthash hkeys
      (hindex.member i _ (List.getElem?_eq_getElem (List.mem_range.mp hi)))
    have hV : keys.length * 4 / 8 = keys.length / 2 := by omega
    simp only [ivLookup, hbits, hlength, Nat.mul_div_cancel_left _ (show 0 < 4 by decide), hV]
      at hlookup
    split at hlookup
    · cases hlookup
    · obtain ⟨_, -, hlookup⟩ := bind_eq_ok.mp hlookup
      obtain ⟨_, -, hlookup⟩ := bind_eq_ok.mp hlookup
      split_ifs at hlookup
      · exact hread hlookup
      · exact hread hlookup
      · exact hread hlookup
  have hnodup : ((List.range keys.length).map fun i : Nat => (i : Int)).Nodup :=
    List.nodup_range.map fun _ _ => Int.ofNat_inj.mp
  have hle := (List.subperm_of_subset hnodup hmem).length_le
  simp only [values, List.length_map, List.length_range, List.length_drop, hlength] at hle
  omega

/-- One key needs two bits. -/
theorem neededBits_le_two (hc : Complete hash keys.length keys (indexHash keys) t)
    (hlength : keys.length = 1) : neededBits t.G ≤ 2 := by
  have hbounds : ∀ g ∈ t.G, -1 ≤ g ∧ g ≤ 0 := by
    intro g hg
    obtain ⟨b, hb, rfl⟩ := List.mem_iff_getElem.mp hg
    have hentry := hc.entry b (hc.length_G ▸ hb)
    rw [List.getD_eq_getElem _ _ hb] at hentry
    have hle : (bucket hash keys.length keys b).length ≤ 1 :=
      hlength ▸ List.length_filter_le _ keys
    rcases Nat.le_one_iff_eq_zero_or_eq_one.mp hle with h0 | h1
    · have := hentry.empty h0
      omega
    · have := hentry.single h1
      omega
  apply (neededBits_le_iff (Nat.le_refl 2)).mpr
  intro g hg
  have := hbounds g hg
  unfold signFactor
  split <;> omega

/-! ## The result -/

/-- Without `-false-positives`, the lookup for an arrayref gives the index of every key and `undef`
for all other strings if and only if the unpacked tables survive the packing, and that is when it is
the lookup of `HanovPP`. -/
theorem indexes_iff {hash : Bytes → Nat → Nat} {turns : Nat} {keys : List Bytes}
    {args : List String} {ph : Urban} (hkeys : keys ≠ [])
    (hnew : new hash turns (.array keys) args = .ok ph)
    (hfp : (handleOpts args).has "-false-positives" = false) :
    ∃ unpacked : HanovPP Int, HanovPP.new hash turns (.array keys) args = .ok unpacked ∧
      (Indexes (perfecthash hash ph) (pad keys) ↔ Packable unpacked.G (pad keys).length) ∧
      (perfecthash hash ph = HanovPP.perfecthash hash unpacked ↔
        Packable unpacked.G (pad keys).length) := by
  obtain ⟨t, ht, hbits, hpack, hph⟩ := new_array_ok hnew
  rw [hfp, if_neg (by decide)] at hph
  have hne : pad keys ≠ [] := mt pad_eq_nil.mp hkeys
  have hc := tables_complete hne ht
  let unpacked : HanovPP Int :=
    { t with options := handleOpts args, keys := some (pad keys) }
  have hunpacked : HanovPP.new hash turns (.array keys) args = .ok unpacked := by
    rw [unpacked_ok rfl ht, hfp, if_neg (by decide)]
  have hexact : Exact hash (pad keys) unpacked := hc.exact hne rfl
  have hindexes : Indexes (HanovPP.perfecthash hash unpacked) (pad keys) :=
    ⟨hexact.member, hexact.absent⟩
  have main : Indexes (perfecthash hash ph) (pad keys) ↔ Packable t.G (pad keys).length := by
    have packed {w : Nat} (hw : Width w) (h8 : roundBits (neededBits t.G) = 8 * w) :
        Packed hash (pad keys) t w ph := by
      have hstored := stored_of_pack hw (hbits.trans h8) hpack hc.length_G hc.length_V
      exact ⟨hw, hbits.trans h8, ((roundBits_eq_iff hw).mp h8).2, hstored.G, hph, hne, hc⟩
    rw [packable_iff]
    constructor
    · intro hindex
      obtain ⟨key, v, hlookup⟩ : ∃ key v, ivLookup hash ph key = .ok v := by
        obtain ⟨k, hk⟩ := List.exists_mem_of_ne_nil _ hne
        obtain ⟨i, hi⟩ := List.mem_iff_getElem?.mp hk
        exact ⟨k, _, ivLookup_of_perfecthash hph (hindex.member i k hi)⟩
      rcases roundBits_cases (neededBits t.G) with ⟨w, hw, h8⟩ | h2 | ⟨h4, hneeded⟩ | h64
      · have h := packed hw h8
        exact ⟨w, hw, h8, fun g hg => h.lt_seedBound hindex hg, h.length_le hindex⟩
      · exact absurd hlookup (ivLookup_ne_ok (.inl (hbits.trans h2)))
      · have hlength := length_pack hpack
        rw [hbits, h4, Nat.mul_div_cancel_left _ (by decide)] at hlength
        have hone := length_le_one_of_four (hbits.trans h4) hlength hph hindex
        have hpos := List.length_pos_iff.mpr hne
        have := neededBits_le_two hc (by omega)
        omega
      · exact absurd hlookup (ivLookup_ne_ok (.inr (hbits ▸ h64)))
    · rintro ⟨w, hw, h8, hseeds, hn⟩
      exact (packed hw h8).indexes hseeds hn
  refine ⟨unpacked, hunpacked, main, fun h => main.mp (h ▸ hindexes), fun h => ?_⟩
  exact (main.mpr h).unique hindexes

theorem indexes_iff_seven : ∃ ph,
    new crc32 40 (.array [[97], [98], [99], [100], [101], [102], [103]]) [] = .ok ph ∧
      Indexes (perfecthash crc32 ph) [[97], [98], [99], [100], [101], [102], [103]] := by
  obtain ⟨ph, hph⟩ := exists_ok_of_isOk (show (new crc32 40
    (.array [[97], [98], [99], [100], [101], [102], [103]]) []).isOk by decide +kernel)
  have heval : (HanovPP.new (α := Int) crc32 40
      (.array [[97], [98], [99], [100], [101], [102], [103]]) []).toOption.map
        (fun unpacked => decide (Packable unpacked.G 7)) = some true := by decide +kernel
  obtain ⟨unpacked, hunpacked, hpackable⟩ := exists_ok_and heval
  obtain ⟨unpacked', hunpacked', hiff, -⟩ := indexes_iff (by decide) hph (by decide)
  obtain rfl : unpacked' = unpacked := Except.ok.inj (hunpacked'.symm.trans hunpacked)
  exact ⟨ph, hph, hiff.mpr hpackable⟩

/-- With five keys the width is 4 bits, and the first key is not found. -/
theorem not_indexes_five : ∃ ph,
    new crc32 20 (.array [[97], [98], [99], [100], [101]]) [] = .ok ph ∧
    perfecthash crc32 ph [97] = .ok none ∧
      ¬ Indexes (perfecthash crc32 ph) [[97], [98], [99], [100], [101]] := by
  have heval : (new crc32 20 (.array [[97], [98], [99], [100], [101]]) []).toOption.map
      (fun ph => decide ((perfecthash crc32 ph [97]).toOption = some none)) = some true := by
    decide +kernel
  obtain ⟨ph, hph, hnone⟩ := exists_ok_and heval
  have hundef : perfecthash crc32 ph [97] = .ok none := by
    cases hlookup : perfecthash crc32 ph [97] with
    | error e =>
      rw [hlookup] at hnone
      cases hnone
    | ok v =>
      rw [hlookup] at hnone
      rw [Option.some.inj hnone]
  refine ⟨ph, hph, hundef, fun hindex => ?_⟩
  have := hindex.member 0 [97] rfl
  rw [hundef] at this
  cases this

end PerfectHash.Urban
