import PerfectHash.Urban.Lookup

/-! # The decoders of the packed string

Three readers of the string that `new` packs: `iv_perfecthash`, `pp_perfecthash` and the unpacking
of `save_c`. Each treats signs in its own way, and they agree with `HanovPP` on all tables that fit
the width (`pack_roundTrip`). The width that `new` chooses does not have to be one that the tables
fit (`readsBack_iff`). -/

namespace PerfectHash.Urban

open C CValues HanovPP

/-! ## The readers in Perl -/

/-- `nvecget(v, index, bits)` -/
def nvecget (s : Bytes) (index bits : Nat) : Run Int := vec s 0 index bits

/-- `$d = ($d - (1<<$bits)) if $d >= 1<<($bits-1)` -/
def ppFixSign (bits : Nat) (d : Int) : Int := if d ≥ 2 ^ (bits - 1) then d - 2 ^ bits else d

/-- `pp_perfecthash $ph, $key` -/
def ppPerfecthash (hash : Bytes → Nat → Nat) (ph : Urban) (key : Bytes) : Run (Option Int) := do
  let size := 4 * ph.G.length / ph.bits
  let voff := size
  let h ← modulo (hash key 0) size
  let d := ppFixSign ph.bits (← nvecget ph.G h ph.bits)
  let v ←
    if d < 0 then nvecget ph.G (voff + (-d - 1).toNat) ph.bits
    else if d = 0 then nvecget ph.G (voff + h) ph.bits
    else nvecget ph.G (voff + hash key d.toNat % size) ph.bits
  match ph.keys with
  | some keys => return if keyAt keys v = key then some v else none
  | none => return some v

/-- The templates `c`, `s`, `l` and `q`. -/
def unpackType (bits : Nat) : Option IntType :=
  if bits = 8 then some signedChar
  else if bits = 16 then some short
  else if bits = 32 then some int
  else if bits = 64 then some long
  else none

/-- The array `@G` of `save_c`: `unpack($pack->{$bits}, substr($G, $i * $byte, $byte))`, or
`nvecget` for a width without a template. -/
def unpackG (ph : Urban) : Run (List (Option Int)) :=
  (List.range (4 * ph.G.length / ph.bits)).mapM fun i =>
    match unpackType ph.bits with
    | some t =>
      let byte := ph.bits / 8
      .ok ((Cells.load ph.G (i * byte) byte).map t.conv)
    | none => do return some (← nvecget ph.G i ph.bits)

/-- The array `@V` of `save_c`. -/
def unpackV (ph : Urban) : Run (List Int) :=
  let size := 4 * ph.G.length / ph.bits
  (List.range size).mapM fun i => nvecget ph.G (i + size) ph.bits

variable {hash : Bytes → Nat → Nat} {turns w n i : Nat} {g : Int} {keys : List Bytes}
  {args : List String} {t : Tables Int} {ph : Urban}

/-! ## The string is read back -/

/-- The sign in Perl. -/
theorem ppFixSign_decode (hw : Width w) (hlow : -2 ^ (8 * w - 1) ≤ g)
    (hhigh : g < 2 ^ (8 * w - 1)) : ppFixSign (8 * w) (decode w g) = g := by
  unfold ppFixSign
  rcases hw with rfl | rfl | rfl
  · norm_num [decode] at hlow hhigh ⊢
    split <;> omega
  · norm_num [decode, Int.bmod_def] at hlow hhigh ⊢
    split <;> split <;> omega
  · norm_num [decode, Int.bmod_def] at hlow hhigh ⊢
    split <;> split <;> omega

/-- The entries of `V` come after those of `G`. -/
theorem Stored.nvecget_V {v : Option Int} (h : Stored t n w ph) (hi : t.V[i]? = some v) :
    nvecget ph.G (n + i) ph.bits = .ok (decode w (Scalar.number v)) := by
  rw [nvecget, h.G, h.bits]
  apply vec_encode 0 h.width
  rw [Nat.zero_add, List.getElem?_append_right (by rw [h.length_G]; omega), h.length_G,
    Nat.add_sub_cancel_left, List.getElem?_map, hi]
  rfl

/-- The templates read a cell with its sign. -/
theorem Stored.unpackG (h : Stored t n w ph)
    (hG : ∀ g ∈ t.G, -2 ^ (8 * w - 1) ≤ g ∧ g < 2 ^ (8 * w - 1)) :
    unpackG ph = .ok (t.G.map some) := by
  have hlength : 4 * ph.G.length / ph.bits = (t.G.map some).length := by
    rw [h.size_eq, List.length_map, h.length_G]
  unfold Urban.unpackG
  rw [hlength]
  refine mapM_range_eq_pure fun i x hi => ?_
  change _ = Except.ok x
  rw [List.getElem?_map, Option.map_eq_some_iff] at hi
  obtain ⟨g, hi, rfl⟩ := hi
  obtain ⟨hlow, hhigh⟩ := hG g (List.mem_of_getElem? hi)
  have hload : Cells.load ph.G (w * i) w = some (g % 256 ^ w) := by
    rw [h.G]
    apply Cells.load_encode
    rw [List.getElem?_append_left (List.getElem?_eq_some_iff.mp hi).1, hi]
  have htype : unpackType (8 * w) = some ⟨true, 8 * w⟩ := by
    rcases h.width with rfl | rfl | rfl <;> rfl
  have hconv : (⟨true, 8 * w⟩ : IntType).conv (g % 256 ^ w) = g := by
    have hmod : (g % 256 ^ w).bmod (2 ^ (8 * w)) = g.bmod (2 ^ (8 * w)) := by
      rcases h.width with rfl | rfl | rfl <;> exact Int.emod_bmod g _
    refine hmod.trans (Int.bmod_eq_of_le_mul_two ?_ ?_) <;>
      rcases h.width with rfl | rfl | rfl <;> norm_num at hlow hhigh ⊢ <;> omega
  rw [h.bits, htype]
  dsimp only
  rw [Nat.mul_div_cancel_left _ (by decide), Nat.mul_comm i w, hload, Option.map_some, hconv]

theorem Stored.unpackV (h : Stored t n w ph)
    (hV : ∀ v ∈ t.V, 0 ≤ Scalar.number v ∧ Scalar.number v < valueBound w) :
    unpackV ph = .ok (t.V.map Scalar.number) := by
  have hlength : n = (t.V.map Scalar.number).length := by rw [List.length_map, h.length_V]
  unfold Urban.unpackV
  dsimp only
  rw [h.size_eq]
  conv_lhs => rw [hlength]
  refine mapM_range_eq_pure fun i x hi => ?_
  change _ = Except.ok x
  rw [List.getElem?_map, Option.map_eq_some_iff] at hi
  obtain ⟨v, hi, rfl⟩ := hi
  obtain ⟨h0, hlt⟩ := hV v (List.mem_of_getElem? hi)
  rw [← hlength, Nat.add_comm, h.nvecget_V hi, decode_of_lt h.width h0 hlt]

/-- `pp_perfecthash` without stored keys reads the entry of `V` that `HanovPP` reads. -/
theorem Stored.ppPerfecthash (h : Stored t n w ph) (hn : 0 < n) (hkeys : ph.keys = none)
    (hG : ∀ g ∈ t.G, -2 ^ (8 * w - 1) ≤ g ∧ g < 2 ^ (8 * w - 1) ∧ -(n : Int) ≤ g)
    (hV : ∀ v ∈ t.V, 0 ≤ Scalar.number v ∧ Scalar.number v < valueBound w) (key : Bytes) :
    ppPerfecthash hash ph key =
      .ok (some (Scalar.number (SlotTable.get t.V (slotOf hash n t.G key)))) := by
  have hentry : t.G[hash key 0 % n]? = some (t.G.getD (hash key 0 % n) 0) :=
    getElem?_eq_getD (by rw [h.length_G]; exact Nat.mod_lt _ hn) 0
  obtain ⟨hlow, hhigh, hslot⟩ := hG _ (List.mem_of_getElem? hentry)
  have hd : nvecget ph.G (hash key 0 % n) ph.bits = _ := h.vec_G hentry
  have hsign := ppFixSign_decode h.width hlow hhigh
  have hv : nvecget ph.G (n + slotOf hash n t.G key) ph.bits =
      .ok (Scalar.number (SlotTable.get t.V (slotOf hash n t.G key))) := by
    have hlt : slotOf hash n t.G key < n := entrySlot_lt hn hslot key
    have hget := getElem?_eq_getD (show slotOf hash n t.G key < t.V.length from h.length_V ▸ hlt)
      none
    obtain ⟨h0, hlt⟩ := hV _ (List.mem_of_getElem? hget)
    rw [h.nvecget_V hget, SlotTable.get, hget, decode_of_lt h.width h0 hlt]
    rfl
  unfold slotOf at hv ⊢
  generalize t.G.getD (hash key 0 % n) 0 = g at hd hsign hv ⊢
  rw [h.bits] at hd hv
  unfold Urban.ppPerfecthash
  dsimp only
  rw [h.size_eq, modulo_pos hn, hkeys]
  simp only [h.bits, hd, hsign, bind, Except.bind]
  unfold entrySlot at hv ⊢
  split
  · rename_i hneg
    rw [if_pos hneg] at hv
    rw [hv]
    rfl
  · rename_i hneg
    rw [if_neg hneg] at hv
    split
    · rename_i hzero
      rw [if_pos hzero] at hv
      rw [hv]
      rfl
    · rename_i hzero
      rw [if_neg hzero] at hv
      rw [hv]
      rfl

/-- Tables that fit the width are what all three readers get from the string. -/
theorem pack_roundTrip {hash : Bytes → Nat → Nat} {b n : Nat} {G V : List Int} {options : Options}
    (hb : b = 8 ∨ b = 16 ∨ b = 32) (hn : 1 ≤ n) (hlenG : G.length = n) (hlenV : V.length = n)
    (hG : ∀ g ∈ G, -2 ^ (b - 1) ≤ g ∧ g ≤ 2 ^ (b - 1) - 2 ∧ -(n : Int) ≤ g)
    (hV : ∀ v ∈ V, 0 ≤ v ∧ v ≤ 2 ^ (b - 1) - 1) :
    ∃ s, pack b n { G := G, V := V.map some } = .ok s ∧ 4 * s.length / b = n ∧
      (∀ key, ∃ v, HanovPP.lookup hash { G := G, V := V.map some } key = .ok (some v) ∧
        ivPerfecthash hash { G := s, bits := b, options, keys := none } key = .ok v ∧
        ppPerfecthash hash { G := s, bits := b, options, keys := none } key = .ok (some v)) ∧
      unpackG { G := s, bits := b, options, keys := none } = .ok (G.map some) ∧
      unpackV { G := s, bits := b, options, keys := none } = .ok V := by
  obtain ⟨w, hw, rfl⟩ : ∃ w, Width w ∧ b = 8 * w := by
    rcases hb with rfl | rfl | rfl
    · exact ⟨1, .inl rfl, rfl⟩
    · exact ⟨2, .inr (.inl rfl), rfl⟩
    · exact ⟨4, .inr (.inr rfl), rfl⟩
  subst hlenG
  let t : Tables Int := { G := G, V := V.map some }
  have hlength : t.V.length = t.G.length := (List.length_map _).trans hlenV
  have hpack := pack_eq hw (t := t) rfl hlength
  refine ⟨_, hpack, ?_⟩
  generalize Cells.encode w (t.G ++ t.V.map Scalar.number) = s at hpack
  let ph : Urban := { G := s, bits := 8 * w, options, keys := none }
  have h : Stored t G.length w ph := stored_of_pack hw rfl hpack rfl hlength
  have hseed : ∀ g ∈ G, -2 ^ (8 * w - 1) ≤ g ∧ g < seedBound w := fun g hg => by
    obtain ⟨hlow, hhigh, -⟩ := hG g hg
    refine ⟨hlow, ?_⟩
    rcases hw with rfl | rfl | rfl <;> norm_num [seedBound] at hhigh ⊢ <;> omega
  have hsigned : ∀ g ∈ G, -2 ^ (8 * w - 1) ≤ g ∧ g < 2 ^ (8 * w - 1) ∧ -(G.length : Int) ≤ g :=
    fun g hg => by
      obtain ⟨hlow, hhigh, hslot⟩ := hG g hg
      exact ⟨hlow, by omega, hslot⟩
  have hvalue : ∀ v ∈ t.V, 0 ≤ Scalar.number v ∧ Scalar.number v < valueBound w := fun v hv => by
    obtain ⟨v', hv', rfl⟩ := List.mem_map.mp hv
    obtain ⟨h0, hle⟩ := hV v' hv'
    refine ⟨h0, ?_⟩
    change v' < valueBound w
    rcases hw with rfl | rfl | rfl <;> norm_num [valueBound] at hle ⊢ <;> omega
  refine ⟨h.size_eq, fun key => ?_, h.unpackG fun g hg => ⟨(hsigned g hg).1, (hsigned g hg).2.1⟩,
    ?_⟩
  · have hslot : slotOf hash G.length G key < V.length := by
      rw [hlenV]
      exact entrySlot_lt hn (hG _ (List.mem_of_getElem?
        (getElem?_eq_getD (Nat.mod_lt (hash key 0) hn) 0))).2.2 key
    have hget : SlotTable.get t.V (slotOf hash G.length G key) =
        some (V.getD (slotOf hash G.length G key) 0) := by
      rw [SlotTable.get, List.getElem?_map, getElem?_eq_getD hslot 0]
      rfl
    have hiv : ivPerfecthash hash ph key = ivLookup hash ph key := by
      unfold ivPerfecthash
      cases ivLookup hash ph key <;> rfl
    refine ⟨V.getD (slotOf hash G.length G key) 0, ?_, ?_, ?_⟩
    · exact (lookup_eq (t := t) hn key).trans (congrArg Except.ok hget)
    · rw [hiv, (h.readsBack hseed hvalue).ivLookup_eq hn h.size_eq
        (hslot.trans_eq (List.length_map _).symm), hget]
      rfl
    · rw [h.ppPerfecthash hn rfl hsigned hvalue, hget]
      rfl
  · have hid : t.V.map Scalar.number = V := by
      rw [List.map_map]
      exact List.map_id' V
    exact hid ▸ h.unpackV hvalue

theorem pack_roundTrip_three : ∃ s,
    pack 8 3 { G := [-3, 0, 5], V := [some 2, some 0, some 1] } = .ok s ∧
      unpackG { G := s, bits := 8, options := [], keys := none } = .ok [some (-3), some 0, some 5] ∧
      unpackV { G := s, bits := 8, options := [], keys := none } = .ok [2, 0, 1] := by
  obtain ⟨s, hpack, -, -, hG, hV⟩ := @pack_roundTrip crc32 8 3 [-3, 0, 5] [2, 0, 1] []
    (.inl rfl) (by decide) rfl rfl (by decide) (by decide)
  exact ⟨s, hpack, hG, hV⟩

/-! ## The width that `new` chooses -/

/-- The width for no key is 2 bits. -/
theorem ne_nil_of_width (hnew : new hash turns (.array keys) args = .ok ph)
    (hbits : ph.bits = 8 * w) : keys ≠ [] := by
  rintro rfl
  obtain ⟨t, ht, h2, -, -⟩ := new_array_ok hnew
  cases ht
  rw [hbits] at h2
  have h2 : 8 * w = 2 := h2
  omega

/-- The indexes that are read back are all of them. -/
theorem ReadsBack.length_le (h : ReadsBack ph t) (hw : Width w) (hbits : ph.bits = 8 * w)
    (hc : Complete hash keys.length keys (indexHash keys) t) : keys.length ≤ valueBound w := by
  by_contra hlt
  have hmem : some ((valueBound w : Nat) : Int) ∈ t.V :=
    hc.perm.mem_iff.mpr (List.mem_map.mpr ⟨_, List.mem_range.mpr (by omega), rfl⟩)
  obtain ⟨i, hi⟩ := List.mem_iff_getElem?.mp hmem
  have hread := h.V i _ hi
  rw [hbits] at hread
  exact absurd (vec_lt hw hread) (Int.lt_irrefl _)

/-- The seeds that are read back are below the bound. -/
theorem ReadsBack.lt_seedBound (h : ReadsBack ph t) (hs : Stored t n w ph)
    (hneeded : neededBits t.G ≤ 8 * w) (hg : g ∈ t.G) : g < seedBound w := by
  by_contra hge
  obtain ⟨i, hi⟩ := List.mem_iff_getElem?.mp hg
  obtain ⟨hlow, hhigh⟩ := bounds_of_neededBits hs.width hneeded hg
  obtain ⟨d, hd, -, hneg⟩ := fixSign_decode hs.width hlow hhigh
  have hread := h.G i g hi
  rw [hs.vec_G hi, hs.bits] at hread
  obtain rfl : d = g := Except.ok.inj (hd.symm.trans hread)
  have hd := hneg (by omega)
  have : 0 < seedBound w := by rcases hs.width with rfl | rfl | rfl <;> decide
  omega

/-- At a width of 8, 16 or 32 bits the tables of an arrayref are read back if and only if no seed
takes the sign bit and the indexes fit. -/
theorem readsBack_iff {hash : Bytes → Nat → Nat} {turns w : Nat} {keys : List Bytes}
    {args : List String} {ph : Urban} (hnew : new hash turns (.array keys) args = .ok ph)
    (hw : Width w) (hbits : ph.bits = 8 * w) :
    ∃ unpacked : HanovPP Int, HanovPP.new hash turns (.array keys) args = .ok unpacked ∧
      (ReadsBack ph unpacked.toTables ↔
        (∀ g ∈ unpacked.G, g < seedBound w) ∧ (pad keys).length ≤ valueBound w) := by
  have hne : pad keys ≠ [] := mt pad_eq_nil.mp (ne_nil_of_width hnew hbits)
  obtain ⟨t, ht, hround, hpack, -⟩ := new_array_ok hnew
  have hc := tables_complete hne ht
  have hs := stored_of_pack hw hbits hpack hc.length_G hc.length_V
  have hneeded := ((roundBits_eq_iff hw).mp (hround.symm.trans hbits)).2
  refine ⟨_, unpacked_ok rfl ht,
    fun h => ⟨fun g => h.lt_seedBound hs hneeded, h.length_le hw hbits hc⟩,
    fun ⟨hseeds, hn⟩ => hs.readsBack (fun g hg => ?_) fun v hv => ?_⟩
  · exact ⟨(bounds_of_neededBits hw hneeded hg).1, hseeds g hg⟩
  · obtain ⟨i, hi, rfl⟩ := List.mem_map.mp (hc.perm.mem_iff.mp hv)
    have hlt := List.mem_range.mp hi
    change 0 ≤ (i : Int) ∧ (i : Int) < valueBound w
    omega

theorem readsBack_iff_seven : ∃ ph unpacked,
    new crc32 40 (.array [[97], [98], [99], [100], [101], [102], [103]]) [] = .ok ph ∧
      HanovPP.new crc32 40 (.array [[97], [98], [99], [100], [101], [102], [103]]) [] =
        .ok unpacked ∧ ReadsBack ph unpacked.toTables := by
  obtain ⟨ph, hph, hbits⟩ := exists_ok_and (p := fun ph : Urban => ph.bits = 8 * 1)
    (show ((new crc32 40 (.array [[97], [98], [99], [100], [101], [102], [103]]) []).toOption.map
      fun ph => decide (ph.bits = 8 * 1)) = some true by decide +kernel)
  obtain ⟨unpacked, hunpacked, hiff⟩ := readsBack_iff hph (.inl rfl) hbits
  obtain ⟨unpacked', hunpacked', hseeds⟩ := exists_ok_and
    (p := fun unpacked : HanovPP Int => ∀ g ∈ unpacked.G, g < seedBound 1)
    (show ((HanovPP.new crc32 40
      (.array [[97], [98], [99], [100], [101], [102], [103]]) []).toOption.map
        fun unpacked => decide (∀ g ∈ unpacked.G, g < seedBound 1)) = some true by decide +kernel)
  obtain rfl : unpacked = unpacked' := Except.ok.inj (hunpacked.symm.trans hunpacked')
  exact ⟨ph, unpacked, hph, hunpacked, hiff.mpr ⟨hseeds, by decide⟩⟩

/-- Five keys in one bucket whose seed 179 takes the sign bit of 8 bits. -/
theorem not_readsBack_five : ∃ ph unpacked,
    new crc32 1000 (.array [[101], [104], [108], [115], [117]]) [] = .ok ph ∧ ph.bits = 8 ∧
      HanovPP.new crc32 1000 (.array [[101], [104], [108], [115], [117]]) [] = .ok unpacked ∧
      ¬ ReadsBack ph unpacked.toTables := by
  obtain ⟨ph, hph, hbits, hread⟩ := exists_ok_and
    (p := fun ph : Urban => ph.bits = 8 ∧
      ((vec ph.G 0 4 ph.bits >>= fixSign ph.bits).toOption = some (-77)))
    (show ((new crc32 1000 (.array [[101], [104], [108], [115], [117]]) []).toOption.map
      fun ph => decide (ph.bits = 8 ∧
        ((vec ph.G 0 4 ph.bits >>= fixSign ph.bits).toOption = some (-77)))) = some true
      by decide +kernel)
  obtain ⟨unpacked, hunpacked, hG⟩ := exists_ok_and
    (p := fun unpacked : HanovPP Int => unpacked.G[4]? = some 179)
    (show ((HanovPP.new crc32 1000
      (.array [[101], [104], [108], [115], [117]]) []).toOption.map
        fun unpacked => decide (unpacked.G[4]? = some 179)) = some true by decide +kernel)
  refine ⟨ph, unpacked, hph, hbits, hunpacked, fun h => ?_⟩
  rw [h.G 4 179 hG] at hread
  exact absurd hread (by decide)

end PerfectHash.Urban
