import PerfectHash.HanovPP.Placement

/-! # Lookups in the tables of `new`

`perfecthash` reads the slot that `slotOf` names (`lookup_eq`). With that, the finished tables give
the results on lookups: every key of the dictionary finds its value, and with stored keys an
arrayref is recognised exactly, if it is not empty. -/

namespace PerfectHash

/-- The dictionary gives key `k` the value `v`: its index in an arrayref or a file, its value in a
hashref. -/
inductive Dict.Maps [Scalar α] : Dict α → Bytes → α → Prop
  | array (h : keys[i]? = some k) : Maps (.array keys) k (Scalar.ofInt (i : Nat))
  | file (h : (splitLines content)[i]? = some k) : Maps (.file content) k (Scalar.ofInt (i : Nat))
  | hash {d : HashRef α} (h : (k, some v) ∈ d.entries) : Maps (.hash d) k v

namespace HanovPP

variable {α : Type} {hash : Bytes → Nat → Nat} {turns : Nat} {args : List String} {k : Bytes}
  {v : α} {keys : List Bytes} {values : List (Option α)} {ph : HanovPP α}

/-- `new` splits the dictionary, builds the tables and packs them up with the keys. -/
theorem new_ok [Scalar α] {dict : Dict α} (h : new hash turns dict args = .ok ph) :
    ∃ keys values, dictInit dict = .ok (keys, values) ∧
      tables hash turns keys (valueOf dict keys values) = .ok ph.toTables ∧
      (ph.keys = if (handleOpts args).has "-false-positives" then none else some keys) ∧
      ph.options = handleOpts args := by
  obtain ⟨⟨keys, values⟩, hinit, h⟩ := bind_eq_ok.mp h
  obtain ⟨t, ht, h⟩ := bind_eq_ok.mp h
  cases h
  exact ⟨keys, values, hinit, ht, rfl, rfl⟩

/-- Following `G` is reading the slot of the key. -/
theorem lookup_eq {t : Tables α} (hpos : 0 < t.G.length) (key : Bytes) :
    lookup hash t key = .ok (SlotTable.get t.V (slotOf hash t.G.length t.G key)) := by
  simp only [lookup, modulo_pos hpos, bind, Except.bind, pure, Except.pure, slotOf, entrySlot]
  split
  · rename_i hneg
    obtain ⟨s, hs⟩ := Int.eq_ofNat_of_zero_le
      (show 0 ≤ -(t.G.getD (hash key 0 % t.G.length) 0) - 1 by omega)
    rw [hs, elem_natCast, Int.toNat_natCast]
    rfl
  · split
    · rw [elem_natCast]
      rfl
    · rw [elem_natCast]
      rfl

theorem lookup_nil {t : Tables α} (h : t.G = []) (key : Bytes) :
    lookup hash t key = .error (.die "Illegal modulus zero") := by
  simp [lookup, h, modulo, bind, Except.bind]

/-! ## The values of the keys -/

theorem indexHash_eq [Scalar α] {i : Nat} (hnd : keys.Nodup) (h : keys[i]? = some k) :
    indexHash keys k = some (Scalar.ofInt (α := α) i) := by
  refine hashOfList_of_mem ?_ ?_
  · rw [List.map_map]
    simpa [Function.comp_def] using hnd
  · refine List.mem_map.mpr ⟨(k, i), ?_, rfl⟩
    rw [List.mem_iff_getElem?]
    exact ⟨i, by simp [h]⟩

/-- A key of the dictionary is in the key list and has its value while the tables are built. -/
theorem valueOf_of_maps [Scalar α] {dict : Dict α} (hinit : dictInit dict = .ok (keys, values))
    (hnd : keys.Nodup) (h : dict.Maps k v) : k ∈ keys ∧ valueOf dict keys values k = some v := by
  cases h with
  | array h =>
    cases hinit
    exact ⟨List.mem_of_getElem? (getElem?_pad h), indexHash_eq hnd (getElem?_pad h)⟩
  | file h =>
    cases hinit
    exact ⟨List.mem_of_getElem? (getElem?_pad h), indexHash_eq hnd (getElem?_pad h)⟩
  | hash h =>
    obtain ⟨rfl, -⟩ := dictInit_hash hinit
    have hget := HashRef.get_of_mem h
    exact ⟨HashRef.mem_pad_sortedKeys hget, hget⟩

/-- The lookup of a key of the dictionary reads its value. -/
theorem lookup_of_maps [Scalar α] {dict : Dict α} (hnew : new hash turns dict args = .ok ph)
    (h : dict.Maps k v) : lookup hash ph.toTables k = .ok (some v) := by
  obtain ⟨keys, values, hinit, ht, -⟩ := new_ok hnew
  have hkeys : keys ≠ [] := by
    cases h with
    | array h =>
      cases hinit
      exact List.ne_nil_of_mem (List.mem_of_getElem? (getElem?_pad h))
    | file h =>
      cases hinit
      exact List.ne_nil_of_mem (List.mem_of_getElem? (getElem?_pad h))
    | hash h =>
      obtain ⟨rfl, -⟩ := dictInit_hash hinit
      exact List.ne_nil_of_mem (HashRef.mem_pad_sortedKeys (HashRef.get_of_mem h))
  have hc := tables_complete hkeys ht
  obtain ⟨hmem, hval⟩ := valueOf_of_maps hinit hc.nodup h
  rw [lookup_eq (by rw [hc.length_G]; exact List.length_pos_iff.mpr hkeys), hc.length_G,
    hc.seated k hmem v hval]

/-- With `-false-positives`, every key of the dictionary finds its index or value. -/
theorem perfecthash_of_maps [Scalar α] {dict : Dict α} (hnew : new hash turns dict args = .ok ph)
    (hfp : (handleOpts args).has "-false-positives") (hmaps : dict.Maps k v) :
    perfecthash hash ph k = .ok (some v) := by
  obtain ⟨keys, values, -, -, hph, -⟩ := new_ok hnew
  rw [if_pos hfp] at hph
  simp only [perfecthash, lookup_of_maps hnew hmaps, hph, bind, Except.bind, pure, Except.pure]

/-- Eight keys, which the key list pads with the dummy key. It has no value, so its slot stays
free. -/
def eightKeys : HashRef Int where
  entries := [([97], some 5), ([98], some 7), ([99], some 5), ([100], some 7), ([101], some 5),
    ([102], some 7), ([103], some 5), ([104], some (-7))]
  nodup := by decide

theorem perfecthash_eightKeys : ∃ ph, new fnv 40 (.hash eightKeys) ["-false-positives"] = .ok ph ∧
    perfecthash fnv ph [104] = .ok (some (-7)) := by
  obtain ⟨ph, hph⟩ := exists_ok_of_isOk
    (show (new fnv 40 (.hash eightKeys) ["-false-positives"]).isOk by decide +kernel)
  exact ⟨ph, hph, perfecthash_of_maps hph (by decide) (.hash (by decide))⟩

/-! ## Stored keys -/

/-- A negative entry of finished tables names a slot. -/
theorem Complete.neg_size_le {size : Nat} {dict : Bytes → Option α} {t : Tables α}
    (hc : Complete hash size keys dict t) (hb : b < size) (hneg : t.G.getD b 0 < 0) :
    -(size : Int) ≤ t.G.getD b 0 := by
  have he := hc.entry b hb
  rcases Nat.lt_trichotomy (bucket hash size keys b).length 1 with h | h | h
  · have := he.empty (by omega)
    omega
  · exact (he.single h).1
  · have := he.multi h
    omega

/-- An entry that names no slot beyond the last leads every key to a slot. -/
theorem entrySlot_lt {size : Nat} {g : Int} (hsize : 0 < size) (hg : -(size : Int) ≤ g)
    (k : Bytes) : entrySlot hash size g k < size := by
  rw [entrySlot]
  split
  · omega
  · split
    · exact Nat.mod_lt _ hsize
    · exact Nat.mod_lt _ hsize

/-- The slots that finished tables lead to are slots of `V`, for any key. -/
theorem Complete.slotOf_lt {size : Nat} {dict : Bytes → Option α} {t : Tables α}
    (hc : Complete hash size keys dict t) (hsize : 0 < size) (k : Bytes) :
    slotOf hash size t.G k < size := by
  apply entrySlot_lt hsize
  rcases Int.lt_or_le (t.G.getD (hash k 0 % size) 0) 0 with hneg | hpos
  · exact hc.neg_size_le (Nat.mod_lt (hash k 0) hsize) hneg
  · omega

/-- The tables of an arrayref or a file: every stored key is at its index. -/
theorem Complete.get_index {t : Tables Int} {size : Nat} {i : Nat}
    (hc : Complete hash size keys (indexHash keys) t) (h : keys[i]? = some k) :
    SlotTable.get t.V (slotOf hash size t.G k) = some (i : Int) :=
  hc.seated k (List.mem_of_getElem? h) i (indexHash_eq hc.nodup h)

/-- An index of an arrayref: the table holds each index once, no two keys share a slot, and a
lookup gives the index of a stored key and `undef` for any other string. -/
structure Exact (hash : Bytes → Nat → Nat) (keys : List Bytes) (ph : HanovPP Int) : Prop where
  perm : ph.V.Perm ((List.range keys.length).map fun i : Nat => some (i : Int))
  slot_inj : ∀ k ∈ keys, ∀ k' ∈ keys,
    slotOf hash keys.length ph.G k = slotOf hash keys.length ph.G k' → k = k'
  member : ∀ (i : Nat) k, keys[i]? = some k → perfecthash hash ph k = .ok (some (i : Int))
  absent : ∀ k ∉ keys, perfecthash hash ph k = .ok none

/-- The table of an arrayref holds every index once. -/
theorem Complete.perm {t : Tables Int} (hc : Complete hash keys.length keys (indexHash keys) t) :
    t.V.Perm ((List.range keys.length).map fun i : Nat => some (i : Int)) := by
  have := SlotTable.perm_range_of_forall_mem (V := t.V) (f := fun i : Nat => (i : Int))
    (fun _ _ => Int.ofNat_inj.mp) fun i hi => by
      rw [hc.length_V] at hi
      exact SlotTable.mem_of_get (hc.get_index (List.getElem?_eq_getElem hi))
  rwa [hc.length_V] at this

/-- Every string is led to a slot that holds an index. -/
theorem Complete.exists_get {t : Tables Int} (hkeys : keys ≠ [])
    (hc : Complete hash keys.length keys (indexHash keys) t) (k : Bytes) :
    ∃ i : Nat, i < keys.length ∧
      SlotTable.get t.V (slotOf hash keys.length t.G k) = some (i : Int) := by
  have hall : ∀ k ∈ keys, (indexHash (α := Int) keys k).isSome := by
    intro k hk
    obtain ⟨i, hi⟩ := List.mem_iff_getElem?.mp hk
    rw [indexHash_eq hc.nodup hi]
    rfl
  have hfull := SlotTable.get_ne_none_of_free_eq_zero (hc.full hall)
    (show slotOf hash keys.length t.G k < t.V.length by
      rw [hc.length_V]
      exact hc.slotOf_lt (List.length_pos_iff.mpr hkeys) k)
  obtain ⟨v, hv⟩ := Option.ne_none_iff_exists'.mp hfull
  obtain ⟨i, hi, hiv⟩ := List.mem_map.mp (hc.perm.mem_iff.mp (SlotTable.mem_of_get hv))
  obtain rfl : (i : Int) = v := by simpa using hiv
  exact ⟨i, List.mem_range.mp hi, hv⟩

/-- No two keys share a slot. -/
theorem Complete.slot_inj {t : Tables Int} {size : Nat}
    (hc : Complete hash size keys (indexHash keys) t) (hk : k ∈ keys) (hk' : k' ∈ keys)
    (h : slotOf hash size t.G k = slotOf hash size t.G k') : k = k' := by
  obtain ⟨i, hi⟩ := List.mem_iff_getElem?.mp hk
  obtain ⟨j, hj⟩ := List.mem_iff_getElem?.mp hk'
  have hij := hc.get_index hi
  rw [h, hc.get_index hj] at hij
  rw [show j = i by simpa using hij, hi] at hj
  simpa using hj

theorem Complete.exact {keys : List Bytes} {ph : HanovPP Int} (hkeys : keys ≠ [])
    (hc : Complete hash keys.length keys (indexHash keys) ph.toTables) (hph : ph.keys = some keys) :
    Exact hash keys ph := by
  have hpos : 0 < keys.length := List.length_pos_iff.mpr hkeys
  have hlookup : ∀ k, lookup hash ph.toTables k =
      .ok (SlotTable.get ph.V (slotOf hash keys.length ph.G k)) := by
    intro k
    rw [lookup_eq (by rw [hc.length_G]; exact hpos), hc.length_G]
  refine ⟨hc.perm, fun k hk k' hk' => hc.slot_inj hk hk', fun i k hi => ?_, fun k hk => ?_⟩
  · simp only [perfecthash, hlookup, hc.get_index hi, hph, bind, Except.bind, pure, Except.pure]
    rw [if_pos]
    change keyAt keys (i : Int) = k
    exact keyAt_natCast hi
  · obtain ⟨i, hi, hv⟩ := hc.exists_get hkeys k
    simp only [perfecthash, hlookup, hv, hph, bind, Except.bind, pure, Except.pure]
    rw [if_neg]
    change ¬ keyAt keys (i : Int) = k
    rw [keyAt_natCast (List.getElem?_eq_getElem hi)]
    exact fun h => hk (h ▸ List.getElem_mem _)

/-- Without `-false-positives`, an arrayref on which `new` returns is indexed exactly if and only
if it is not empty: on an empty one every lookup dies of a zero modulus. -/
theorem exact_iff_ne_nil {hash : Bytes → Nat → Nat} {turns : Nat} {keys : List Bytes}
    {args : List String} {ph : HanovPP Int} (hnew : new hash turns (.array keys) args = .ok ph)
    (hfp : (handleOpts args).has "-false-positives" = false) :
    Exact hash (pad keys) ph ↔ keys ≠ [] := by
  obtain ⟨keys', values, hinit, ht, hph, -⟩ := new_ok hnew
  cases hinit
  rw [hfp, if_neg (by decide)] at hph
  constructor
  · intro hexact hnil
    have hG : ph.G = [] := by
      rw [hnil] at ht
      exact congrArg Tables.G (Except.ok.inj ht).symm
    have := hexact.absent [0] (by rw [hnil]; decide)
    simp [perfecthash, lookup_nil hG, bind, Except.bind] at this
  · intro hkeys
    have hpad := mt pad_eq_nil.mp hkeys
    exact (tables_complete hpad ht).exact hpad hph

theorem exact_iff_ne_nil_three : ∃ ph, new fnv 20 (.array [[97], [98], [99, 99]]) [] = .ok ph ∧
    Exact fnv [[97], [98], [99, 99]] ph := by
  obtain ⟨ph, hph⟩ := exists_ok_of_isOk (show (new (α := Int) fnv 20
    (.array [[97], [98], [99, 99]]) []).isOk by decide +kernel)
  exact ⟨ph, hph, (exact_iff_ne_nil hph (by decide)).mpr (by decide)⟩

/-- On the empty arrayref `new` returns, but a lookup dies. -/
theorem not_exact_nil : ∃ ph, new fnv 0 (.array []) [] = .ok ph ∧
    perfecthash fnv ph [97] = .error (.die "Illegal modulus zero") ∧ ¬ Exact fnv [] ph := by
  refine ⟨_, rfl, rfl, fun h => ?_⟩
  have := h.absent [97] (by decide)
  cases this

/-! ## Stored keys of a hashref -/

/-- With stored keys, a lookup of a key of a hashref checks the key at the position that its value
names. -/
theorem perfecthash_hashref [Scalar α] {d : HashRef α}
    (hnew : new hash turns (.hash d) args = .ok ph)
    (hfp : (handleOpts args).has "-false-positives" = false) (h : d.get k = some v) :
    perfecthash hash ph k =
      .ok (if keyAt (pad d.sortedKeys) (Scalar.toInt v) = k then some v else none) := by
  obtain ⟨keys, values, hinit, -, hph, -⟩ := new_ok hnew
  obtain ⟨rfl, -⟩ := dictInit_hash hinit
  rw [hfp, if_neg (by decide)] at hph
  simp only [perfecthash, lookup_of_maps hnew (.hash (HashRef.mem_of_get h)), hph, bind,
    Except.bind, pure, Except.pure]
  rfl

end HanovPP
end PerfectHash
