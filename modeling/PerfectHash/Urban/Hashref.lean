import PerfectHash.Urban.Decoders

/-! # The index of a hashref

The values of a hashref are what a lookup reads, and with stored keys `iv_perfecthash` takes what it
reads for an index of them. `new` accepts values up to the number of keys, one too many: the read of
the stored keys stays inside if and only if no value is that number (`validIndex_iff`). -/

namespace PerfectHash.Urban

open C CValues HanovPP

variable {hash : Bytes → Nat → Nat} {turns bits base index size : Nat} {x last : Int} {s : Bytes}
  {d : HashRef Int} {keys : List Bytes} {args : List String} {t : Tables Int} {ph : Urban}

/-- `vec` has five widths. -/
theorem bits_of_vec (h : vec s base index bits = .ok x) :
    bits = 8 ∨ bits = 4 ∨ bits = 16 ∨ bits = 32 ∨ bits = 64 := by
  by_contra hbits
  simp only [not_or] at hbits
  obtain ⟨h8, h4, h16, h32, h64⟩ := hbits
  rw [vec, if_neg h8, if_neg h4, if_neg h16, if_neg h32, if_neg h64] at h
  cases h

/-- What the value check leaves. -/
theorem checkValues_ok (h : checkValues size (.hash d) = .ok ()) :
    ∀ e ∈ d.entries, 0 ≤ Scalar.number e.2 ∧ Scalar.number e.2 ≤ size := by
  unfold checkValues at h
  dsimp only at h
  split at h
  · cases h
  · rename_i hfind
    intro e he
    have hnot := List.find?_eq_none.mp hfind e he
    simp only [decide_eq_true_eq, not_or] at hnot
    omega

/-- The value of a key, also of one that has none, is one of the values of the hashref or 0. -/
theorem number_get {P : Int → Prop} (hzero : P 0) (h : ∀ e ∈ d.entries, P (Scalar.number e.2))
    (k : Bytes) : P (Scalar.number (d.get k)) := by
  cases hget : d.get k with
  | none => exact hzero
  | some v => exact h _ (HashRef.mem_of_get hget)

/-- Seven keys, the value of the last one free. -/
def letters (last : Int) : HashRef Int where
  entries := [([97], some 0), ([98], some 1), ([99], some 2), ([100], some 3), ([101], some 4),
    ([102], some 5), ([103], some last)]
  nodup := by
    dsimp only [List.map]
    decide

/-- The largest value that fits the stored keys and the first one that does not are both accepted
and read back. -/
theorem letters_readsBack (hlast : last = 6 ∨ last = 7) : ∃ ph unpacked,
    new crc32 40 (.hash (letters last)) [] = .ok ph ∧
      HanovPP.new crc32 40 (.hash (letters last)) [] = .ok unpacked ∧
      ReadsBack ph unpacked.toTables ∧
      ph.keys = some [[97], [98], [99], [100], [101], [102], [103]] := by
  obtain ⟨ph, hph, hbits, hG, hkeys⟩ := exists_ok_and
    (p := fun ph : Urban => ph.bits = 8 * 1 ∧
      ph.G = Cells.encode 1 ([1, 0, -7, 0, 16, -4, 0] ++ [0, 1, 4, 5, 2, last, 3]) ∧
      ph.keys = some [[97], [98], [99], [100], [101], [102], [103]])
    (x := new crc32 40 (.hash (letters last)) [])
    (by rcases hlast with rfl | rfl <;> decide +kernel)
  obtain ⟨unpacked, hunpacked, hG', hV'⟩ := exists_ok_and
    (p := fun unpacked : HanovPP Int => unpacked.G = [1, 0, -7, 0, 16, -4, 0] ∧
      unpacked.V = [some 0, some 1, some 4, some 5, some 2, some last, some 3])
    (x := HanovPP.new crc32 40 (.hash (letters last)) [])
    (by rcases hlast with rfl | rfl <;> decide +kernel)
  have hs : Stored unpacked.toTables 7 1 ph := {
    width := .inl rfl
    bits := hbits
    G := by
      rw [hG, hG', hV']
      rfl
    length_G := by rw [hG']; rfl
    length_V := by rw [hV']; rfl }
  refine ⟨ph, unpacked, hph, hunpacked, hs.readsBack ?_ ?_, hkeys⟩
  · rw [hG']
    decide
  · rw [hV']
    rcases hlast with rfl | rfl <;> decide

/-- The index that is read for a query is an index of the stored keys, for all queries, if and only
if no value of the hashref is the number of the stored keys. -/
theorem validIndex_iff {hash : Bytes → Nat → Nat} {turns : Nat} {d : HashRef Int}
    {args : List String} {ph : Urban} {unpacked : HanovPP Int}
    (hnew : new hash turns (.hash d) args = .ok ph)
    (hunpacked : HanovPP.new hash turns (.hash d) args = .ok unpacked)
    (hfp : (handleOpts args).has "-false-positives" = false)
    (hread : ReadsBack ph unpacked.toTables) :
    ∃ keys, ph.keys = some keys ∧
      ((∀ key, ∃ v, ivLookup hash ph key = .ok v ∧ 0 ≤ v ∧ v < keys.length) ↔
        ∀ e ∈ d.entries, Scalar.number e.2 ≠ keys.length) := by
  obtain ⟨keys, values, t, hinit, hcheck, ht, -, hpack, hph⟩ := new_ok hnew
  rw [hfp, if_neg (by decide)] at hph
  obtain rfl : _ = unpacked := Except.ok.inj ((unpacked_ok hinit ht).symm.trans hunpacked)
  have hvalues := checkValues_ok hcheck
  obtain ⟨rfl, -⟩ := dictInit_hash hinit
  have hne : pad d.sortedKeys ≠ [] := by
    intro hnil
    have hlength := d.sortedKeys_perm.length_eq
    rw [pad_eq_nil.mp hnil, List.length_nil] at hlength
    rw [dictInit, if_pos hlength.symm] at hinit
    cases hinit
  have hpos := List.length_pos_iff.mpr hne
  have hc := tables_complete hne ht
  refine ⟨_, hph, ?_⟩
  have hsize : 4 * ph.G.length / ph.bits = t.G.length := by
    have hentry := getElem?_eq_getD (show 0 < t.G.length from hc.length_G ▸ hpos) 0
    obtain ⟨x, hx, -⟩ := bind_eq_ok.mp (hread.G 0 _ hentry)
    rw [length_pack hpack, hc.length_G]
    rcases bits_of_vec hx with h | h | h | h | h <;> rw [h] <;> omega
  have hlookup (key : Bytes) : ivLookup hash ph key =
      .ok (Scalar.number (SlotTable.get t.V (slotOf hash t.G.length t.G key))) :=
    hread.ivLookup_eq (hc.length_G ▸ hpos) hsize (by
      rw [hc.length_G, hc.length_V]
      exact hc.slotOf_lt hpos key)
  constructor
  · rintro hvalid ⟨k, x⟩ he heq
    cases x with
    | none =>
      have heq : (0 : Int) = (pad d.sortedKeys).length := heq
      omega
    | some v =>
      have hget := HashRef.get_of_mem he
      have hseated := hc.seated k (HashRef.mem_pad_sortedKeys hget) v hget
      obtain ⟨v', hv', -, hlt⟩ := hvalid k
      rw [hlookup k, hc.length_G, hseated] at hv'
      obtain rfl := Except.ok.inj hv'
      exact absurd heq hlt.ne
  · intro hne key
    have hV : ∀ x ∈ t.V, 0 ≤ Scalar.number x ∧ Scalar.number x < (pad d.sortedKeys).length := by
      have hzero : (0 : Int) ≤ 0 ∧ (0 : Int) < (pad d.sortedKeys).length := by omega
      refine tables_forall (P := fun x => 0 ≤ Scalar.number x ∧
        Scalar.number x < (pad d.sortedKeys).length) (fun k => ?_) hzero ht
      refine number_get (P := fun x => 0 ≤ x ∧ x < (pad d.sortedKeys).length) hzero
        (fun e he => ?_) k
      exact ⟨(hvalues e he).1, lt_of_le_of_ne (hvalues e he).2 (hne e he)⟩
    have hslot : slotOf hash t.G.length t.G key < t.V.length := by
      rw [hc.length_G, hc.length_V]
      exact hc.slotOf_lt hpos key
    exact ⟨_, hlookup key, hV _ (List.mem_of_getElem? (SlotTable.getElem?_eq_get hslot))⟩

theorem validIndex_iff_six : ∃ ph keys, new crc32 40 (.hash (letters 6)) [] = .ok ph ∧
    ph.keys = some keys ∧ ∀ key, ∃ v, ivLookup crc32 ph key = .ok v ∧ 0 ≤ v ∧ v < keys.length := by
  obtain ⟨ph, unpacked, hph, hunpacked, hread, hstored⟩ := letters_readsBack (.inl rfl)
  obtain ⟨keys, hkeys, hiff⟩ := validIndex_iff hph hunpacked (by decide) hread
  obtain rfl := Option.some.inj (hstored.symm.trans hkeys)
  exact ⟨ph, _, hph, hkeys, hiff.mpr (by decide)⟩

/-- With the number of the keys for a value, the lookup of its key reads past the stored keys. -/
theorem not_validIndex_seven : ∃ ph unpacked keys, new crc32 40 (.hash (letters 7)) [] = .ok ph ∧
    HanovPP.new crc32 40 (.hash (letters 7)) [] = .ok unpacked ∧
    ReadsBack ph unpacked.toTables ∧ ph.keys = some keys ∧
    ¬ (∀ key, ∃ v, ivLookup crc32 ph key = .ok v ∧ 0 ≤ v ∧ v < keys.length) ∧
    ivPerfecthash crc32 ph [103] = .error .undefined := by
  obtain ⟨ph, unpacked, hph, hunpacked, hread, hkeys⟩ := letters_readsBack (.inr rfl)
  obtain ⟨ph', hph', hlookup, herror⟩ := exists_ok_and
    (p := fun ph : Urban => ivLookup crc32 ph [103] = .ok 7 ∧
      ivPerfecthash crc32 ph [103] = .error .undefined)
    (x := new crc32 40 (.hash (letters 7)) []) (by decide +kernel)
  obtain rfl := Except.ok.inj (hph'.symm.trans hph)
  refine ⟨ph', unpacked, _, hph, hunpacked, hread, hkeys, fun h => ?_, herror⟩
  obtain ⟨v, hv, -, hlt⟩ := h [103]
  obtain rfl := Except.ok.inj (hv.symm.trans hlookup)
  exact absurd hlt (by decide)

end PerfectHash.Urban
