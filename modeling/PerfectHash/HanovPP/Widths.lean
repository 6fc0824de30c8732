import PerfectHash.HanovPP.SaveC
import PerfectHash.HanovPP.Termination
import PerfectHash.Dict.KeyList

/-! # The C types of the tables

`save_c` chooses the types of `V`, of the variable `v` and of `G` by the size of the table. An
index goes through the unsigned type of `V` and through `v`, which has the signed type of the same
width, so the upper half of an unsigned type is lost (`carried_iff`). The direct entries of `G`
fit their type, but the seeds come from an open search (`G_fits_iff`). -/

namespace PerfectHash.HanovPP

open CValues C

/-! ## The entries of `V` -/

/-- What the generated lookup makes of `V[j]`: an element, the variable `v` and the `long` that is
returned. -/
def CFile.carried (c : CFile) (j : Int) : Option Int := do
  let v ← at? (c.V.flatten.map c.vtype.conv) j
  return long.conv (c.svtype.conv v)

theorem uCsize_bits (n : Nat) :
    (uCsize n).signed = false ∧ 0 < (uCsize n).bits ∧ (uCsize n).bits ≤ 64 := by
  unfold uCsize
  split_ifs <;> decide

/-- A value of a narrower signed type is a `long`. -/
theorem long_fits {t : IntType} {x : Int} (hsigned : t.signed = true) (hbits : t.bits ≤ 64)
    (h : t.Fits x) : long.Fits x := by
  have hpow : (2 : Int) ^ t.bits ≤ 2 ^ 64 := pow_le_pow_right₀ (by norm_num) hbits
  rw [IntType.Fits, if_pos hsigned] at h
  norm_num at hpow
  refine ⟨?_, ?_⟩ <;> norm_num [long] <;> omega

/-- A number that is not negative is kept by an unsigned type, the signed type of the same width and
`long` exactly if the signed type can represent it. -/
theorem carry_eq_iff {t : IntType} {x : Nat} (hsigned : t.signed = false) (hpos : 0 < t.bits)
    (hbits : t.bits ≤ 64) :
    long.conv ((stripUnsigned t).conv (t.conv x)) = x ↔ (stripUnsigned t).Fits x := by
  have hfits (y : Int) : (stripUnsigned t).Fits ((stripUnsigned t).conv y) :=
    IntType.fits_conv (t := stripUnsigned t) hpos y
  rw [IntType.conv_of_fits (long_fits (t := stripUnsigned t) rfl hbits (hfits _))]
  constructor
  · exact fun h => h ▸ hfits _
  · intro h
    have hu : t.Fits x := by
      have hlt := h.2
      rw [IntType.Fits, hsigned, if_neg (by decide)]
      change 2 * (x : Int) < 2 ^ t.bits at hlt
      omega
    rw [IntType.conv_of_fits hu, IntType.conv_of_fits h]

/-- The numbers of keys for which all indices fit the signed type of the width that is chosen for
the key list. -/
theorem forall_index_fits_iff {keys : List Bytes} :
    (∀ i < keys.length, (stripUnsigned (uCsize (pad keys).length)).Fits (i : Nat)) ↔
      keys.length ≤ 2 ^ 7 ∨ 2 ^ 8 ≤ keys.length ∧ keys.length ≤ 2 ^ 15 ∨
        2 ^ 16 ≤ keys.length ∧ keys.length ≤ 2 ^ 31 ∨
        2 ^ 32 ≤ keys.length ∧ keys.length ≤ 2 ^ 63 := by
  have hpad : (pad keys).length = keys.length ∧ (keys.length = 0 ∨ ¬ 8 ∣ keys.length) ∨
      (pad keys).length = keys.length + 1 ∧ 8 ∣ keys.length := by
    by_cases h8 : 8 ∣ keys.length
    · rcases eq_or_ne keys [] with rfl | hne
      · exact .inl ⟨rfl, .inl rfl⟩
      · rw [pad_of_dvd h8 hne, List.length_append]
        exact .inr ⟨rfl, h8⟩
    · rw [pad_of_not_dvd h8]
      exact .inl ⟨rfl, .inr h8⟩
  unfold uCsize
  split_ifs with hlong hint hshort
  · rw [IntType.forall_lt_fits_iff rfl (show (stripUnsigned unsignedLong).bits = 63 + 1 from rfl)]
    omega
  · rw [IntType.forall_lt_fits_iff rfl (show (stripUnsigned unsignedInt).bits = 31 + 1 from rfl)]
    omega
  · rw [IntType.forall_lt_fits_iff rfl (show (stripUnsigned unsignedShort).bits = 15 + 1 from rfl)]
    omega
  · rw [IntType.forall_lt_fits_iff rfl (show (stripUnsigned unsignedChar).bits = 7 + 1 from rfl)]
    omega

section
variable {hash : Bytes → Nat → Nat} {turns : Nat} {args : List String} {keys : List Bytes}
  {ph : HanovPP Int}

theorem carried_saveC {i j : Nat} (hV : SlotTable.get ph.V j = some (i : Int)) :
    (saveC ph).carried j = some (long.conv ((stripUnsigned (uCsize ph.V.length)).conv
      ((uCsize ph.V.length).conv i))) := by
  have hat : at? ((saveC ph).V.flatten.map (saveC ph).vtype.conv) (j : Int) =
      some ((uCsize ph.V.length).conv i) := by
    rw [at?_natCast, List.getElem?_map, saveC, flatten_saveCArray, List.getElem?_map,
      SlotTable.getElem?_of_get hV]
    rfl
  rw [CFile.carried, hat]
  rfl

/-- Every index of an arrayref is an entry of `V`, which is as long as the key list. -/
theorem exists_get_index {i : Nat} (hnew : new hash turns (.array keys) args = .ok ph)
    (hi : i < keys.length) :
    ph.V.length = (pad keys).length ∧ ∃ j : Nat, SlotTable.get ph.V j = some (i : Int) := by
  obtain ⟨keys', values, hinit, ht, -⟩ := new_ok hnew
  cases hinit
  have hc := tables_complete (mt pad_eq_nil.mp (List.ne_nil_of_length_pos (by omega))) ht
  exact ⟨hc.length_V, _, hc.get_index (getElem?_pad (List.getElem?_eq_getElem hi))⟩

end

/-- Every index of an arrayref goes through the types of the generated lookup unchanged exactly for
these numbers of keys. -/
theorem carried_iff {hash : Bytes → Nat → Nat} {turns : Nat} {args : List String}
    {keys : List Bytes} {ph : HanovPP Int} (hnew : new hash turns (.array keys) args = .ok ph) :
    (∀ i < keys.length, ∀ j : Nat, SlotTable.get ph.V j = some (i : Int) →
      (saveC ph).carried j = some (i : Int)) ↔
    keys.length ≤ 2 ^ 7 ∨ 2 ^ 8 ≤ keys.length ∧ keys.length ≤ 2 ^ 15 ∨
      2 ^ 16 ≤ keys.length ∧ keys.length ≤ 2 ^ 31 ∨
      2 ^ 32 ≤ keys.length ∧ keys.length ≤ 2 ^ 63 := by
  rw [← forall_index_fits_iff]
  obtain ⟨hsigned, hpos, hbits⟩ := uCsize_bits (pad keys).length
  refine forall₂_congr fun i hi => ?_
  obtain ⟨hlength, j, hj⟩ := exists_get_index hnew hi
  have hcarry := carry_eq_iff (x := i) hsigned hpos hbits
  constructor
  · intro h
    have hv := h j hj
    rw [carried_saveC hj, hlength] at hv
    exact hcarry.mp (Option.some.inj hv)
  · intro hfits j' hj'
    rw [carried_saveC hj', hlength, hcarry.mpr hfits]

theorem carried_iff_three : ∃ ph : HanovPP Int,
    new fnv 20 (.array [[97], [98], [99, 99]]) [] = .ok ph ∧
      ∀ i : Nat, i < 3 → ∀ j : Nat, SlotTable.get ph.V j = some (i : Int) →
        (saveC ph).carried j = some (i : Int) := by
  obtain ⟨ph, hph⟩ := exists_ok_of_isOk (show (new (α := Int) fnv 20
    (.array [[97], [98], [99, 99]]) []).isOk by decide +kernel)
  exact ⟨ph, hph, (carried_iff hph).mpr (.inl (by decide))⟩

/-- The keys of one byte up to `n`. -/
def byteKeys (n : Nat) : List Bytes := (List.range n).map fun b => [UInt8.ofNat b]

/-- With 129 keys the last index comes out of the signed `char` as `-128`. -/
theorem not_carried_byteKeys : ∃ ph : HanovPP Int,
    new fnv 2 (.array (byteKeys 129)) [] = .ok ph ∧
      ∃ j : Nat, SlotTable.get ph.V j = some 128 ∧ (saveC ph).carried j = some (-128) := by
  obtain ⟨ph, hph⟩ := exists_ok_of_isOk
    (show (new (α := Int) fnv 2 (.array (byteKeys 129)) []).isOk by decide +kernel)
  obtain ⟨hlength, j, hj⟩ := exists_get_index (i := 128) hph (by decide +kernel)
  refine ⟨ph, hph, j, hj, ?_⟩
  rw [carried_saveC hj, hlength]
  decide +kernel

/-! ## The entries of `G` -/

section
variable {α : Type} {hash : Bytes → Nat → Nat} {size m : Nat} {keys : List Bytes}
  {dict : Bytes → Option α} {taken sorted rest freelist : List Nat} {t t' : Tables α}

/-- The loop over the buckets writes to the entries of its buckets only. -/
theorem getD_placeBuckets_of_notMem (hlt : ∀ b ∈ sorted, b < size) (hb : b ∉ sorted)
    (h : placeBuckets hash dict size (fillBuckets hash size keys) turns sorted t =
      .ok (rest, t')) : t'.G.getD b 0 = t.G.getD b 0 := by
  induction sorted generalizing t with
  | nil =>
    cases h
    rfl
  | cons c sorted ih =>
    obtain ⟨hbc, hb⟩ := not_or.mp (mt List.mem_cons.mpr hb)
    have hc : c < size := hlt c List.mem_cons_self
    by_cases hone : (bucket hash size keys c).length ≤ 1
    · simp only [placeBuckets, getD_fillBuckets hc, if_pos hone] at h
      cases h
      rfl
    · cases hs : searchSeed hash size t.V (bucket hash size keys c) turns ⟨1, 0, []⟩ with
      | error e =>
        simp only [placeBuckets, getD_fillBuckets hc, if_neg hone, hs] at h
        cases h
      | ok s =>
        rw [placeBuckets_place hc (by omega) hs] at h
        rw [ih (fun c hc => hlt c (List.mem_cons_of_mem _ hc)) hb h]
        simp only [List.getD_eq_getElem?_getD, List.getElem?_set_ne (Ne.symm hbc)]

/-- The loop over the buckets with one key writes to the entries of its buckets only. -/
theorem getD_placeSingles_of_notMem (hlt : ∀ b ∈ rest, b < size) (hb : b ∉ rest) :
    (placeSingles hash dict size (fillBuckets hash size keys) rest freelist t).G.getD b 0 =
      t.G.getD b 0 := by
  induction rest generalizing freelist t with
  | nil => rfl
  | cons c rest ih =>
    obtain ⟨hbc, hb⟩ := not_or.mp (mt List.mem_cons.mpr hb)
    rw [placeSingles, getD_fillBuckets (hlt c List.mem_cons_self)]
    split
    · rfl
    · rename_i k ks hk
      have hkc : hash k 0 % size = c := (mem_bucket.mp (hk ▸ List.mem_cons_self)).2
      rw [ih (fun c hc => hlt c (List.mem_cons_of_mem _ hc)) hb, hkc]
      simp only [List.getD_eq_getElem?_getD, List.getElem?_set_ne (Ne.symm hbc)]

/-- The seeds that the loop writes are at most `m` exactly if the buckets are seedable with seeds up
to `m`. -/
theorem placeBuckets_le_iff (hsize : 0 < size) (hall : ∀ k ∈ keys, (dict k).isSome)
    (hlt : ∀ b ∈ sorted, b < size) (hnd : sorted.Nodup) (hlength : t.G.length = size)
    (hunset : ∀ b ∈ sorted, t.G.getD b 0 = 0) (hV : Taken size taken t.V)
    (h : placeBuckets hash dict size (fillBuckets hash size keys) turns sorted t =
      .ok (rest, t')) :
    (∀ b ∈ sorted, t'.G.getD b 0 ≤ m) ↔ Seedable hash size keys m sorted taken := by
  induction sorted generalizing t taken with
  | nil => exact ⟨fun _ => trivial, fun _ => nofun⟩
  | cons b sorted ih =>
    have hb : b < size := hlt b List.mem_cons_self
    have hlt := fun c hc => hlt c (List.mem_cons_of_mem _ hc)
    obtain ⟨hbs, hnd⟩ := List.nodup_cons.mp hnd
    by_cases hone : (bucket hash size keys b).length ≤ 1
    · simp only [placeBuckets, getD_fillBuckets hb, if_pos hone] at h
      cases h
      refine ⟨fun _ => .inl hone, fun _ c hc => ?_⟩
      rw [hunset c hc]
      omega
    · cases hs : searchSeed hash size t.V (bucket hash size keys b) turns ⟨1, 0, []⟩ with
      | error e =>
        simp only [placeBuckets, getD_fillBuckets hb, if_neg hone, hs] at h
        cases h
      | ok s =>
        rw [placeBuckets_place hb (by omega) hs] at h
        obtain ⟨hfirst, -⟩ := searchSeed_ok .first hs
        have hhead : t'.G.getD b 0 = s.d := by
          rw [getD_placeBuckets_of_notMem hlt hbs h]
          simp [List.getD_eq_getElem?_getD, hlength, hb]
        have htail := ih
          (t := ⟨t.G.set b s.d, SlotTable.fill t.V (seats hash size keys dict s.d b)⟩) hlt hnd
          (by rw [List.length_set, hlength]) (fun c hc => ?_)
          (hV.fill hsize hall hfirst.1.1 hfirst.1.2) h
        · rw [List.forall_mem_cons, hhead, htail, Seedable, or_iff_right hone]
          simp only [isLeast_freshSeeds_iff hsize hV hfirst]
          constructor
          · rintro ⟨hle, hrest⟩
            exact ⟨s.d, ⟨rfl, by omega⟩, hrest⟩
          · rintro ⟨d, ⟨rfl, hle⟩, hrest⟩
            exact ⟨by omega, hrest⟩
        · have hne : b ≠ c := fun e => hbs (e ▸ hc)
          rw [List.getD_eq_getElem?_getD, List.getElem?_set_ne hne, ← List.getD_eq_getElem?_getD]
          exact hunset c (List.mem_cons_of_mem _ hc)

/-- No entry of finished tables is larger than `m` exactly if the buckets are seedable with seeds up
to `m`. -/
theorem tables_le_iff (hkeys : keys ≠ []) (hall : ∀ k ∈ keys, (dict k).isSome)
    (h : tables hash turns keys dict = .ok t) :
    (∀ b < keys.length, t.G.getD b 0 ≤ m) ↔
      Seedable hash keys.length keys m
        (sortBuckets keys.length (fillBuckets hash keys.length keys)) [] := by
  have hsize : 0 < keys.length := List.length_pos_iff.mpr hkeys
  have hc := tables_complete hkeys h
  obtain ⟨rest, t', hplace, ht, hp, -, hsuffix, hone⟩ := tables_placed hkeys h
  have hstart : Placed hash keys.length keys dict _ _ := .start rfl hsize
    (sortBuckets_perm keys.length (fillBuckets hash keys.length keys))
  rw [← placeBuckets_le_iff hsize hall (fun b => mem_sortBuckets.mp) (nodup_sortBuckets _ _)
    hstart.length_G hstart.unset .start hplace]
  simp only [mem_sortBuckets]
  refine forall₂_congr fun b hb => ?_
  by_cases hrest : b ∈ rest
  · -- the entry stays 0 or becomes a negative number
    have hentry := hc.entry b hb
    have hle : t.G.getD b 0 ≤ 0 := by
      rcases Nat.lt_or_ge (bucket hash keys.length keys b).length 1 with h0 | h1
      · rw [hentry.empty (by omega)]
      · exact (hentry.single (Nat.le_antisymm (hone b hrest) h1)).2.le
    rw [hp.unset b hrest]
    exact iff_of_true (by omega) (by omega)
  · rw [ht, getD_placeSingles_of_notMem (fun c hc => mem_sortBuckets.mp (hsuffix.subset hc)) hrest]

/-- The largest seed of the type of `G`. -/
def maxSeed (size : Nat) : Nat :=
  if size > 2 ^ 31 then 2 ^ 63 - 1
  else if size > 2 ^ 15 then 2 ^ 31 - 1
  else if size > 2 ^ 7 then 2 ^ 15 - 1
  else 2 ^ 7 - 1

/-- A number that is not below the direct entries fits the type of `G` if it is no larger than the
largest seed. -/
theorem sCsize_fits_iff {g : Int} (hsize : size ≤ 2 ^ 63) (hg : -(size : Int) ≤ g) :
    (sCsize size).Fits g ↔ g ≤ maxSeed size := by
  unfold sCsize maxSeed
  split_ifs <;> norm_num [IntType.Fits, long, int, short, signedChar] at * <;> omega

end

/-- The type that `save_c` gives to `G` represents all its entries exactly if every bucket of two or
more keys has its least seed within the type. -/
theorem G_fits_iff {hash : Bytes → Nat → Nat} {turns : Nat} {args : List String}
    {keys : List Bytes} {ph : HanovPP Int} (hnew : new hash turns (.array keys) args = .ok ph)
    (hlength : keys.length < 2 ^ 63) :
    (∀ g ∈ (saveC ph).G.flatten, (saveC ph).gtype.Fits g) ↔
      Seedable hash (pad keys).length (pad keys) (maxSeed (pad keys).length)
        (sortBuckets (pad keys).length (fillBuckets hash (pad keys).length (pad keys))) [] := by
  obtain ⟨keys', values, hinit, ht, -⟩ := new_ok hnew
  cases hinit
  rw [saveC, flatten_saveCArray]
  by_cases hnil : keys = []
  · have hG : ph.G = [] := by
      rw [hnil] at ht
      exact congrArg Tables.G (Except.ok.inj ht).symm
    rw [hG, hnil]
    exact iff_of_true (fun g hg => absurd hg List.not_mem_nil) trivial
  have hpad : pad keys ≠ [] := mt pad_eq_nil.mp hnil
  have hc := tables_complete hpad ht
  have hle : (pad keys).length ≤ 2 ^ 63 := (length_pad_le keys).trans hlength
  have hfits {b : Nat} (hb : b < (pad keys).length) :
      (saveC ph).gtype.Fits (ph.G.getD b 0) ↔ ph.G.getD b 0 ≤ maxSeed (pad keys).length := by
    rw [show (saveC ph).gtype = sCsize (pad keys).length from congrArg sCsize hc.length_G]
    refine sCsize_fits_iff hle ?_
    rcases Int.lt_or_le (ph.G.getD b 0) 0 with hneg | hpos
    · exact hc.neg_size_le hb hneg
    · omega
  rw [← tables_le_iff hpad (fun _ => indexHash_isSome) ht]
  constructor
  · intro h b hb
    refine (hfits hb).mp (h _ ?_)
    rw [List.getD_eq_getElem _ _ (by rwa [hc.length_G])]
    exact List.getElem_mem _
  · intro h g hg
    obtain ⟨b, hb, rfl⟩ := List.mem_iff_getElem.mp hg
    rw [← List.getD_eq_getElem _ 0 hb]
    rw [hc.length_G] at hb
    exact (hfits hb).mpr (h b hb)

theorem G_fits_iff_three : ∃ ph : HanovPP Int,
    new fnv 20 (.array [[97], [98], [99, 99]]) [] = .ok ph ∧
      Seedable fnv 3 [[97], [98], [99, 99]] 127
        (sortBuckets 3 (fillBuckets fnv 3 [[97], [98], [99, 99]])) [] := by
  have heval : (new (α := Int) fnv 20 (.array [[97], [98], [99, 99]]) []).toOption.map
      (fun ph => decide (saveC ph).Untruncated) = some true := by decide +kernel
  obtain ⟨ph, hph, hfit⟩ := exists_ok_and heval
  exact ⟨ph, hph, (G_fits_iff hph (by decide)).mp hfit.G⟩

/-- Five keys of one bucket whose least seed is 128. As a signed `char` it is read as a slot, far
outside of `V`. -/
theorem not_G_fits : ∃ ph : HanovPP Int,
    new fnv 700 (.array [[109, 116], [111, 103], [101, 105], [101, 108], [122, 119]]) [] = .ok ph ∧
      128 ∈ (saveC ph).G.flatten ∧ ¬ (saveC ph).gtype.Fits 128 ∧
      perfecthash fnv ph [109, 116] = .ok (some 0) ∧
      (saveC ph).lookup [109, 116, 0] 0 = none := by
  have heval : (new (α := Int) fnv 700
      (.array [[109, 116], [111, 103], [101, 105], [101, 108], [122, 119]]) []).toOption.map
      (fun ph => decide (128 ∈ (saveC ph).G.flatten ∧ ¬ (saveC ph).gtype.Fits 128 ∧
        perfecthash fnv ph [109, 116] = .ok (some 0) ∧
        (saveC ph).lookup [109, 116, 0] 0 = none)) = some true := by decide +kernel
  exact exists_ok_and heval

end PerfectHash.HanovPP
