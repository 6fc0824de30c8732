import PerfectHash.Pearson.Collisions

/-! # Stored keys in the generated code of the Pearson hashes

What the generated code compares without `-nul`, and where it finds a key when no number is cut by
the C type in which it is stored (`Built.run_key`). The counts in `Cs` get a type for their size,
the indices in `Cv` and the offsets of the pool are of type `int`, however many keys there are. -/

namespace PerfectHash.Pearson

open CValues C
open HanovPP (at? at?_natCast)

/-- No number is cut by the type in which it is stored. -/
structure CFile.Untruncated (c : CFile) : Prop where
  Cs : ∀ a ∈ c.collisions, ∀ n ∈ a.Cs, a.ctype.Fits n
  Cv : ∀ a ∈ c.collisions, ∀ cv ∈ a.Cv, ∀ v ∈ cv.getD [], int.Fits v
  keys : ∀ t ∈ c.keys, ∀ o ∈ t.offsets, int.Fits o

instance (c : CFile) : Decidable c.Untruncated :=
  decidable_of_iff ((∀ a ∈ c.collisions, ∀ n ∈ a.Cs, a.ctype.Fits n) ∧
      (∀ a ∈ c.collisions, ∀ cv ∈ a.Cv, ∀ v ∈ cv.getD [], int.Fits v) ∧
      ∀ t ∈ c.keys, ∀ o ∈ t.offsets, int.Fits o)
    ⟨fun h => ⟨h.1, h.2.1, h.2.2⟩, fun h => ⟨h.Cs, h.Cv, h.keys⟩⟩

variable {variant : Variant} {ph : Pearson Int} {c : CFile} {s k : Bytes} {l : Int} {h i : Nat}
  {P : List (Bytes × Option Int)} {C : List (Option (Colliding Int))} {keys : List Bytes}
  {values : List (Option Int)} {options : Options}

/-! ## Comparing without `-nul` -/

theorem minLen_of_notMem (hk : 0 ∉ k) (l : Int) :
    minLen l k = some (min (unsignedLong.conv l).toNat k.length) := by
  rw [minLen, strlen_append hk]
  rfl

theorem minLen_eq (hk : 0 ∉ k) (hs : s.length < 2 ^ 64) :
    minLen s.length k = some (min s.length k.length) := by
  rw [minLen_of_notMem hk, unsignedLong_conv_natCast hs, Int.toNat_natCast]

theorem same_eq (hnul : c.nul = false) (hk : 0 ∉ k) (hs : 0 ∉ s) (hlen : s.length < 2 ^ 64)
    (rest : Bytes) : c.same (s ++ 0 :: rest) s.length k = some (k == s) := by
  have hsame : c.sameLen s.length k = some (1 + min s.length k.length) := by
    rw [CFile.sameLen, hnul, if_neg (by decide), minLen_eq hk hlen]
    rfl
  rw [CFile.same, hsame]
  exact memcmpEq_succ_min hk hs rest

/-- The check of a key that is a literal, for a string that an `int` can count. -/
theorem check_strings {j : Int} (hkeys : c.keys = some (.strings keys)) (hnul : c.nul = false)
    (hfree : ∀ k ∈ keys, 0 ∉ k) (hne : s ≠ []) (hlen : s.length < 2 ^ 64) (rest : Bytes) :
    c.check (s ++ 0 :: rest) s.length j =
      (at? keys j).map fun k => if k <+: s ∨ s <+: k then j else -1 := by
  have hl : ¬ (s.length : Int) = 0 := by
    have := List.length_pos_iff.mpr hne
    omega
  rw [CFile.check, hkeys]
  dsimp only
  rw [if_neg hl]
  cases hk : at? keys j with
  | none => rfl
  | some k =>
    have hmem : k ∈ keys := by
      unfold at? at hk
      split at hk
      · exact List.mem_of_getElem? hk
      · cases hk
    have hcheck : c.checkLen s.length k = some (min s.length k.length) := by
      rw [CFile.checkLen, hnul, if_neg (by decide), minLen_eq (hfree k hmem) hlen]
    simp only [Option.bind_eq_bind, Option.bind_some, hcheck, memcmpEq_min, Option.map_some]
    by_cases hp : k <+: s ∨ s <+: k
    · rw [decide_eq_true hp, if_pos rfl, if_pos hp]
      rfl
    · rw [decide_eq_false hp, if_neg (by decide), if_neg hp]
      rfl

/-- The check of a key that is in the pool, for a string that an `int` can count. -/
theorem check_pool {contents : Bytes} {offsets : List Nat} {b : UInt8} {j : Int}
    (hkeys : c.keys = some (.pool contents offsets)) (hlen : (b :: s).length < 2 ^ 31)
    (rest : Bytes) :
    c.check (b :: s ++ rest) (b :: s).length j = (at? offsets j).bind fun o =>
      if int.conv o < 0 then some j
      else (contents.drop (int.conv o).toNat)[0]?.bind fun a =>
        if a ≠ b then some (-1)
        else if (b :: s).length ≤ (contents.drop (int.conv o).toNat).length then
          some (if b :: s <+: contents.drop (int.conv o).toNat then j else -1)
        else none := by
  have hl : ¬ ((b :: s).length : Int) = 0 := by
    rw [List.length_cons]
    omega
  have hpred : ((b :: s).length : Int) - 1 = s.length := by
    rw [List.length_cons]
    omega
  rw [List.length_cons] at hlen
  have harith : int.arith s.length = some (s.length : Int) :=
    IntType.arith_of_fits (int_fits_natCast (by omega))
  have hn : unsignedLong.conv s.length = s.length := unsignedLong_conv_natCast (by omega)
  rw [check_pool_eq hkeys, if_neg hl]
  cases at? offsets j with
  | none => rw [Option.bind_none, Option.bind_none]
  | some o =>
    rw [Option.bind_some, Option.bind_some]
    refine if_congr Iff.rfl rfl ?_
    generalize contents.drop (int.conv o).toNat = st
    cases st with
    | nil => rw [List.getElem?_nil, Option.bind_none, Option.bind_none]
    | cons a st =>
      rw [List.getElem?_cons_zero, List.cons_append, List.getElem?_cons_zero, Option.bind_some,
        Option.bind_some, Option.bind_some]
      by_cases hab : a ≠ b
      · rw [if_pos hab, if_pos hab]
      · rw [if_neg hab, if_neg hab]
        obtain rfl := not_not.mp hab
        rw [hpred, harith, Option.bind_some, hn, Int.toNat_natCast, List.drop_succ_cons,
          List.drop_zero, List.drop_succ_cons, List.drop_zero, memcmpEq_prefix]
        by_cases hst : s.length ≤ st.length
        · have hst' : (a :: s).length ≤ (a :: st).length := Nat.succ_le_succ hst
          rw [if_pos hst, if_pos hst', Option.bind_some]
          by_cases hp : s <+: st
          · simp [hp]
          · simp [hp]
        · have hst' : ¬ (a :: s).length ≤ (a :: st).length := mt Nat.le_of_succ_le_succ hst
          rw [if_neg hst, if_neg hst', Option.bind_none]

/-! ## What is stored -/

theorem saveC_collisions (hb : Built variant keys values options ph) (hC : ph.C = some C) :
    (saveC variant ph).collisions = some {
      Ck := C.map collKeys
      Cv := C.map collValues
      ctype := uCsize (maxcoll C)
      Cs := C.map count } := by
  rw [saveC_collisions_eq, hC, Option.getD_some, if_pos (hb.any hC)]

theorem mem_collValues {v : Int} (h : (k, some v) ∈ P) :
    ∃ cv, collValues (gather P) = some cv ∧ v ∈ cv := by
  match P with
  | [p] =>
    obtain rfl := List.mem_singleton.mp h
    exact ⟨[v], rfl, List.mem_singleton_self v⟩
  | p :: q :: P =>
    refine ⟨_, rfl, ?_⟩
    rw [flatten_saveCArray]
    exact List.mem_map.mpr ⟨_, h, rfl⟩

theorem number_of_mem_collValues {v : Int} (h : v ∈ (collValues (gather P)).getD []) :
    ∃ p ∈ P, Scalar.number p.2 = v := by
  match P with
  | [p] =>
    obtain hv := Option.mem_toList.mp h
    exact ⟨p, List.mem_singleton_self p, by rw [hv]; rfl⟩
  | p :: q :: P =>
    change v ∈ (saveCArray ((p :: q :: P).map fun p => Scalar.number p.2)).flatten at h
    rw [flatten_saveCArray] at h
    exact List.mem_map.mp h

theorem saveC_keys (hb : Built variant keys values options ph) : (saveC variant ph).keys =
    if options.has "-false-positives" then none
    else if options.has "-pic" then
      some (.pool (poolContents keys) ((List.range keys.length).map (poolOffset keys)))
    else some (.strings keys) := by
  have hkeys : (saveC variant ph).keys = if ph.options.has "-false-positives" then none
      else if ph.options.has "-pic" then some (.pool (poolContents (ph.keys.getD []))
        ((List.range (ph.keys.getD []).length).map (poolOffset (ph.keys.getD []))))
      else some (.strings (saveCArray (ph.keys.getD [])).flatten) := rfl
  rw [hkeys, hb.options_eq, hb.keys_eq]
  split
  · rfl
  · rw [Option.getD_some, flatten_saveCArray]

section
variable (hb : Built variant keys values options ph) (hC : ph.C.isSome)
include hb hC

/-- The values of all keys are in `Cv`. -/
theorem Built.value_fits (hCv : ∀ a ∈ (saveC variant ph).collisions, ∀ cv ∈ a.Cv,
    ∀ v ∈ cv.getD [], int.Fits v) {v : Int} (h : (k, some v) ∈ keyValues ph.size keys values) :
    int.Fits v := by
  obtain ⟨C, hC'⟩ := Option.isSome_iff_exists.mp hC
  have hslot := slot_lt (H := ph.H) (hb.pos hC) k
  have hmem : (k, some v) ∈ inSlot ph keys values (slot ph.size ph.H k) := mem_inSlot.mpr ⟨h, rfl⟩
  obtain ⟨cv, hcv, hv⟩ := mem_collValues hmem
  rw [← hb.list_eq hC hslot] at hcv
  refine hCv _ (saveC_collisions hb hC') (some cv) ?_ v hv
  exact List.mem_map.mpr ⟨_, List.mem_of_getElem? (hb.getElem?_C hC' hslot), hcv⟩

/-- All pairs of a slot are compared. -/
theorem Built.scanned_eq
    (hCs : ∀ a ∈ (saveC variant ph).collisions, ∀ n ∈ a.Cs, a.ctype.Fits n) (hh : h < ph.size) :
    scanned ph h =
      if (inSlot ph keys values h).length > 1 then inSlot ph keys values h else [] := by
  obtain ⟨C, hC'⟩ := Option.isSome_iff_exists.mp hC
  have hcount : (uCsize (maxcoll C)).Fits (count (list ph h)) := by
    refine hCs _ (saveC_collisions hb hC') _ ?_
    exact List.mem_map.mpr ⟨_, List.mem_of_getElem? (hb.getElem?_C hC' hh), rfl⟩
  rw [scanned, hC', Option.getD_some]
  rw [hb.list_eq hC hh] at hcount ⊢
  rw [count_gather] at hcount
  generalize inSlot ph keys values h = L at hcount
  rcases L with _ | ⟨p, _ | ⟨q, L⟩⟩
  · rfl
  · rfl
  · dsimp only [gather]
    rw [IntType.conv_of_fits hcount]
    simp only [List.length_cons]
    rw [if_pos (by omega), if_pos (by omega)]

end

/-- The generated code reads the offset of a key. -/
theorem at?_offsets {contents : Bytes} (hkeys : c.keys = some (.pool contents
    ((List.range keys.length).map (poolOffset keys)))) (hfit : c.Untruncated)
    (hi : keys[i]? = some k) :
    at? ((List.range keys.length).map (poolOffset keys)) (i : Int) = some (poolOffset keys i) ∧
      int.conv (poolOffset keys i) = poolOffset keys i := by
  have hrange : ((List.range keys.length).map (poolOffset keys))[i]? =
      some (poolOffset keys i) := by
    rw [List.getElem?_map, List.getElem?_range (List.getElem?_eq_some_iff.mp hi).1]
    rfl
  exact ⟨by rw [at?_natCast, hrange],
    IntType.conv_of_fits (hfit.keys _ hkeys _ (List.mem_of_getElem? hrange))⟩

/-- The check of the key lets the index of the string pass. -/
theorem check_saveC (hb : Built variant keys values options ph)
    (hfit : (saveC variant ph).Untruncated) (hnul : options.has "-nul" = false)
    (hfree : ∀ k ∈ keys, 0 ∉ k) (hi : keys[i]? = some s) (hne : s ≠ [])
    (hlen : s.length < 2 ^ 31) (rest : Bytes) :
    (saveC variant ph).check (s ++ 0 :: rest) s.length i = some (i : Int) := by
  have hkeys := saveC_keys hb
  have hcnul := hb.nul_eq.trans hnul
  by_cases hfp : options.has "-false-positives"
  · rw [if_pos hfp] at hkeys
    rw [CFile.check, hkeys]
  · rw [if_neg hfp] at hkeys
    by_cases hpic : options.has "-pic"
    · rw [if_pos hpic] at hkeys
      obtain ⟨hat, hconv⟩ := at?_offsets hkeys hfit hi
      obtain ⟨more, hmore⟩ := exists_drop_poolOffset hi
      obtain ⟨b, s, rfl⟩ := List.exists_cons_of_ne_nil hne
      have hnonneg : ¬ (poolOffset keys i : Int) < 0 := by omega
      rw [check_pool hkeys hlen, hat, Option.bind_some, hconv, if_neg hnonneg,
        Int.toNat_natCast, hmore]
      simp
    · rw [if_neg hpic] at hkeys
      rw [check_strings hkeys hcnul hfree hne (by omega), at?_natCast, hi, Option.map_some,
        if_pos (.inl (List.prefix_refl s))]

/-! ## A run on a key -/

/-- Where every index fits an `int` there are at most 2^31 keys. -/
theorem Built.length_le (hb : Built variant keys [] options ph) (hC : ph.C.isSome)
    (hfit : (saveC variant ph).Untruncated) : keys.length ≤ 2 ^ 31 := by
  have hpos : 0 < keys.length := hb.size ▸ hb.pos hC
  obtain ⟨k, hk⟩ : ∃ k, keys[keys.length - 1]? = some k :=
    ⟨_, List.getElem?_eq_getElem (by omega)⟩
  have hfits := hb.value_fits hC hfit.Cv ((mem_keyValues_nil hb.size.ge).mpr ⟨_, hk, rfl⟩)
  have hlt := hfits.2
  norm_num [int] at hlt
  omega

section
variable (hb : Built variant keys [] options ph) (hnul : options.has "-nul" = false)
  (hfree : ∀ k ∈ keys, 0 ∉ k) (hi : keys[i]? = some s)
include hb hi

theorem Built.mem_inSlot_self : (s, some (i : Int)) ∈ inSlot ph keys [] (slot ph.size ph.H s) :=
  mem_inSlot.mpr ⟨(mem_keyValues_nil hb.size.ge).mpr ⟨i, hi, rfl⟩, rfl⟩

include hnul hfree

/-- In the slot of a key its own pair is the only one that is found the same. -/
theorem Built.same_inSlot (honly : ∀ j, keys[j]? = some s → j = i) (hlen : s.length < 2 ^ 31)
    (rest : Bytes) : ∀ q ∈ inSlot ph keys [] (slot ph.size ph.H s),
      (saveC variant ph).same (s ++ 0 :: rest) s.length q.1 = some (q.1 == s) ∧
        (q.1 = s → q.2 = some (i : Int)) := by
  rintro ⟨k, v⟩ hq
  obtain ⟨j, hj, rfl⟩ := (mem_keyValues_nil hb.size.ge).mp (mem_inSlot.mp hq).1
  refine ⟨same_eq ?_ (hfree k (List.mem_of_getElem? hj)) (hfree s (List.mem_of_getElem? hi))
    (by omega) rest, fun h => by rw [honly j (h ▸ hj)]⟩
  rw [← hnul, ← hb.options_eq]
  rfl

/-- The lookup of a key finds its pair in the list of its slot, or takes the only value there. -/
theorem Built.run_key (hC : ph.C.isSome) (hfit : (saveC variant ph).Untruncated)
    (honly : ∀ j, keys[j]? = some s → j = i) (hne : s ≠ []) (hlen : s.length < 2 ^ 31)
    (rest : Bytes) : (saveC variant ph).run (s ++ 0 :: rest) s.length = some (i : Int) := by
  have hn := hb.length_le hC hfit
  have hslot := slot_lt (H := ph.H) (hb.pos hC) s
  have hmem := hb.mem_inSlot_self hi
  have hconv : int.conv i = i :=
    IntType.conv_of_fits (hb.value_fits hC hfit.Cv (mem_inSlot.mp hmem).1)
  have hlist := hb.list_eq hC hslot
  have hcount := hb.count_le hC hslot
  rw [hlist, count_gather] at hcount
  have hsame := hb.same_inSlot hnul hfree hi honly hlen rest
  rw [hb.run_string hnul (by omega) (hb.pos hC) (hfree s (List.mem_of_getElem? hi)), next, hlist,
    hb.scanned_eq hC hfit.Cs hslot]
  generalize inSlot ph keys [] (slot ph.size ph.H s) = L at hmem hcount hsame
  rcases L with _ | ⟨p, _ | ⟨q, L⟩⟩
  · cases hmem
  · obtain rfl := List.mem_singleton.mp hmem
    rw [if_neg (by simp), scanPairs_nil, Option.bind_some]
    change ((some (i : Int)).map int.conv).bind ((saveC variant ph).check _ _) = _
    rw [Option.map_some, hconv, Option.bind_some]
    exact check_saveC hb hfit hnul hfree hi hne hlen rest
  · obtain ⟨A, B, hL, hA⟩ := List.eq_append_cons_of_mem hmem
    have hscan : (saveC variant ph).scanPairs (s ++ 0 :: rest) s.length (p :: q :: L) =
        some (some (i : Int)) := by
      rw [scanPairs_eq_some_iff]
      refine ⟨A, _, B, hL, ?_, fun r hr => ?_, ?_, hconv⟩
      · have hlt := congrArg List.length hL
        simp only [List.length_append, List.length_cons] at hlt hcount
        omega
      · obtain ⟨hr', hvalue⟩ := hsame r (hL ▸ List.mem_append_left _ hr)
        rw [hr', beq_eq_false_iff_ne.mpr]
        intro h
        obtain rfl : r = (s, some (i : Int)) := Prod.ext h (hvalue h)
        exact hA hr
      · rw [(hsame _ hmem).1, beq_self_eq_true]
    rw [if_pos (by simp), hscan]
    rfl

end

/-- The object that three keys get when the table stays as it starts; two of them share slot 1. -/
def three (options : Options) : Pearson Int where
  size := 3
  H := List.range 256
  C := some [none, some (.pairs [([97], some 0), ([100], some 1)]), some (.value (some 2))]
  options
  keys := if options.has "-false-positives" then none else some [[97], [100], [98]]

deriving instance DecidableEq for Colliding

theorem new_three (inTime : Nat → Bool) (args : List String) :
    Variant.pearson.new (fun _ _ => 0) inTime (.array [[97], [100], [98]]) args =
      .ok (some (three (withMaxTime (handleOpts args)))) := by
  have hvariant : Variant.pearson ≠ .pearson8 := nofun
  have hC : collisions 3 (List.range 256) [[97], [100], [98]] [] = .ok [none,
      some (.pairs [([97], some (0 : Int)), ([100], some 1)]), some (.value (some 2))] := by
    decide +kernel
  exact new_zero hvariant (by decide) (by decide) hC (by decide +kernel)

/-- Without `-nul` the length of the string is counted. -/
theorem lookup_of_notMem (hnul : ph.options.has "-nul" = false) (hs : 0 ∉ s) (rest : Bytes)
    (n : Nat) : (saveC variant ph).lookup (s ++ 0 :: rest) n =
      (saveC variant ph).run (s ++ 0 :: rest) (int.conv s.length) := by
  rw [CFile.lookup, show (saveC variant ph).nul = false from hnul, if_neg (by decide),
    strlen_append hs]
  rfl

theorem lookup_eq_run (hnul : ph.options.has "-nul" = false) (hs : 0 ∉ s)
    (hlen : s.length < 2 ^ 31) (rest : Bytes) (n : Nat) :
    (saveC variant ph).lookup (s ++ 0 :: rest) n =
      (saveC variant ph).run (s ++ 0 :: rest) s.length := by
  rw [lookup_of_notMem hnul hs, int_conv_natCast hlen]

end PerfectHash.Pearson
