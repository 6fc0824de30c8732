import PerfectHash.Pearson.Stored
import Mathlib.Algebra.Order.BigOperators.Group.List
import Mathlib.Data.Nat.Digits.Lemmas

/-! # Truncated numbers and the lookup of a key

Where no number is cut by the C type in which it is stored, the generated lookup returns the index
of every key (`lookup_eq_index`). The counts alone do not suffice: an index in `Cv` or an offset of
the pool can be cut where all counts fit. -/

namespace PerfectHash.Pearson

open CValues C
open HanovPP (at? at?_natCast)

variable {variant : Variant} {ph : Pearson Int} {s k : Bytes} {h i : Nat}
  {C : List (Option (Colliding Int))} {keys : List Bytes} {values : List (Option Int)}
  {options : Options}

/-! ## Numbers that are cut -/

/-- The longest list decides the type of the counts. -/
theorem Built.fits_Cs (hb : Built variant keys values options ph) (hC : ph.C = some C)
    (hfits : ∀ n ≤ keys.length, (uCsize (maxcoll C)).Fits n) :
    ∀ a ∈ (saveC variant ph).collisions, ∀ n ∈ a.Cs, a.ctype.Fits n := by
  intro a ha n hn
  obtain rfl := Option.some.inj ((saveC_collisions hb hC).symm.trans ha)
  obtain ⟨coll, hcoll, rfl⟩ := List.mem_map.mp hn
  obtain ⟨h, hh, rfl⟩ := hb.exists_of_mem hC hcoll
  exact hfits _ (hb.count_le (by rw [hC]; rfl) hh)

/-- The indices of up to 2^31 keys fit. -/
theorem Built.fits_Cv (hb : Built variant keys [] options ph) (hC : ph.C.isSome)
    (hle : keys.length ≤ 2 ^ 31) :
    ∀ a ∈ (saveC variant ph).collisions, ∀ cv ∈ a.Cv, ∀ v ∈ cv.getD [], int.Fits v := by
  intro a ha cv hcv v hv
  obtain ⟨C, hC'⟩ := Option.isSome_iff_exists.mp hC
  obtain rfl := Option.some.inj ((saveC_collisions hb hC').symm.trans ha)
  obtain ⟨coll, hcoll, rfl⟩ := List.mem_map.mp hcv
  obtain ⟨h, hh, rfl⟩ := hb.exists_of_mem hC' hcoll
  rw [hb.list_eq hC hh] at hv
  obtain ⟨⟨k, w⟩, hp, rfl⟩ := number_of_mem_collValues hv
  obtain ⟨i, hi, rfl⟩ := (mem_keyValues_nil hb.size.ge).mp (mem_inSlot.mp hp).1
  have hi := (List.getElem?_eq_some_iff.mp hi).1
  exact int_fits_natCast (n := i) (by omega)

/-- With zeros for the random numbers the table stays as it starts. -/
theorem exists_newNP (args : List String) (hne : pad keys ≠ []) : ∃ ph : Pearson Int,
    Variant.pearsonNP.new (fun _ _ => 0) (fun _ => true) (.array keys) args = .ok (some ph) ∧
      Built .pearsonNP (pad keys) [] (withMaxTime (handleOpts args)) ph ∧
      ph.H = List.range 256 := by
  have hvariant : Variant.pearsonNP ≠ .pearson8 := fun h => by cases h
  have hinit : dictInit (.array keys) = .ok (pad keys, ([] : List (Option Int))) := rfl
  obtain ⟨ph, hph⟩ := build_returns (fun _ => 30) (fun _ _ => 0) (fun _ => true) args hinit hne
    fun _ => Nat.succ_pos 255
  have hnew : Variant.pearsonNP.new (fun _ _ => 0) (fun _ => true) (.array keys) args =
      .ok (some ph) := by
    rw [Variant.new, PearsonNP.new, hph]
    rfl
  exact ⟨ph, hnew, built_of_new hvariant hnew hinit, H_of_build_zero hph hinit⟩

/-- With `-false-positives` a lookup of a key that returns gives the index as an `int`. -/
theorem Built.eq_conv_of_run {x : Int} (hb : Built variant keys [] options ph)
    (hnul : options.has "-nul" = false) (hfp : options.has "-false-positives")
    (hfree : ∀ k ∈ keys, 0 ∉ k) (hi : keys[i]? = some s) (honly : ∀ j, keys[j]? = some s → j = i)
    (hlt : keys.length < 2 ^ 63) (hC : ph.C.isSome)
    (hCs : ∀ a ∈ (saveC variant ph).collisions, ∀ n ∈ a.Cs, a.ctype.Fits n)
    (hlen : s.length < 2 ^ 31) {rest : Bytes}
    (hrun : (saveC variant ph).run (s ++ 0 :: rest) s.length = some x) : x = int.conv i := by
  have hslot := slot_lt (H := ph.H) (hb.pos hC) s
  have hmem := hb.mem_inSlot_self hi
  have hsame := hb.same_inSlot hnul hfree hi honly hlen rest
  have hkeys : (saveC variant ph).keys = none := by
    rw [saveC_keys hb, if_pos hfp]
  rw [hb.run_string hnul hlt (hb.pos hC) (hfree s (List.mem_of_getElem? hi)), next,
    hb.list_eq hC hslot, hb.scanned_eq hC hCs hslot] at hrun
  generalize inSlot ph keys [] (slot ph.size ph.H s) = L at hmem hsame hrun
  rcases L with _ | ⟨p, _ | ⟨q, L⟩⟩
  · cases hmem
  · obtain rfl := List.mem_singleton.mp hmem
    rw [if_neg (by simp), scanPairs_nil, Option.bind_some] at hrun
    change ((some (i : Int)).map int.conv).bind ((saveC variant ph).check _ _) = _ at hrun
    rw [Option.map_some, Option.bind_some, CFile.check, hkeys] at hrun
    exact (Option.some.inj hrun).symm
  · rw [if_pos (by simp)] at hrun
    obtain ⟨r, hr, hrun⟩ := Option.bind_eq_some_iff.mp hrun
    cases r with
    | none =>
      have hself := (scanPairs_eq_none_iff.mp hr).1 _ hmem
      rw [(hsame _ hmem).1, beq_self_eq_true] at hself
      cases hself
    | some v =>
      obtain rfl := Option.some.inj hrun
      obtain ⟨A, p', B, hL, -, -, hp, rfl⟩ := scanPairs_eq_some_iff.mp hr
      obtain ⟨hp', hvalue⟩ := hsame p' (hL ▸ List.mem_append_right _ List.mem_cons_self)
      rw [hp', Option.some_inj, beq_iff_eq] at hp
      rw [hvalue hp]
      rfl

/-- The key with number `i`: its binary digits as bytes 1 and 2. -/
def numeral (i : Nat) : Bytes := (Nat.digits 2 i).map fun d => UInt8.ofNat (d + 1)

theorem toNat_digit {d : Nat} (hd : d ∈ Nat.digits 2 i) : (UInt8.ofNat (d + 1)).toNat = d + 1 := by
  have := Nat.digits_lt_base (by decide) hd
  rw [UInt8.toNat_ofNat']
  omega

theorem numeral_injective : Function.Injective numeral := by
  have hleft (i : Nat) : (numeral i).map (fun b => b.toNat - 1) = Nat.digits 2 i := by
    rw [numeral, List.map_map]
    refine (List.map_congr_left fun d hd => ?_).trans (List.map_id _)
    rw [Function.comp_apply, toNat_digit hd]
    rfl
  intro i j h
  have hdigits := congrArg (fun s : Bytes => s.map fun b => b.toNat - 1) h
  rw [hleft, hleft] at hdigits
  exact Nat.digits_inj_iff.mp hdigits

theorem zero_notMem_numeral : 0 ∉ numeral i := by
  intro h
  obtain ⟨d, hd, h⟩ := List.mem_map.mp h
  have := toNat_digit hd
  rw [h] at this
  cases this

theorem getElem?_numerals {n : Nat} (hi : i < n) :
    ((List.range n).map numeral)[i]? = some (numeral i) := by
  rw [List.getElem?_map, List.getElem?_range hi, Option.map_some]

theorem Built.slot_lt_length (hb : Built variant keys values options ph)
    (hH : ph.H.length = 256) (k : Bytes) : slot ph.size ph.H k < 256 := by
  have hlt := walk_lt hb.table (List.length_pos_iff.mpr hb.table.ne_nil) k
  rw [hH] at hlt
  exact (Nat.mod_le _ _).trans_lt hlt

/-- With 256 entries in the table and more than 2^24 keys, the longest list has more than 2^16
pairs. -/
theorem Built.lt_maxcoll (hb : Built variant keys values options ph) (hC : ph.C = some C)
    (hH : ph.H.length = 256) (hlength : 2 ^ 24 < keys.length) : 2 ^ 16 < maxcoll C := by
  have hsome : ph.C.isSome := by rw [hC]; rfl
  have hslot : ∀ k ∈ keys, slot ph.size ph.H k < 256 := fun k _ => hb.slot_lt_length hH k
  by_contra hle
  have hcount : ∀ n ∈ (List.range 256).map fun b =>
      (keys.filter fun k => slot ph.size ph.H k = b).length, n ≤ 2 ^ 16 := by
    intro n hn
    obtain ⟨b, hb', rfl⟩ := List.mem_map.mp hn
    have hb' : b < ph.size := by
      rw [hb.size]
      exact (List.mem_range.mp hb').trans (by omega)
    have hmem := List.mem_of_getElem? (hb.getElem?_C hC hb')
    have hlen : count (list ph b) = (keys.filter fun k => slot ph.size ph.H k = b).length := by
      rw [hb.list_eq hsome hb', count_gather, length_inSlot, List.count_eq_countP,
        List.countP_map, List.countP_eq_length_filter]
      congr 2
    rw [← hlen]
    rcases Nat.lt_or_ge 1 (count (list ph b)) with h1 | h1
    · exact (count_le_maxcoll hmem h1).trans (not_lt.mp hle)
    · omega
  have hsum := List.sum_le_card_nsmul _ _ hcount
  rw [Buckets.sum_length_filter hslot, List.length_map, List.length_range, Nat.nsmul_eq_mul] at hsum
  omega

/-- Among so many keys that an index exceeds an `int`, the key of such an index is not found, while
all counts fit. -/
theorem exists_cut_index {n i : Nat} (hn : n < 2 ^ 32) (hpad : n % 8 ≠ 0) (hi : i < n)
    (hcut : 2 ^ 31 ≤ i) : ∃ ph : Pearson Int,
    Variant.pearsonNP.new (fun _ _ => 0) (fun _ => true) (.array ((List.range n).map numeral))
        ["-false-positives"] = .ok (some ph) ∧
      ph.C.isSome ∧
      (∀ a ∈ (saveC .pearsonNP ph).collisions, ∀ n ∈ a.Cs, a.ctype.Fits n) ∧
      (saveC .pearsonNP ph).lookup (numeral i ++ 0 :: []) 0 ≠ some (i : Int) := by
  set keys := (List.range n).map numeral with hkeys
  have hlength : keys.length = n := by rw [hkeys, List.length_map, List.length_range]
  have hnd : keys.Nodup := List.nodup_range.map numeral_injective
  have hget : keys[i]? = some (numeral i) := getElem?_numerals hi
  have hfree : ∀ k ∈ keys, 0 ∉ k := fun k hk => by
    obtain ⟨j, -, rfl⟩ := List.mem_map.mp hk
    exact zero_notMem_numeral
  have hpadded : pad keys = keys := if_neg fun h => by
    have := (endsIn000_iff.mp h).1
    omega
  have hne : pad keys ≠ [] := by
    rw [hpadded]
    exact List.ne_nil_of_length_pos (by omega)
  obtain ⟨ph, hnew, hb, hH⟩ := exists_newNP ["-false-positives"] hne
  rw [hpadded] at hb
  have hH : ph.H.length = 256 := by rw [hH, List.length_range]
  have hslot (k : Bytes) : slot ph.size ph.H k < 256 := hb.slot_lt_length hH k
  -- more keys than entries in the table, so two of them share a slot
  have hC : ph.C.isSome := by
    rw [hb.shared]
    intro hinj
    have hsub : keys.map (slot ph.size ph.H) ⊆ List.range 256 := fun h hh => by
      obtain ⟨k, -, rfl⟩ := List.mem_map.mp hh
      exact List.mem_range.mpr (hslot k)
    have hle := (hinj.subperm hsub).length_le
    rw [List.length_map, List.length_range] at hle
    omega
  have hCs : ∀ a ∈ (saveC .pearsonNP ph).collisions, ∀ n ∈ a.Cs, a.ctype.Fits n := by
    obtain ⟨C, hC'⟩ := Option.isSome_iff_exists.mp hC
    have hmax := hb.lt_maxcoll hC' hH (by omega)
    have hmax' : maxcoll C ≤ n := maxcoll_le fun coll hcoll => by
      obtain ⟨h, hh, rfl⟩ := hb.exists_of_mem hC' hcoll
      exact (hb.count_le hC hh).trans_eq hlength
    refine hb.fits_Cs hC' fun m hm => ?_
    rw [uCsize, if_neg (by omega), if_pos (by omega)]
    exact ⟨by omega, by norm_num [unsignedInt]; omega⟩
  refine ⟨ph, hnew, hC, hCs, fun hlookup => ?_⟩
  have hlen : (numeral i).length < 2 ^ 31 := by
    have := (Nat.digits_length_le_iff (by decide) i).mpr (hi.trans hn)
    rw [numeral, List.length_map]
    omega
  have hnul : (withMaxTime (handleOpts ["-false-positives"])).has "-nul" = false := by decide
  rw [lookup_eq_run (hb.options_eq ▸ hnul) zero_notMem_numeral hlen] at hlookup
  have honly (j : Nat) (hj : keys[j]? = some (numeral i)) : j = i :=
    (List.getElem?_inj (List.getElem?_eq_some_iff.mp hj).1 hnd).mp (hj.trans hget.symm)
  have hconv := hb.eq_conv_of_run hnul (by decide) hfree hget honly (by omega) hC hCs hlen hlookup
  have hlt := int_conv_lt i
  omega

theorem walk_range (hd : h < 256) (s : Bytes) :
    walk (List.range 256) h s = s.foldl (fun d c => d ^^^ c.toNat) h := by
  induction s generalizing h with
  | nil => simp only [walk, List.foldl_nil]
  | cons b s ih =>
    have hlt : h ^^^ b.toNat < 256 := Nat.xor_lt_two_pow (n := 8) hd b.toNat_lt
    have hindex : index (List.range 256) h b = h ^^^ b.toNat := if_pos List.length_range
    rw [walk_cons, hindex, List.getD_eq_getElem _ _ (by rwa [List.length_range]),
      List.getElem_range, ih hlt]
    rfl

/-- A key of `m + 1` bytes. -/
def long (m : Nat) (c : UInt8) : Bytes := List.replicate m 97 ++ [c]

theorem long_succ (m : Nat) (c : UInt8) : long (m + 1) c = 97 :: long m c := rfl

theorem long_injective (m : Nat) : Function.Injective (long m) := fun a b h => by
  simpa [long] using h

theorem length_long (m : Nat) (c : UInt8) : (long m c).length = m + 1 := by
  rw [long, List.length_append, List.length_replicate, List.length_singleton]

/-- The equal bytes of the key cancel out. -/
theorem walk_long (j : Nat) (c : UInt8) : walk (List.range 256) 0 (long (2 * j) c) = c.toNat := by
  have hpairs : (List.replicate (2 * j) (97 : UInt8)).foldl (fun d c => d ^^^ c.toNat) 0 = 0 := by
    induction j with
    | zero => rfl
    | succ j ih =>
      rw [Nat.mul_succ, List.replicate_succ, List.replicate_succ, List.foldl_cons, List.foldl_cons]
      exact ih
  rw [walk_range (by decide), long, List.foldl_append, hpairs, List.foldl_cons, List.foldl_nil,
    Nat.zero_xor]

/-- Five keys of one length, which go to the slots 2, 2, 3, 4 and 1. -/
def fiveLong (m : Nat) : List Bytes := [long m 2, long m 7, long m 3, long m 4, long m 1]

theorem nodup_fiveLong (m : Nat) : (fiveLong m).Nodup :=
  List.Nodup.map (long_injective m) (show [2, 7, 3, 4, 1].Nodup by decide)

theorem length_of_mem_fiveLong {m : Nat} (hk : k ∈ fiveLong m) : k.length = m + 1 := by
  obtain ⟨c, -, rfl⟩ := List.mem_map.mp (show k ∈ [2, 7, 3, 4, 1].map (long m) from hk)
  exact length_long m c

theorem zero_notMem_of_mem_fiveLong {m : Nat} (hk : k ∈ fiveLong m) : 0 ∉ k := by
  revert k
  simp [fiveLong, long]

/-- Strings of one length, other than 15, 7 and 3, stay in their order. -/
theorem poolOrder_eq {G : List Bytes} {n : Nat} (hG : ∀ k ∈ G, k.length = n) (hn : 15 < n) :
    poolOrder G = List.range G.length := by
  have hlength (i : Nat) (hi : i ∈ List.range G.length) : (G.getD i []).length = n :=
    hG _ (List.mem_of_getElem? (getElem?_eq_getD (List.mem_range.mp hi) []))
  have hsort : sortOn (fun i => (G.getD i []).length) (List.range G.length) =
      List.range G.length := by
    refine List.Pairwise.insertionSort_eq (List.pairwise_of_forall_mem_list fun i hi j hj => ?_)
    change (G.getD i []).length ≤ (G.getD j []).length
    rw [hlength i hi, hlength j hj]
  have hL : ([15, 7, 3].flatMap fun l =>
      (List.range G.length).filter fun i => (G.getD i []).length = l) = [] := by
    rw [List.flatMap_eq_nil_iff]
    intro l hl
    rw [List.filter_eq_nil_iff]
    intro i hi
    rw [hlength i hi, decide_eq_true_eq]
    simp only [List.mem_cons, List.not_mem_nil, or_false] at hl
    omega
  unfold poolOrder
  dsimp only
  rw [hsort, hL, List.nil_append]
  exact List.filter_eq_self.mpr fun i _ => by simp

section
variable {j : Nat} (hj : 2 * j + 2 = 2 ^ 31)
include hj

theorem poolOrder_fiveLong : poolOrder (fiveLong (2 * j)) = [0, 1, 2, 3, 4] :=
  poolOrder_eq (fun _ => length_of_mem_fiveLong) (by omega)

/-- The offset of the last key is cut to 0. -/
theorem poolOffset_fiveLong : poolOffset (fiveLong (2 * j)) 4 = 2 ^ 33 := by
  rw [poolOffset, poolOrder_fiveLong hj]
  simp [fiveLong, length_long]
  omega

theorem exists_poolContents_fiveLong :
    ∃ more, poolContents (fiveLong (2 * j)) = long (2 * j) 2 ++ 0 :: more := by
  obtain ⟨more, hmore⟩ := exists_drop_poolOffset (G := fiveLong (2 * j)) (i := 0) rfl
  have hzero : poolOffset (fiveLong (2 * j)) 0 = 0 := by
    rw [poolOffset, poolOrder_fiveLong hj]
    rfl
  rw [hzero, List.drop_zero] at hmore
  exact ⟨more, hmore⟩

/-- The check compares the last key with the first one, which has its length. -/
theorem check_fiveLong {c : CFile} (hkeys : c.keys = some (.pool (poolContents (fiveLong (2 * j)))
    ((List.range 5).map (poolOffset (fiveLong (2 * j)))))) :
    c.check (long (2 * j) 1 ++ [0]) (long (2 * j) 1).length 4 = some (-1) := by
  obtain ⟨more, hmore⟩ := exists_poolContents_fiveLong hj
  obtain ⟨m, hm⟩ : ∃ m, 2 * j = m + 1 := ⟨2 * j - 1, by omega⟩
  have hat : at? ((List.range 5).map (poolOffset (fiveLong (2 * j)))) 4 = some (2 ^ 33) :=
    congrArg some (poolOffset_fiveLong hj)
  have hconv : int.conv ((2 ^ 33 : Nat) : Int) = 0 := by decide
  have hprefix : ¬ long (2 * j) 1 <+: long (2 * j) 2 ++ 0 :: more := by
    intro hp
    have heq := (List.prefix_of_prefix_length_le hp (List.prefix_append _ _)
      (by rw [length_long, length_long])).eq_of_length (by rw [length_long, length_long])
    exact absurd (long_injective _ heq) (by decide)
  have hle : (long (2 * j) 1).length ≤ (long (2 * j) 2 ++ 0 :: more).length := by
    rw [List.length_append, length_long, length_long]
    omega
  have hlen : (long (2 * j) 1).length < 2 ^ 31 := by
    rw [length_long]
    omega
  rw [hmore] at hkeys
  rw [hm, long_succ, long_succ, List.cons_append] at hprefix hle
  rw [hm, long_succ] at hlen hkeys ⊢
  rw [← hm, List.cons_append] at hkeys
  rw [check_pool hkeys hlen, hat, Option.bind_some, hconv, if_neg (lt_irrefl 0), Int.toNat_zero,
    List.drop_zero, List.getElem?_cons_zero, Option.bind_some, if_neg (not_not.mpr rfl),
    if_pos hle, if_neg hprefix]

theorem exists_cut_offset : ∃ ph : Pearson Int,
    Variant.pearsonNP.new (fun _ _ => 0) (fun _ => true) (.array (fiveLong (2 * j))) ["-pic"] =
        .ok (some ph) ∧
      ph.C.isSome ∧
      (∀ a ∈ (saveC .pearsonNP ph).collisions, ∀ n ∈ a.Cs, a.ctype.Fits n) ∧
      (∀ a ∈ (saveC .pearsonNP ph).collisions, ∀ cv ∈ a.Cv, ∀ v ∈ cv.getD [], int.Fits v) ∧
      (saveC .pearsonNP ph).lookup (long (2 * j) 1 ++ 0 :: []) 0 = some (-1) := by
  have hpadded : pad (fiveLong (2 * j)) = fiveLong (2 * j) :=
    if_neg (show ¬ endsIn000 5 = true by decide)
  have hne : pad (fiveLong (2 * j)) ≠ [] := by
    rw [hpadded]
    exact List.cons_ne_nil _ _
  obtain ⟨ph, hnew, hb, hH⟩ := exists_newNP ["-pic"] hne
  rw [hpadded] at hb
  have hsize : ph.size = 5 := hb.size
  have hslot (c : UInt8) : slot ph.size ph.H (long (2 * j) c) = c.toNat % 5 := by
    rw [slot, hH, hsize, walk_long]
  have hC : ph.C.isSome := by
    rw [hb.shared]
    simp [fiveLong, hslot]
  obtain ⟨C, hC'⟩ := Option.isSome_iff_exists.mp hC
  refine ⟨ph, hnew, hC, hb.fits_Cs hC' fun n hn => ?_,
    hb.fits_Cv hC (show 5 ≤ 2 ^ 31 by decide), ?_⟩
  · exact uCsize_fits_of_lt (hn.trans_lt (show 5 < 256 by decide))
  · have hnul : (withMaxTime (handleOpts ["-pic"])).has "-nul" = false := by decide
    have hlen : (long (2 * j) 1).length < 2 ^ 31 := by
      rw [length_long]
      omega
    have hget : (fiveLong (2 * j))[4]? = some (long (2 * j) 1) := rfl
    have hnotMem := zero_notMem_of_mem_fiveLong (List.mem_of_getElem? hget)
    have hin : inSlot ph (fiveLong (2 * j)) [] 1 = [(long (2 * j) 1, some 4)] := by
      rw [hsize] at hslot
      simp [inSlot, keyValues, fiveLong, valuesOr, hsize, hslot]
      rfl
    have hlist : list ph 1 = some (.value (some 4)) := by
      rw [hb.list_eq hC (by omega), hin]
      rfl
    have hscanned : scanned ph 1 = [] := by rw [scanned, hlist]
    have hnext : next ph 1 = some 4 := by
      rw [next, hlist]
      rfl
    rw [lookup_eq_run (hb.options_eq ▸ hnul) hnotMem hlen,
      hb.run_string hnul (show 5 < 2 ^ 63 by decide) (hb.pos hC) hnotMem, hslot,
      show (1 : UInt8).toNat % 5 = 1 from rfl, hscanned, scanPairs_nil, Option.bind_some, hnext]
    exact check_fiveLong hj (saveC_keys hb)

end

/-! ## The lookup of a key -/

/-- Where no number is cut, the generated lookup without `-nul` returns the index of every key that
is not empty, and its loop with the final `% size` gives the slot of `hash`. -/
theorem lookup_eq_index {variant : Variant} {draws : Nat → Nat → Nat} {inTime : Nat → Bool}
    {keys : List Bytes} {args : List String} {ph : Pearson Int} {i : Nat} {k : Bytes}
    (hvariant : variant ≠ .pearson8)
    (hnew : variant.new draws inTime (.array keys) args = .ok (some ph)) (hC : ph.C.isSome)
    (hnd : keys.Nodup) (hfree : ∀ k ∈ keys, 0 ∉ k)
    (hnul : (handleOpts args).has "-nul" = false) (hfit : (saveC variant ph).Untruncated)
    (hi : keys[i]? = some k) (hne : k ≠ []) (hlen : k.length < 2 ^ 31) (rest : Bytes) (l : Nat) :
    (saveC variant ph).lookup (k ++ 0 :: rest) l = some (i : Int) ∧
      ∃ h : Nat, hash (object ph.size ph.H) k = .ok h ∧
        (saveC variant ph).slot (k ++ 0 :: rest) k.length = some (h : Int) := by
  have hb := built_of_new hvariant hnew rfl
  have hnul' : (withMaxTime (handleOpts args)).has "-nul" = false := by
    rwa [withMaxTime_has _ (show "-nul" ≠ "-max-time" by decide)]
  have hphnul : ph.options.has "-nul" = false := hb.options_eq ▸ hnul'
  have hfree' : ∀ k ∈ pad keys, 0 ∉ k := fun k => notMem_of_mem_pad hfree
  have honly (j : Nat) (hj : (pad keys)[j]? = some k) : j = i :=
    (List.getElem?_inj (List.getElem?_eq_some_iff.mp (getElem?_of_pad hj hne)).1 hnd).mp
      ((getElem?_of_pad hj hne).trans hi.symm)
  have hk := hfree k (List.mem_of_getElem? hi)
  constructor
  · rw [lookup_eq_run hphnul hk hlen]
    exact hb.run_key hnul' hfree' (getElem?_pad hi) hC hfit honly hne hlen rest
  · have hn := hb.length_le hC hfit
    refine ⟨_, hash_object hb.table.ne_nil (hb.pos hC) k, ?_⟩
    refine slot_saveC hb.table (hb.length_H (by omega)) (hb.pos hC) ?_
    rw [hphnul]
    exact ⟨hk, rfl⟩

theorem lookup_eq_index_three :
    Variant.pearson.new (fun _ _ => 0) (fun _ => true) (.array [[97], [100], [98]]) ["-pic"] =
        .ok (some (three (withMaxTime (handleOpts ["-pic"])))) ∧
      (saveC .pearson (three (withMaxTime (handleOpts ["-pic"])))).lookup ([100] ++ 0 :: []) 0 =
        some 1 := by
  have hnew := new_three (fun _ => true) ["-pic"]
  have hvariant : Variant.pearson ≠ .pearson8 := nofun
  exact ⟨hnew, (lookup_eq_index hvariant hnew rfl (by decide) (by decide) (by decide)
    (by decide +kernel) rfl (by decide) (by decide) [] 0).1⟩

/-- The counts alone do not suffice: with `-false-positives` and more than 2^31 keys an index is cut
in `Cv`, and with `-pic` and a pool of more than 2^31 bytes an offset is cut in `keys`, where the
lookup of the fifth key returns -1. -/
theorem not_lookup_eq_index :
    (((List.range (2 ^ 31 + 1)).map numeral).Nodup ∧
      (∀ k ∈ (List.range (2 ^ 31 + 1)).map numeral, 0 ∉ k) ∧
      ((List.range (2 ^ 31 + 1)).map numeral)[2 ^ 31]? = some (numeral (2 ^ 31)) ∧
      (numeral (2 ^ 31)).length = 32 ∧
      ∃ ph : Pearson Int,
        Variant.pearsonNP.new (fun _ _ => 0) (fun _ => true)
            (.array ((List.range (2 ^ 31 + 1)).map numeral)) ["-false-positives"] =
          .ok (some ph) ∧
        ph.C.isSome ∧
        (∀ a ∈ (saveC .pearsonNP ph).collisions, ∀ n ∈ a.Cs, a.ctype.Fits n) ∧
        (saveC .pearsonNP ph).lookup (numeral (2 ^ 31) ++ 0 :: []) 0 ≠ some (2 ^ 31)) ∧
    ((fiveLong (2 * (2 ^ 30 - 1))).Nodup ∧
      (∀ k ∈ fiveLong (2 * (2 ^ 30 - 1)), 0 ∉ k ∧ k.length = 2 ^ 31 - 1) ∧
      (fiveLong (2 * (2 ^ 30 - 1)))[4]? = some (long (2 * (2 ^ 30 - 1)) 1) ∧
      ∃ ph : Pearson Int,
        Variant.pearsonNP.new (fun _ _ => 0) (fun _ => true)
            (.array (fiveLong (2 * (2 ^ 30 - 1)))) ["-pic"] = .ok (some ph) ∧
        ph.C.isSome ∧
        (∀ a ∈ (saveC .pearsonNP ph).collisions, ∀ n ∈ a.Cs, a.ctype.Fits n) ∧
        (saveC .pearsonNP ph).lookup (long (2 * (2 ^ 30 - 1)) 1 ++ 0 :: []) 0 = some (-1)) := by
  refine ⟨⟨List.nodup_range.map numeral_injective, fun k hk => ?_, getElem?_numerals (by decide),
    ?_, ?_⟩, nodup_fiveLong _, fun k hk => ⟨zero_notMem_of_mem_fiveLong hk, ?_⟩, rfl, ?_⟩
  · obtain ⟨j, -, rfl⟩ := List.mem_map.mp hk
    exact zero_notMem_numeral
  · rw [numeral, List.length_map]
    decide +kernel
  · obtain ⟨ph, hnew, hC, hCs, hlookup⟩ := exists_cut_index (n := 2 ^ 31 + 1) (i := 2 ^ 31)
      (by decide) (by decide) (by decide) (by decide)
    exact ⟨ph, hnew, hC, hCs, hlookup⟩
  · rw [length_of_mem_fiveLong hk]
    rfl
  · obtain ⟨ph, hnew, hC, hCs, -, hlookup⟩ := exists_cut_offset (j := 2 ^ 30 - 1) (by decide)
    exact ⟨ph, hnew, hC, hCs, hlookup⟩

end PerfectHash.Pearson
