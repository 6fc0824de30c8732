import Mathlib.NumberTheory.Bertrand
import PerfectHash.Cmph.ChdPh.Searching
import PerfectHash.Cmph.CompressedSeq.Query

/-! # The function of CHD_PH

When the steps succeed, the displacements put the keys into bins of their own
(`chdPhSearchLoop_spec`), and the compressed sequence gives them back. -/

namespace PerfectHash.Cmph

open BitString CountingSort

variable {n nbuckets maxProbes iterations calls bins keysPerBucket turns p : Nat}
  {hl : HashState} {keys : List Bytes} {all : List ChdPhMapItem} {buckets : List ChdPhBucket}
  {items : List ChdPhItem} {dispTable done : List Nat} {occupTable : List (BitVec 32)}
  {s : ChdPhMapped}

/-! ## The steps after the mapping -/

theorem ChdPhMapped.Good.bucketed (h : s.Good nbuckets n keys) :
    Bucketed (itemsOf (chdPhItems nbuckets n s.hl keys))
      (start fun b => (itemsOf (chdPhItems nbuckets n s.hl keys) b).length) nbuckets s.buckets
      s.items where
  buckets := by
    refine List.ext_getElem? fun b => ?_
    rw [List.getElem?_map]
    by_cases hb : b < nbuckets
    · rw [h.stored.counters b hb, List.getElem?_range hb]
      rfl
    · rw [List.getElem?_eq_none (by rw [h.stored.length]; omega),
        List.getElem?_eq_none (by rw [List.length_range]; omega)]
      rfl
  items := fun b _ j item hj => h.stored.cells b j item hj

/-- The bin of a map item, with the displacement of its bucket. -/
def mapItemBin (n : Nat) (dispTable : List Nat) (mapItem : ChdPhMapItem) : Nat :=
  displacedBin n (dispTable.getD mapItem.bucketNum 0) mapItem.item

theorem binsOf_itemsOf (b : Nat) : binsOf n (itemsOf all) dispTable b =
    (all.filter (·.bucketNum = b)).map (mapItemBin n dispTable) := by
  rw [binsOf, itemsOf, group, List.map_map]
  refine List.map_congr_left fun x hx => ?_
  rw [mapItemBin, of_decide_eq_true (List.mem_filter.mp hx).2]
  rfl

/-- Empty buckets have no bins. -/
theorem flatMap_nonEmpty {grp : Nat → List ChdPhItem} (bs : List Nat) :
    (nonEmpty grp bs).flatMap (binsOf n grp dispTable) = bs.flatMap (binsOf n grp dispTable) := by
  induction bs with
  | nil => rfl
  | cons b bs ih =>
    rw [List.flatMap_cons, ← ih, nonEmpty, List.filter_cons]
    split_ifs with hb
    · rfl
    · have hnil : grp b = [] := by simpa using hb
      rw [binsOf, hnil]
      rfl

/-- The bins of the buckets are those of the keys. -/
theorem flatMap_binsOf_perm (hmem : ∀ x ∈ all, x.bucketNum < nbuckets) (hnodup : done.Nodup)
    (hdone : ∀ b, b ∈ done ↔ b ∈ nonEmpty (itemsOf all) (List.range nbuckets)) :
    (done.flatMap (binsOf n (itemsOf all) dispTable)).Perm
      (all.map (mapItemBin n dispTable)) := by
  have hperm : done.Perm (nonEmpty (itemsOf all) (List.range nbuckets)) :=
    (List.perm_ext_iff_of_nodup hnodup (List.nodup_range.filter _)).mpr hdone
  refine (hperm.flatMap_right _).trans ?_
  rw [flatMap_nonEmpty, funext binsOf_itemsOf, ← List.map_flatMap]
  exact (flatMap_filter_perm hmem).map _

/-- The displacements put the keys into bins of their own, and these are the bins that are taken. -/
structure Separates (nbuckets n : Nat) (keys : List Bytes) (hl : HashState) (dispTable : List Nat)
    (occupTable : List (BitVec 32)) : Prop where
  length : dispTable.length = nbuckets
  small : ∀ d ∈ dispTable, d < 2 ^ 32 - 1
  room : n ≤ 32 * occupTable.length
  nodup : ((chdPhItems nbuckets n hl keys).map (mapItemBin n dispTable)).Nodup
  occupied : Occupied occupTable ((chdPhItems nbuckets n hl keys).map (mapItemBin n dispTable))

theorem chdPhItems_small (hn : 1 < n) :
    ∀ x ∈ chdPhItems nbuckets n hl keys, x.item.Small n := by
  intro x hx
  obtain ⟨key, -, rfl⟩ := List.mem_map.mp hx
  have hmod := Nat.mod_lt (hashVector hl key).h2.toNat (show 0 < n - 1 by omega)
  exact ⟨Nat.mod_lt _ (by omega), show _ % (n - 1) + 1 < n by omega⟩

theorem occupied_nil (k : Nat) : Occupied (List.replicate k 0) [] := fun q => by
  refine iff_of_false (fun h => ?_) List.not_mem_nil
  rw [bits_replicate_zero] at h
  cases List.eq_of_mem_replicate (List.mem_of_getElem? h)

/-- With one probe, or none, a list is done only when no bucket is in it. -/
theorem size_eq_zero_of_placeList {i first size : Nat} {t t' : ChdPhTables} (hmax : maxProbes ≤ 1)
    (h : placeList n maxProbes items i first (maxProbes + 1) size 0 0 0 t = some (true, t')) :
    size = 0 := by
  by_contra hne
  rw [placeList, if_neg hne] at h
  obtain ⟨⟨left, t''⟩, -, h⟩ := Option.bind_eq_some_iff.mp h
  dsimp only at h
  rw [if_pos (.inl (hmax.trans_eq rfl))] at h
  cases h

theorem size_eq_zero_of_placeBuckets2 {sortedLists : List ChdPhSortedList} {i j : Nat}
    {t t' : ChdPhTables} {list : ChdPhSortedList} (hmax : maxProbes ≤ 1)
    (h : placeBuckets2 n maxProbes items sortedLists i t = some (true, t')) (hpos : 0 < j)
    (hle : j ≤ i) (hlist : sortedLists[j]? = some list) : list.size = 0 := by
  induction i generalizing t with
  | zero => exact absurd hpos (Nat.not_lt_of_le hle)
  | succ i ih =>
    rw [placeBuckets2] at h
    obtain ⟨list', hlist', h⟩ := Option.bind_eq_some_iff.mp h
    obtain ⟨⟨placed, t''⟩, hplace, h⟩ := Option.bind_eq_some_iff.mp h
    cases placed with
    | false => cases h
    | true =>
      rcases Nat.eq_or_lt_of_le hle with rfl | hlt
      · cases hlist.symm.trans hlist'
        exact size_eq_zero_of_placeList hmax hplace
      · exact ih h (Nat.le_of_lt_succ hlt)

/-- What the ordering step and the searching step do after a mapping step. -/
theorem searchTurn_spec (h : s.Good nbuckets n keys) (hkeys : keys ≠ [])
    (hlt : keys.length + 1 < 2 ^ 32) (hpos : 0 < nbuckets) (hnb : nbuckets < 2 ^ 32) (hn : 1 < n)
    (hn32 : n + 31 < 2 ^ 32) (hmax : maxProbes < 2 ^ 32) (hdisp : dispTable.length = nbuckets)
    (hsmall : ∀ d ∈ dispTable, d < 2 ^ 32 - 1) :
    ∃ sortedLists buckets items ok t,
      chdPhOrdering s.buckets s.items keys.length s.maxBucketSize =
        some (sortedLists, buckets, items) ∧
      placeBuckets2 n maxProbes items sortedLists s.maxBucketSize
        ⟨buckets, List.replicate (u32 (n + 31) / 32) 0, dispTable⟩ = some (ok, t) ∧
      t.buckets.length = nbuckets ∧ items.length = keys.length ∧
      t.dispTable.length = nbuckets ∧ (∀ d ∈ t.dispTable, d < 2 ^ 32 - 1) ∧
      (maxProbes ≤ 1 → ok = false) ∧
      (ok = true → Separates nbuckets n keys s.hl t.dispTable t.occupTable) := by
  generalize hall : chdPhItems nbuckets n s.hl keys = all
  have hlen : all.length = keys.length := by rw [← hall, chdPhItems, List.length_map]
  have hmem : ∀ x ∈ all, x.bucketNum < nbuckets := hall ▸ bucketNum_lt hpos
  have hitems : ∀ x ∈ all, x.item.Small n := hall ▸ chdPhItems_small hn
  have hbucketed := h.bucketed
  have hle := h.le_max
  rw [hall] at hbucketed hle
  -- some bucket has an item
  obtain ⟨b, hb, hbpos⟩ : ∃ b < nbuckets, 0 < (itemsOf all b).length := by
    obtain ⟨x, hx⟩ := List.exists_mem_of_length_pos (hlen.symm ▸ List.length_pos_of_ne_nil hkeys)
    exact ⟨x.bucketNum, hmem x hx, List.length_pos_of_mem (item_mem_itemsOf.mpr hx)⟩
  have hpos' : 0 < s.maxBucketSize := hbpos.trans_le (hle b hb)
  have htotal : start (fun b => (itemsOf all b).length) nbuckets ≤ keys.length := by
    simp only [itemsOf, group, List.length_map]
    rw [start_length_filter hmem, hlen]
  obtain ⟨sortedLists, buckets, items, horder, hlen', hordered⟩ := chdPhOrdering_spec hbucketed hle
    hnb (Nat.lt_of_le_of_lt (Nat.succ_le_succ h.max_le) hlt) hpos' (by rw [h.length]; omega)
    (by omega) htotal
  have hplaced : Placed n (itemsOf all) nbuckets []
      ⟨buckets, List.replicate (u32 (n + 31) / 32) 0, dispTable⟩ := by
    refine ⟨hdisp, hsmall, ?_, List.nodup_nil, occupied_nil _⟩
    rw [show u32 ((n : Int) + 31) = n + 31 from u32_of_eq hn32 (by push_cast; rfl),
      List.length_replicate]
    omega
  have hgrp : ∀ b < nbuckets, ∀ item ∈ itemsOf all b, item.Small n := by
    intro b _ item hitem
    obtain ⟨x, hx, -, rfl⟩ := mem_group.mp hitem
    exact hitems x hx
  obtain ⟨ok, done, t, hrun, hdone, hlen'', hok⟩ := placeBuckets2_spec (by omega) (by omega) hmax
    hgrp hnb s.maxBucketSize [] ⟨buckets, List.replicate (u32 (n + 31) / 32) 0, dispTable⟩
    hordered.lists hordered.cells hordered.length (firstOf_le hle) List.nodup_nil
    (List.forall_mem_nil _) hplaced
  refine ⟨sortedLists, buckets, items, ok, t, horder, hrun, hlen'', hlen', hdone.length,
    hdone.small, fun hmax => ?_, fun h => ?_⟩
  · cases ok with
    | false => rfl
    | true =>
      have hzero := size_eq_zero_of_placeBuckets2 hmax hrun hbpos (hle b hb)
        (hordered.lists _ (hle b hb))
      have hin : b ∈ ofSize (itemsOf all) (List.range nbuckets) (itemsOf all b).length :=
        mem_ofSize.mpr ⟨⟨List.mem_range.mpr hb, hbpos.ne'⟩, rfl⟩
      exact absurd hzero (List.length_pos_of_mem hin).ne'
  obtain ⟨hnodup, hmem'⟩ := hok h
  have hperm : (done.flatMap (binsOf n (itemsOf all) t.dispTable)).Perm
      (all.map (mapItemBin n t.dispTable)) := flatMap_binsOf_perm hmem hnodup fun b => by
    rw [hmem', or_iff_right List.not_mem_nil]
    exact and_iff_left_of_imp fun hb => hle b (List.mem_range.mp (mem_nonEmpty.mp hb).1)
  refine ⟨hdone.length, hdone.small, hdone.room, ?_, ?_⟩
  · rw [hall]
    exact hperm.nodup_iff.mp hdone.nodup
  · rw [hall]
    exact hdone.occupied.congr fun q => hperm.mem_iff

theorem chdPhSearchLoop_spec (hashfunc : CmphHash) (rand : Nat → Nat) (hkeys : keys ≠ [])
    (hlt : keys.length + 1 < 2 ^ 32) (hpos : 0 < nbuckets) (hnb : nbuckets < 2 ^ 32) (hn : 1 < n)
    (hn32 : n + 31 < 2 ^ 32) (hmax : maxProbes < 2 ^ 32) (hbuckets : buckets.length = nbuckets)
    (hitems : items.length = keys.length) (hdisp : dispTable.length = nbuckets)
    (hsmall : ∀ d ∈ dispTable, d < 2 ^ 32 - 1) (hiterations : 0 < iterations) :
    ∃ res, chdPhSearchLoop nbuckets n maxProbes hashfunc rand keys iterations calls buckets items
        dispTable = some res ∧ (maxProbes ≤ 1 → res = none) ∧
      ∀ hl dispTable' occupTable, res = some (hl, dispTable', occupTable) →
        Separates nbuckets n keys hl dispTable' occupTable := by
  induction iterations generalizing calls buckets items dispTable with
  | zero => exact absurd hiterations (Nat.lt_irrefl 0)
  | succ iterations ih =>
    obtain ⟨res, hmapping, -, hgood⟩ := chdPhMapping_spec hashfunc rand calls hkeys (by omega) hpos hn
      (by omega) hbuckets hitems
    rw [chdPhSearchLoop, hmapping, Option.bind_eq_bind, Option.bind_some]
    cases res with
    | none => exact ⟨none, rfl, fun _ => rfl, by intro _ _ _ h; cases h⟩
    | some s =>
      obtain ⟨sortedLists, buckets', items', ok, t, horder, hrun, hbuckets', hitems', hdisp',
        hsmall', hfail, hok⟩ :=
          searchTurn_spec (hgood s rfl) hkeys hlt hpos hnb hn hn32 hmax hdisp hsmall
      simp only [horder, hrun, Option.bind_eq_bind, Option.bind_some]
      cases ok with
      | true =>
        refine ⟨some (s.hl, t.dispTable, t.occupTable), rfl, fun hmax => ?_, ?_⟩
        · cases hfail hmax
        rintro _ _ _ ⟨⟩
        exact hok rfl
      | false =>
        by_cases hzero : iterations = 0
        · subst hzero
          exact ⟨none, rfl, fun _ => rfl, by intro _ _ _ h; cases h⟩
        · rw [if_neg (by decide), if_neg hzero]
          exact ih hbuckets' hitems' hdisp' hsmall' (Nat.pos_of_ne_zero hzero)

/-! ## The number of bins -/

theorem roundToPrime_spec (hn : 1 < n) (hodd : n % 2 = 1) (hp : Accepted p) (hle : n ≤ p)
    (hpodd : p % 2 = 1) (hlt : p < 2 ^ 32) (hturns : p < n + 2 * turns) :
    ∃ n', roundToPrime turns n = some n' ∧ n ≤ n' ∧ n' ≤ p := by
  induction turns generalizing n with
  | zero => exact absurd hle (Nat.not_le_of_lt hturns)
  | succ turns ih =>
    obtain ⟨b, hcheck, hb⟩ := checkPrimality_spec hn (Nat.lt_of_le_of_lt hle hlt)
    rw [roundToPrime, hcheck, Option.bind_eq_bind, Option.bind_some]
    cases b with
    | true => exact ⟨n, rfl, Nat.le_refl n, hle⟩
    | false =>
      -- an accepted number is not passed over
      have hne : n ≠ p := fun h => absurd (hb.mpr (h ▸ hp)) (by decide)
      have hnext : u32 ((n : Int) + 2) = n + 2 := u32_of_eq (by omega) (by push_cast; rfl)
      obtain ⟨n', hrun, hle', hle''⟩ := ih (show 1 < n + 2 by omega) (by omega) (by omega) (by omega)
      rw [if_neg (by decide), hnext]
      exact ⟨n', hrun, by omega, hle''⟩

theorem exists_accepted (n : Nat) : ∃ p, Accepted p ∧ p % 2 = 1 ∧ n ≤ p ∧ p ≤ max 67 (2 * n) := by
  have haccepted (p : Nat) (hp : p.Prime) (h : 61 < p) : Accepted p ∧ p % 2 = 1 := by
    refine ⟨accepted_of_prime hp fun hmem => ?_, hp.mod_two_eq_one_iff_ne_two.mpr (by omega)⟩
    simp only [List.mem_cons, List.not_mem_nil, or_false] at hmem
    omega
  rcases Nat.lt_or_ge n 61 with hn | hn
  · obtain ⟨hp, hodd⟩ := haccepted 67 (by norm_num) (by decide)
    exact ⟨67, hp, hodd, by omega, Nat.le_max_left _ _⟩
  · obtain ⟨p, hprime, hlt, hle⟩ := Nat.exists_prime_lt_and_le_two_mul n (by omega)
    obtain ⟨hp, hodd⟩ := haccepted p hprime (by omega)
    exact ⟨p, hp, hodd, hlt.le, hle.trans (Nat.le_max_right _ _)⟩

/-- The loop ends at the double of the number of bins, or before. -/
theorem chdPhBins_spec (hbins : 1 < bins) (hlt : bins < 2 ^ 30) :
    ∃ n, chdPhBins bins = some n ∧ bins ≤ n ∧ n ≤ max 67 (2 * (bins + 1)) := by
  have hround : ∃ n, (if bins % 2 = 0 then u32 ((bins : Int) + 1) else bins) = n ∧ bins ≤ n ∧
      n ≤ bins + 1 ∧ n % 2 = 1 := by
    split_ifs with h
    · exact ⟨bins + 1, u32_of_eq (by omega) (by push_cast; rfl), by omega, Nat.le_refl _, by omega⟩
    · exact ⟨bins, rfl, Nat.le_refl _, by omega, by omega⟩
  obtain ⟨n, hn, hle, hle', hodd⟩ := hround
  obtain ⟨p, hp, hpodd, hnp, hp'⟩ := exists_accepted n
  obtain ⟨n', hrun, hn', hp''⟩ := @roundToPrime_spec n (2 ^ 31) p (by omega) hodd hp hnp hpodd
    (by omega) (by omega)
  rw [chdPhBins, hn]
  exact ⟨n', hrun, by omega, by omega⟩

/-! ## The values of the keys -/

/-- The displacements have less than 32 bits. -/
theorem sum_encLength_le (hsmall : ∀ d ∈ dispTable, d < 2 ^ 32 - 1) :
    (dispTable.map encLength).sum ≤ 31 * dispTable.length := by
  induction dispTable with
  | nil => exact Nat.le_refl 0
  | cons d dispTable ih =>
    obtain ⟨hd, hsmall⟩ := List.forall_mem_cons.mp hsmall
    have hle := ih hsmall
    have hlt := encLength_lt hd
    rw [List.map_cons, List.sum_cons, List.length_cons]
    omega

/-- What `chd_ph_new` builds. -/
structure ChdPhBuilt (bins : Nat) (keys : List Bytes) (hl : HashState) (dispTable : List Nat)
    (mphf : CmphT ChdPhData) (occupTable : List (BitVec 32)) : Prop where
  algo : mphf.algo = .chdPh
  data_hl : mphf.data.hl = some hl
  size : mphf.size = mphf.data.n
  bins_le : bins ≤ mphf.data.n
  n_le : mphf.data.n ≤ max 67 (2 * (bins + 1))
  n_lt : mphf.data.n < 2 ^ 32
  nbuckets_pos : 0 < mphf.data.nbuckets
  nbuckets_lt : mphf.data.nbuckets < 2 ^ 32
  cs : mphf.data.cs.Holds dispTable
  separates : Separates mphf.data.nbuckets mphf.data.n keys hl dispTable occupTable

/-- The bin of a key. -/
def ChdPhData.bin (data : ChdPhData) (hl : HashState) (dispTable : List Nat) (key : Bytes) : Nat :=
  mapItemBin data.n dispTable (keyMapItem data.nbuckets data.n (hashVector hl key))

section Built

variable {mphf : CmphT ChdPhData} (h : ChdPhBuilt bins keys hl dispTable mphf occupTable)
  (hbins : 1 < bins)

include h

theorem ChdPhBuilt.nodup_bins : (keys.map (mphf.data.bin hl dispTable)).Nodup := by
  have hnodup := h.separates.nodup
  rwa [chdPhItems, List.map_map] at hnodup

theorem ChdPhBuilt.occupied_bins : Occupied occupTable (keys.map (mphf.data.bin hl dispTable)) := by
  have hocc := h.separates.occupied
  rwa [chdPhItems, List.map_map] at hocc

include hbins

theorem ChdPhBuilt.bin_of_query {query : Nat → Option Nat}
    (hquery : ∀ idx v, dispTable[idx]? = some v → query idx = some v) (key : Bytes) :
    chdPhBin mphf.data.nbuckets mphf.data.n query (hashVector hl key) =
      some (mphf.data.bin hl dispTable key) := by
  have hn : 1 < mphf.data.n := hbins.trans_le h.bins_le
  generalize hx : keyMapItem mphf.data.nbuckets mphf.data.n (hashVector hl key) = x
  have hmem : x.bucketNum < dispTable.length := by
    rw [← hx, h.separates.length]
    exact Nat.mod_lt _ h.nbuckets_pos
  have hget := List.getElem?_eq_getElem hmem
  have hd : dispTable[x.bucketNum] < 2 ^ 32 - 1 := h.separates.small _ (List.getElem_mem hmem)
  have hitem : x.item.Small mphf.data.n := chdPhItems_small hn x
    (List.mem_map.mpr ⟨key, List.mem_singleton_self key, hx⟩)
  simp only [chdPhBin, chdPhMapItem_eq h.nbuckets_pos hn h.n_lt, hx, hquery _ _ hget,
    Option.bind_eq_bind, Option.bind_some]
  rw [ChdPhData.bin, hx, mapItemBin, List.getD_eq_getElem?_getD, hget]
  exact chdPhPosition_eq hitem h.n_lt (Nat.mod_lt _ (by omega))
    ((Nat.div_le_self _ _).trans_lt (by omega))

theorem ChdPhBuilt.search (key : Bytes) :
    chdPhSearch mphf.data key = some (mphf.data.bin hl dispTable key) := by
  rw [chdPhSearch, h.data_hl]
  exact h.bin_of_query hbins (fun idx v hidx => h.cs.compressedSeqQuery hidx) key

theorem ChdPhBuilt.bin_lt (key : Bytes) : mphf.data.bin hl dispTable key < mphf.size := by
  rw [h.size]
  exact Nat.mod_lt _ (by have := h.bins_le; omega)

theorem ChdPhBuilt.searchPacked : ∃ packed, chdPhPack mphf.data = some packed ∧
    ∀ rest key, chdPhSearchPacked (packed ++ rest) key = chdPhSearch mphf.data key := by
  have hn : (BitVec.ofNat 32 mphf.data.n).toNat = mphf.data.n := by
    rw [BitVec.toNat_ofNat, Nat.mod_eq_of_lt h.n_lt]
  have hnbuckets : (BitVec.ofNat 32 mphf.data.nbuckets).toNat = mphf.data.nbuckets := by
    rw [BitVec.toNat_ofNat, Nat.mod_eq_of_lt h.nbuckets_lt]
  have hdump := h.cs.compressedSeqDump
  generalize bytes _ = cs at hdump
  -- the memory from each pointer on
  let ws := [BitVec.ofNat 32 mphf.data.n, BitVec.ofNat 32 mphf.data.nbuckets]
  let hlPtr := hashStatePack hl ++ (bytes ws ++ cs)
  refine ⟨bytes [hl.hashfunc.toWord] ++ hlPtr, ?_, fun rest key => ?_⟩
  · rw [chdPhPack, h.data_hl, Option.bind_eq_bind, Option.bind_some, hdump, Option.bind_eq_bind,
      Option.bind_some]
    simp only [hlPtr, List.append_assoc]
    rfl
  · have hp : (bytes [hl.hashfunc.toWord] ++ hlPtr ++ rest).drop 4 = hlPtr ++ rest := by
      rw [List.append_assoc]
      exact List.drop_left' (length_bytes _)
    have htype : (words (bytes [hl.hashfunc.toWord] ++ hlPtr ++ rest))[0]? =
        some hl.hashfunc.toWord := by
      rw [List.append_assoc, words_append]
      rfl
    have hptr : (hlPtr ++ rest).drop (hashStatePackedSize hl.hashfunc) =
        bytes ws ++ (cs ++ rest) := by
      simp only [hlPtr, List.append_assoc]
      rw [List.drop_left' (length_hashStatePack hl)]
    have hhead : (words (bytes ws ++ (cs ++ rest)))[0]? = some (BitVec.ofNat 32 mphf.data.n) ∧
        (words (bytes ws ++ (cs ++ rest)))[1]? = some (BitVec.ofNat 32 mphf.data.nbuckets) := by
      rw [words_append]
      exact ⟨rfl, rfl⟩
    have hcs : (bytes ws ++ (cs ++ rest)).drop 8 = cs ++ rest := List.drop_left' (length_bytes _)
    have hhash : hashVectorPacked (hlPtr ++ rest) hl.hashfunc key = some (hashVector hl key) := by
      simp only [hlPtr, List.append_assoc]
      exact hashVectorPacked_pack hl _ key
    simp only [chdPhSearchPacked, htype, CmphHash.ofWord_toWord, hp, hptr, hhead.1, hhead.2, hcs,
      hhash, hn, hnbuckets, Option.bind_eq_bind, Option.bind_some]
    rw [h.search hbins]
    exact h.bin_of_query hbins
      (fun idx v hidx => h.cs.compressedSeqQueryPacked hidx hdump rest) key

end Built

section New

variable (hashfunc : CmphHash) (rand : Nat → Nat) (hkeys : keys ≠ [])
  (hlt : keys.length + 1 < 2 ^ 32) (hpos : 0 < keysPerBucket)
  (hnb : keys.length / keysPerBucket + 5 ≤ 2 ^ 27) (hbins : 1 < bins) (hbins' : bins < 2 ^ 30)
  (hmax : maxProbes < 2 ^ 32)

include hkeys hlt hpos hnb hbins hbins' hmax

theorem chdPhNew_spec :
    ∃ res, chdPhNew keysPerBucket bins maxProbes hashfunc rand keys = some res ∧
      (maxProbes ≤ 1 → res = none) ∧
      ∀ mphf occupTable, res = some (mphf, occupTable) →
        ∃ hl dispTable, ChdPhBuilt bins keys hl dispTable mphf occupTable := by
  obtain ⟨nbuckets, hnbuckets, hnb', hsize⟩ : ∃ nbuckets,
      u32 ((keys.length / keysPerBucket : Nat) + 1) = nbuckets ∧ 0 < nbuckets ∧
        32 * nbuckets + 128 ≤ 2 ^ 32 := by
    generalize keys.length / keysPerBucket = q at hnb
    exact ⟨q + 1, u32_of_eq (by omega) (by push_cast; rfl), by omega, by omega⟩
  obtain ⟨n, hn, hle, hn32⟩ := chdPhBins_spec hbins hbins'
  obtain ⟨res, hrun, hfail, hres⟩ := @chdPhSearchLoop_spec n nbuckets maxProbes 100 0 keys
    (List.replicate nbuckets ⟨0, 0⟩) (List.replicate keys.length ⟨0, 0⟩)
    (List.replicate nbuckets 0) hashfunc rand hkeys hlt hnb' (by omega) (by omega) (by omega)
    hmax List.length_replicate List.length_replicate List.length_replicate
    (fun d hd => by rw [List.eq_of_mem_replicate hd]; decide) (by decide)
  rw [chdPhNew, hnbuckets, if_neg hpos.ne', hn]
  simp only [Option.bind_eq_bind, Option.bind_some, hrun]
  rcases res with _ | ⟨hl, dispTable, occupTable⟩
  · exact ⟨none, rfl, fun _ => rfl, by intro _ _ h; cases h⟩
  have hsep := hres hl dispTable occupTable rfl
  have hsum := sum_encLength_le hsep.small
  rw [hsep.length] at hsum
  obtain ⟨cs, hcs, hholds⟩ := compressedSeqGenerate_holds (List.ne_nil_of_length_pos (by
    rwa [hsep.length])) hsep.small (by rw [hsep.length]; omega)
  simp only [hcs, Option.bind_some]
  refine ⟨_, rfl, fun hmax => ?_, ?_⟩
  · cases hfail hmax
  rintro _ _ ⟨⟩
  exact ⟨hl, dispTable, rfl, rfl, rfl, hle, hn32, show n < 2 ^ 32 by omega, hnb',
    show nbuckets < 2 ^ 32 by omega, hholds, hsep⟩

/-- `chd_ph_new` ends, and the function that it returns maps the keys to bins of their own: the bins
that are taken. -/
theorem chdPhNew_search :
    ∃ res, chdPhNew keysPerBucket bins maxProbes hashfunc rand keys = some res ∧
      ∀ mphf occupTable, res = some (mphf, occupTable) → bins ≤ mphf.size ∧
        ∃ vals, keys.mapM (chdPhSearch mphf.data) = some vals ∧ vals.Nodup ∧
          (∀ v ∈ vals, v < mphf.size) ∧ ∀ q, (bits occupTable)[q]? = some true ↔ q ∈ vals := by
  obtain ⟨res, hrun, -, hbuilt⟩ := chdPhNew_spec hashfunc rand hkeys hlt hpos hnb hbins hbins' hmax
  refine ⟨res, hrun, fun mphf occupTable hres => ?_⟩
  obtain ⟨hl, dispTable, h⟩ := hbuilt mphf occupTable hres
  refine ⟨h.bins_le.trans_eq h.size.symm, keys.map (mphf.data.bin hl dispTable), ?_, h.nodup_bins,
    ?_, h.occupied_bins⟩
  · rw [show chdPhSearch mphf.data = fun key => some (mphf.data.bin hl dispTable key) from
      funext (h.search hbins)]
    exact List.mapM_pure
  · intro v hv
    obtain ⟨key, -, rfl⟩ := List.mem_map.mp hv
    exact h.bin_lt hbins key

/-- With one probe, or none, `chd_ph_new` returns NULL, also when that probe places all buckets. -/
theorem chdPhNew_eq_none (hprobes : maxProbes ≤ 1) :
    chdPhNew keysPerBucket bins maxProbes hashfunc rand keys = some none := by
  obtain ⟨res, hrun, hnone, -⟩ := chdPhNew_spec hashfunc rand hkeys hlt hpos hnb hbins hbins' hmax
  rw [hrun, hnone hprobes]

/-- The packed function is the function. -/
theorem chdPhSearchPacked_pack {mphf : CmphT ChdPhData}
    (h : chdPhNew keysPerBucket bins maxProbes hashfunc rand keys = some (some (mphf, occupTable))) :
    ∃ packed, chdPhPack mphf.data = some packed ∧
      ∀ rest key, chdPhSearchPacked (packed ++ rest) key = chdPhSearch mphf.data key := by
  obtain ⟨res, hrun, -, hbuilt⟩ := chdPhNew_spec hashfunc rand hkeys hlt hpos hnb hbins hbins' hmax
  obtain ⟨hl, dispTable, hbuilt⟩ := hbuilt mphf occupTable (Option.some.inj (hrun.symm.trans h))
  exact hbuilt.searchPacked hbins

end New

theorem chdPhNew_two : ∃ mphf occupTable,
    chdPhNew 2 3 20 .jenkins (fun k => k) [[0x61], [0x62]] = some (some (mphf, occupTable)) := by
  have hsome : (chdPhNew 2 3 20 .jenkins (fun k => k) [[0x61], [0x62]]).join.isSome := by
    decide +kernel
  obtain ⟨⟨mphf, occupTable⟩, h⟩ := Option.isSome_iff_exists.mp hsome
  exact ⟨mphf, occupTable, Option.join_eq_some_iff.mp h⟩

theorem chdPhNew_search_two : ∃ mphf occupTable,
    chdPhNew 2 3 20 .jenkins (fun k => k) [[0x61], [0x62]] = some (some (mphf, occupTable)) ∧
    3 ≤ mphf.size ∧ ∃ vals, [[0x61], [0x62]].mapM (chdPhSearch mphf.data) = some vals ∧ vals.Nodup ∧
      (∀ v ∈ vals, v < mphf.size) ∧ ∀ q, (bits occupTable)[q]? = some true ↔ q ∈ vals := by
  obtain ⟨mphf, occupTable, hnew⟩ := chdPhNew_two
  obtain ⟨res, hrun, hres⟩ := @chdPhNew_search 20 3 2 [[0x61], [0x62]] .jenkins (fun k => k)
    (by decide) (by decide) (by decide) (by decide) (by decide) (by decide) (by decide)
  obtain ⟨hsize, hvals⟩ := hres mphf occupTable (Option.some.inj (hrun.symm.trans hnew))
  exact ⟨mphf, occupTable, hnew, hsize, hvals⟩

theorem chdPhNew_eq_none_one :
    chdPhNew 4 2 0 .jenkins (fun _ => 7) [[0x61]] = some none :=
  @chdPhNew_eq_none 0 2 4 [[0x61]] .jenkins (fun _ => 7) (by decide) (by decide) (by decide)
    (by decide) (by decide) (by decide) (by decide) (by decide)

theorem chdPhSearchPacked_pack_two : ∃ (mphf : CmphT ChdPhData) (packed : Bytes),
    chdPhPack mphf.data = some packed ∧
    ∀ rest key, chdPhSearchPacked (packed ++ rest) key = chdPhSearch mphf.data key := by
  obtain ⟨mphf, occupTable, hnew⟩ := chdPhNew_two
  exact ⟨mphf, chdPhSearchPacked_pack .jenkins (fun k => k) (by decide) (by decide) (by decide)
    (by decide) (by decide) (by decide) (by decide) hnew⟩

end PerfectHash.Cmph
