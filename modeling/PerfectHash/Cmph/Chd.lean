import PerfectHash.Cmph.Class
import PerfectHash.Cmph.CompressedRank.Query
import PerfectHash.Cmph.ChdPh.Search
import PerfectHash.Lib.RankSelect

/-! # The algorithm CHD (`chd.c`)

The bins of CHD_PH are made a minimal range: from the bin of a key, the number of empty bins in
front of it is subtracted. So the keys get the numbers below their number, each number once
(`chdNew_search`). -/

namespace PerfectHash.Cmph

open BitString RankSelect

variable {n maxProbes bins keysPerBucket : Nat} {hl : HashState} {keys : List Bytes}
  {dispTable : List Nat} {occupTable : List (BitVec 32)} {chdPhf : CmphT ChdPhData}

/-- `chd_data_t` -/
structure ChdData where
  packedCr : Bytes
  packedChdPhf : Bytes

/-- The loop that collects the empty bins. -/
def emptyBins (occupTable : List (BitVec 32)) (nbins : Nat) : Option (List Nat) :=
  (List.range nbins).foldlM (fun vals i => do
    if ← getBit32 occupTable i then return vals else return vals ++ [i]) []

/-- What `chd_new` makes of a function of `chd_ph_new`. -/
def chdOfChdPh (nkeys : Nat) (chdPhf : CmphT ChdPhData) (occupTable : List (BitVec 32)) :
    Option (CmphT ChdData) := do
  let packedChdPhf := bytes [chdPhf.algo.toWord] ++ (← chdPhPack chdPhf.data)
  let nvals := u32 (chdPhf.data.n - nkeys : Int)
  let vals ← emptyBins occupTable chdPhf.data.n
  if vals.length > nvals then none
  let cr ← compressedRankGenerate (vals ++ List.replicate (nvals - vals.length) 0)
  let packedCr ← compressedRankDump cr
  return { algo := .chd, size := nkeys, data := { packedCr, packedChdPhf } }

/-- `chd_new`, nothing where it returns NULL -/
def chdNew (keysPerBucket bins maxProbes : Nat) (hashfunc : CmphHash) (rand : Nat → Nat)
    (keys : List Bytes) : Option (Option (CmphT ChdData)) := do
  match ← chdPhNew keysPerBucket bins maxProbes hashfunc rand keys with
  | none => return none
  | some (chdPhf, occupTable) => return some (← chdOfChdPh keys.length chdPhf occupTable)

/-- `_chd_search`, where `cmph_search_packed` finds a function of CHD_PH -/
def chdSearchTables (packedChdPhf packedCr : Bytes) (key : Bytes) : Option Nat := do
  let algo ← CmphAlgo.all[(← (words packedChdPhf)[0]?).toNat]?
  if algo ≠ .chdPh then none
  let binIdx ← chdPhSearchPacked (packedChdPhf.drop 4) key
  let rank ← compressedRankQueryPacked packedCr binIdx
  return u32 (binIdx - rank)

/-- `chd_search` -/
def chdSearch (chd : ChdData) (key : Bytes) : Option Nat :=
  chdSearchTables chd.packedChdPhf chd.packedCr key

/-- `chd_pack` -/
def chdPack (data : ChdData) : Bytes :=
  bytes [BitVec.ofNat 32 data.packedCr.length] ++ data.packedCr ++
    bytes [BitVec.ofNat 32 data.packedChdPhf.length] ++ data.packedChdPhf

/-- `chd_search_packed` -/
def chdSearchPacked (packed key : Bytes) : Option Nat := do
  let packedCrSize := (← (words packed)[0]?).toNat
  let ptr := packed.drop 4
  chdSearchTables (ptr.drop (packedCrSize + 4)) ptr key

/-! ## The empty bins -/

/-- The bins in front of a bin are the taken ones and the empty ones. -/
theorem countP_add_rank (l : List Bool) (q : Nat) :
    (List.range q).countP (fun i => l[i]? ≠ some true) + rank l q = q := by
  induction q with
  | zero => rfl
  | succ q ih =>
    rw [List.range_succ, List.countP_append, List.countP_singleton, rank_succ]
    generalize List.countP _ (List.range q) = c at ih
    by_cases h : l[q]? = some true
    · rw [if_neg (by simpa using h), if_pos h]
      omega
    · rw [if_pos (decide_eq_true h), if_neg h]
      omega

/-- The empty bins. -/
abbrev empties (l : List Bool) (n : Nat) : List Nat :=
  (List.range n).filter fun i => l[i]? ≠ some true

theorem countP_empties {l : List Bool} {q : Nat} (h : q ≤ n) :
    (empties l n).countP (· < q) = q - rank l q := by
  obtain ⟨k, rfl⟩ := Nat.exists_eq_add_of_le h
  have hbelow : (List.range q).countP (fun i => decide (i < q) && decide (l[i]? ≠ some true)) =
      (List.range q).countP (fun i => l[i]? ≠ some true) :=
    List.countP_congr fun i hi => by simp [List.mem_range.mp hi]
  have habove : ((List.range k).map (q + ·)).countP
      (fun i => decide (i < q) && decide (l[i]? ≠ some true)) = 0 :=
    List.countP_eq_zero.mpr fun i hi => by
      obtain ⟨j, -, rfl⟩ := List.mem_map.mp hi
      simp
  rw [empties, List.countP_filter, List.range_add, List.countP_append, hbelow, habove]
  have := countP_add_rank l q
  omega

theorem emptyBins_eq (h : n ≤ 32 * occupTable.length) :
    emptyBins occupTable n = some (empties (bits occupTable) n) := by
  have hfold (is : List Nat) (his : ∀ i ∈ is, i < n) (vals : List Nat) :
      is.foldlM (fun vals i => do
        if ← getBit32 occupTable i then return vals else return vals ++ [i]) vals =
        some (vals ++ is.filter fun i => (bits occupTable)[i]? ≠ some true) := by
    induction is generalizing vals with
    | nil =>
      rw [List.filter_nil, List.append_nil]
      rfl
    | cons i is ih =>
      obtain ⟨hi, his⟩ := List.forall_mem_cons.mp his
      have hlt : i < (bits occupTable).length := by
        rw [length_bits]
        omega
      have hget := List.getElem?_eq_getElem hlt
      rw [List.foldlM_cons, getBit32_eq, List.filter_cons, hget]
      cases (bits occupTable)[i] with
      | true => simpa using ih his vals
      | false => simpa using ih his (vals ++ [i])
  exact hfold (List.range n) (fun i hi => List.mem_range.mp hi) []

/-! ## The values of the keys -/

theorem le_last_of_pairwise {vals : List Nat} {last : Nat} (hsorted : vals.Pairwise (· < ·))
    (hlast : vals.getLast? = some last) : vals.length ≤ last + 1 := by
  obtain ⟨init, rfl⟩ := List.getLast?_eq_some_iff.mp hlast
  have hlt : ∀ v ∈ init ++ [last], v < last + 1 := by
    intro v hv
    rcases List.mem_append.mp hv with hv | hv
    · exact Nat.lt_succ_of_lt ((List.pairwise_append.mp hsorted).2.2 v hv last
        (List.mem_singleton_self last))
    · exact Nat.lt_succ_of_le (List.mem_singleton.mp hv).le
  have hnodup : (init ++ [last]).Nodup := hsorted.imp Nat.ne_of_lt
  have hsub := hnodup.subperm fun v hv => List.mem_range.mpr (hlt v hv)
  exact hsub.length_le.trans_eq List.length_range

/-- The packed rank structure has less than `2 ^ 32` bytes. -/
theorem CompressedRank.Holds.length_bytes_lt {cr : CompressedRank} {vals : List Nat}
    (h : cr.Holds vals) : (bytes ([BitVec.ofNat 32 cr.maxVal, BitVec.ofNat 32 cr.n,
      BitVec.ofNat 32 cr.remR, BitVec.ofNat 32 (4 * (selectWords cr.sel).length)] ++
        (selectWords cr.sel ++ cr.valsRems))).length < 2 ^ 32 := by
  obtain ⟨zeros, hsel⟩ := h.sel
  have hlt := h.size
  have hmul := h.mul_remR
  have hquot : cr.maxVal >>> cr.remR ≤ cr.maxVal := Nat.shiftRight_le _ _
  have hm := h.sel_m
  have hn := h.sel_n
  rw [length_bytes, List.length_append, List.length_append, selectWords, List.length_append,
    List.length_append, hsel.length_bitsVec, hsel.length_selectTable, h.length_valsRems]
  dsimp only [List.length_cons, List.length_nil]
  omega

section Built

variable (h : ChdPhBuilt bins keys hl dispTable chdPhf occupTable) (hbins : 1 < bins)

include h hbins

/-- Each bin that is not the bin of a key is empty. -/
theorem ChdPhBuilt.length_empties :
    (empties (bits occupTable) chdPhf.data.n).length + keys.length = chdPhf.data.n := by
  have htaken : ((List.range chdPhf.data.n).filter fun i =>
      (bits occupTable)[i]? = some true).Perm (keys.map (chdPhf.data.bin hl dispTable)) := by
    refine (List.perm_ext_iff_of_nodup (List.nodup_range.filter _) h.nodup_bins).mpr fun q => ?_
    rw [List.mem_filter, List.mem_range, decide_eq_true_iff, h.occupied_bins q]
    refine and_iff_right_of_imp fun hq => ?_
    obtain ⟨key, -, rfl⟩ := List.mem_map.mp hq
    exact (h.bin_lt hbins key).trans_eq h.size
  have hcount := List.length_eq_countP_add_countP (l := List.range chdPhf.data.n)
    fun i => decide ((bits occupTable)[i]? = some true)
  have hlen := htaken.length_eq
  rw [List.length_map, ← List.countP_eq_length_filter] at hlen
  simp only [List.length_range, decide_eq_true_eq] at hcount
  rw [hlen] at hcount
  rw [empties, ← List.countP_eq_length_filter, Nat.add_comm]
  exact hcount.symm

theorem ChdPhBuilt.chd (hbins' : bins < 2 ^ 29) (hroom : keys.length + 3 ≤ bins) :
    ∃ chd, chdOfChdPh keys.length chdPhf occupTable = some chd ∧ chd.size = keys.length ∧
      chd.data.packedCr.length < 2 ^ 32 ∧ ∀ rest rest' key,
        chdSearchTables (chd.data.packedChdPhf ++ rest) (chd.data.packedCr ++ rest') key =
          some (rank (bits occupTable) (chdPhf.data.bin hl dispTable key)) := by
  have hle := h.bins_le
  have hn := h.n_le
  have hlen := h.length_empties hbins
  have hsorted : (empties (bits occupTable) chdPhf.data.n).Pairwise (· < ·) :=
    List.pairwise_lt_range.filter _
  obtain ⟨packed, hpack, hsearch⟩ := h.searchPacked hbins
  have hnvals : u32 ((chdPhf.data.n : Int) - keys.length) =
      (empties (bits occupTable) chdPhf.data.n).length := u32_of_eq (by omega) (by omega)
  obtain ⟨last, hlast⟩ : ∃ last, (empties (bits occupTable) chdPhf.data.n).getLast? = some last :=
    Option.isSome_iff_exists.mp (by
      rw [List.getLast?_isSome]
      exact List.ne_nil_of_length_pos (by omega))
  have htwo := le_last_of_pairwise hsorted hlast
  have hlt : last < chdPhf.data.n :=
    List.mem_range.mp (List.mem_filter.mp (List.mem_of_getLast? hlast)).1
  obtain ⟨cr, hcr, hholds⟩ := compressedRankGenerate_holds (hsorted.imp Nat.le_of_lt) hlast
    (by omega) (by omega)
  have hsize := hholds.length_bytes_lt
  have hdump := hholds.compressedRankDump
  generalize bytes _ = packedCr at hdump hsize
  refine ⟨_, by
    simp only [chdOfChdPh, hpack, hnvals, emptyBins_eq h.separates.room, Option.bind_eq_bind,
      Option.bind_some, if_neg (Nat.lt_irrefl _), Nat.sub_self, List.replicate_zero,
      List.append_nil, hcr, hdump]
    rfl, rfl, hsize, fun rest rest' key => ?_⟩
  have halgo : (words (bytes [chdPhf.algo.toWord] ++ packed ++ rest))[0]? =
      some CmphAlgo.chdPh.toWord := by
    rw [List.append_assoc, words_append, h.algo]
    rfl
  have hcase : CmphAlgo.all[CmphAlgo.chdPh.toWord.toNat]? = some .chdPh := rfl
  have hdrop : (bytes [chdPhf.algo.toWord] ++ packed ++ rest).drop 4 = packed ++ rest := by
    rw [List.append_assoc]
    exact List.drop_left' (length_bytes _)
  have hbin := hsearch rest key
  rw [h.search hbins] at hbin
  have hrank := hholds.compressedRankQueryPacked hdump rest' (chdPhf.data.bin hl dispTable key)
  rw [countP_empties ((h.bin_lt hbins key).le.trans_eq h.size)] at hrank
  have hbelow := countP_add_rank (bits occupTable) (chdPhf.data.bin hl dispTable key)
  simp only [chdSearchTables, halgo, hcase, hdrop, hbin, hrank, Option.bind_eq_bind,
    Option.bind_some, ne_eq, not_true_eq_false, if_false]
  have hbinlt := (h.bin_lt hbins key).trans_eq h.size
  have hn32 := h.n_lt
  exact congrArg some (u32_of_eq (by omega) (by omega))

end Built

section New

variable (hashfunc : CmphHash) (rand : Nat → Nat) (hkeys : keys ≠ []) (hpos : 0 < keysPerBucket)
  (hnb : keys.length / keysPerBucket + 5 ≤ 2 ^ 27) (hroom : keys.length + 3 ≤ bins)
  (hbins : bins < 2 ^ 29) (hmax : maxProbes < 2 ^ 32)

include hkeys hpos hnb hroom hbins hmax

theorem chdNew_spec :
    ∃ res, chdNew keysPerBucket bins maxProbes hashfunc rand keys = some res ∧
      ∀ mphf, res = some mphf → mphf.size = keys.length ∧ mphf.data.packedCr.length < 2 ^ 32 ∧
        ∃ value : Bytes → Nat, (keys.map value).Perm (List.range keys.length) ∧
          ∀ rest rest' key, chdSearchTables (mphf.data.packedChdPhf ++ rest)
            (mphf.data.packedCr ++ rest') key = some (value key) := by
  obtain ⟨res, hrun, -, hbuilt⟩ := chdPhNew_spec hashfunc rand hkeys (by omega) hpos hnb
    (show 1 < bins by omega) (by omega) hmax
  rw [chdNew, hrun, Option.bind_eq_bind, Option.bind_some]
  rcases res with _ | ⟨chdPhf, occupTable⟩
  · exact ⟨none, rfl, by intro _ h; cases h⟩
  obtain ⟨hl, dispTable, h⟩ := hbuilt chdPhf occupTable rfl
  obtain ⟨chd, hchd, hsize, hlen, hvalue⟩ := h.chd (by omega) hbins hroom
  simp only [hchd, Option.bind_eq_bind, Option.bind_some]
  refine ⟨some chd, rfl, ?_⟩
  rintro _ ⟨⟩
  refine ⟨hsize, hlen, fun key => rank (bits occupTable) (chdPhf.data.bin hl dispTable key), ?_,
    hvalue⟩
  have hperm := map_rank_perm h.nodup_bins h.occupied_bins
  have hones := hperm.length_eq
  rw [List.length_map, List.length_map, List.length_range] at hones
  rwa [← hones, List.map_map] at hperm

/-- `chd_new` ends, and the function that it returns is minimal: the values of the keys are the
numbers below their number. -/
theorem chdNew_search :
    ∃ res, chdNew keysPerBucket bins maxProbes hashfunc rand keys = some res ∧
      ∀ mphf, res = some mphf → mphf.size = keys.length ∧
        ∃ vals, keys.mapM (chdSearch mphf.data) = some vals ∧
          vals.Perm (List.range keys.length) := by
  obtain ⟨res, hrun, hres⟩ := chdNew_spec hashfunc rand hkeys hpos hnb hroom hbins hmax
  refine ⟨res, hrun, fun mphf h => ?_⟩
  obtain ⟨hsize, -, value, hperm, hvalue⟩ := hres mphf h
  have hsearch : chdSearch mphf.data = fun key => some (value key) := by
    funext key
    have hkey := hvalue [] [] key
    rwa [List.append_nil, List.append_nil] at hkey
  refine ⟨hsize, keys.map value, ?_, hperm⟩
  rw [hsearch]
  exact List.mapM_pure

/-- The packed function is the function. -/
theorem chdSearchPacked_pack {mphf : CmphT ChdData}
    (h : chdNew keysPerBucket bins maxProbes hashfunc rand keys = some (some mphf))
    (rest key : Bytes) :
    chdSearchPacked (chdPack mphf.data ++ rest) key = chdSearch mphf.data key := by
  obtain ⟨res, hrun, hres⟩ := chdNew_spec hashfunc rand hkeys hpos hnb hroom hbins hmax
  obtain ⟨-, hlen, value, -, hvalue⟩ := hres mphf (Option.some.inj (hrun.symm.trans h))
  have hsearch := hvalue [] [] key
  rw [List.append_nil, List.append_nil] at hsearch
  -- the memory behind the rank structure
  let chdPhf := bytes [BitVec.ofNat 32 mphf.data.packedChdPhf.length] ++
    (mphf.data.packedChdPhf ++ rest)
  have hpacked : chdPack mphf.data ++ rest =
      bytes [BitVec.ofNat 32 mphf.data.packedCr.length] ++ (mphf.data.packedCr ++ chdPhf) := by
    simp only [chdPack, chdPhf, List.append_assoc]
  have hsize : (words (chdPack mphf.data ++ rest))[0]? =
      some (BitVec.ofNat 32 mphf.data.packedCr.length) := by
    rw [hpacked, words_append]
    rfl
  have hptr : (chdPack mphf.data ++ rest).drop 4 = mphf.data.packedCr ++ chdPhf := by
    rw [hpacked]
    exact List.drop_left' (length_bytes _)
  have hphf : (mphf.data.packedCr ++ chdPhf).drop (mphf.data.packedCr.length + 4) =
      mphf.data.packedChdPhf ++ rest := by
    rw [← List.drop_drop, List.drop_left' rfl]
    exact List.drop_left' (length_bytes _)
  rw [chdSearchPacked, hsize, Option.bind_eq_bind, Option.bind_some]
  dsimp only
  rw [hptr, BitVec.toNat_ofNat, Nat.mod_eq_of_lt hlen, hphf, hvalue, chdSearch, hsearch]

end New

theorem chdNew_two : ∃ mphf,
    chdNew 2 5 20 .jenkins (fun k => k) [[0x61], [0x62]] = some (some mphf) := by
  have hsome : (chdNew 2 5 20 .jenkins (fun k => k) [[0x61], [0x62]]).join.isSome := by
    decide +kernel
  obtain ⟨mphf, h⟩ := Option.isSome_iff_exists.mp hsome
  exact ⟨mphf, Option.join_eq_some_iff.mp h⟩

theorem chdNew_search_two : ∃ mphf,
    chdNew 2 5 20 .jenkins (fun k => k) [[0x61], [0x62]] = some (some mphf) ∧ mphf.size = 2 ∧
    ∃ vals, [[0x61], [0x62]].mapM (chdSearch mphf.data) = some vals ∧
      vals.Perm (List.range 2) := by
  obtain ⟨mphf, hnew⟩ := chdNew_two
  obtain ⟨res, hrun, hres⟩ := @chdNew_search 20 5 2 [[0x61], [0x62]] .jenkins (fun k => k)
    (by decide) (by decide) (by decide) (by decide) (by decide) (by decide)
  exact ⟨mphf, hnew, hres mphf (Option.some.inj (hrun.symm.trans hnew))⟩

theorem chdSearchPacked_pack_two : ∃ mphf : CmphT ChdData, ∀ rest key,
    chdSearchPacked (chdPack mphf.data ++ rest) key = chdSearch mphf.data key := by
  obtain ⟨mphf, hnew⟩ := chdNew_two
  exact ⟨mphf, chdSearchPacked_pack .jenkins (fun k => k) (by decide) (by decide) (by decide)
    (by decide) (by decide) (by decide) hnew⟩

end PerfectHash.Cmph
