import PerfectHash.Cmph.CompressedSeq.Generate

/-! # What `compressed_seq_query` finds

A query of a compressed sequence, and of the packed sequence, gives back the value at the index. -/

namespace PerfectHash.Cmph

open BitString RankSelect Codes

variable {vals : List Nat} {v e r idx : Nat} {cs : CompressedSeq}

/-- The end of a code from its high and its low bits. -/
theorem u32_end (hr : r < 32) (he : e < 2 ^ 32) (p : Nat) (hp : (e >>> r) + p < 2 ^ 32) :
    u32 ((u32 ((u32 (((e >>> r + p : Nat) : Int) - p) <<< r : Nat)) : Int) +
      (BitVec.ofNat 32 e &&& mask r).toNat) = e := by
  have hdiv := Nat.div_add_mod' e (2 ^ r)
  have hhigh : u32 (((e >>> r + p : Nat) : Int) - p) = e / 2 ^ r := by
    rw [Nat.shiftRight_eq_div_pow] at hp ⊢
    exact u32_of_eq (by omega) (by omega)
  have hshift : u32 ((e / 2 ^ r) <<< r : Nat) = e / 2 ^ r * 2 ^ r := by
    rw [Nat.shiftLeft_eq]
    exact u32_natCast (by omega)
  rw [hhigh, hshift, toNat_rem hr he]
  exact u32_of_eq he (by rw [← Int.natCast_add, hdiv])

/-- The code of a value in a table that starts with the codes of all of them. -/
theorem getBitsAtPos_value {t : List (BitVec 32)} {rest : List Bool}
    (ht : bits t = vals.flatMap valueCode ++ rest) (hidx : vals[idx]? = some v)
    (hv : v < 2 ^ 32 - 1) (h0 : v ≠ 0) :
    getBitsAtPos t ((vals.take idx).map encLength).sum (encLength v) = some (storedValue v) := by
  have hpos : 0 < encLength v := Nat.pos_of_ne_zero fun h => h0 ((encLength_eq_zero_iff hv).mp h)
  rw [flatMap_of_getElem? _ hidx, List.append_assoc] at ht
  have hfield := getField_append hpos (encLength_lt hv) (storedValue_lt hv) ht
  rwa [length_flatMap_valueCode] at hfield

namespace CompressedSeq.Holds

/-- The end of a code, and what is stored of it. -/
theorem getElem?_ends (hidx : vals[idx]? = some v) :
    (ends 0 (vals.map encLength))[idx]? =
      some (((vals.take idx).map encLength).sum + encLength v) := by
  rw [Codes.getElem?_ends (n := encLength v) (by rw [List.getElem?_map, hidx]; rfl), Nat.zero_add,
    List.map_take]

theorem queryTables (hcs : cs.Holds vals) {lengthRems storeTable : List (BitVec 32)}
    {restRems restStore : List Bool} {selectQuery selectNextQuery : Nat → Option Nat}
    (hquery : ∀ j k, ((ends 0 (vals.map encLength)).map (· >>> cs.remR))[j]? = some k →
      selectQuery j = some (k + j))
    (hnext : ∀ j k k', ((ends 0 (vals.map encLength)).map (· >>> cs.remR))[j]? = some k →
      ((ends 0 (vals.map encLength)).map (· >>> cs.remR))[j + 1]? = some k' →
      selectNextQuery (k + j) = some (k' + (j + 1)))
    (hrems : bits lengthRems =
      (ends 0 (vals.map encLength)).flatMap (remCode cs.remR) ++ restRems)
    (hstore : bits storeTable = vals.flatMap valueCode ++ restStore)
    (hidx : vals[idx]? = some v) :
    compressedSeqQueryTables selectQuery selectNextQuery cs.remR lengthRems storeTable idx =
      some v := by
  have hlt := hcs.size
  have hmul := hcs.mul_remR
  have hv := hcs.bound v (List.mem_of_getElem? hidx)
  have hrem {i e : Nat} (hi : (ends 0 (vals.map encLength))[i]? = some e) :=
    getBitsValue_rems hrems hcs.pos hcs.lt (by rw [length_ends, List.length_map]; omega) hi
  have hle {i e : Nat} (hi : (ends 0 (vals.map encLength))[i]? = some e) :
      i < vals.length ∧ e ≤ (vals.map encLength).sum := by
    have he := le_of_mem_ends (List.mem_of_getElem? hi)
    have hlen := (List.getElem?_eq_some_iff.mp hi).1
    rw [length_ends, List.length_map] at hlen
    exact ⟨hlen, by omega⟩
  have hhigh {i e : Nat} (hi : (ends 0 (vals.map encLength))[i]? = some e) :
      ((ends 0 (vals.map encLength)).map (· >>> cs.remR))[i]? = some (e >>> cs.remR) := by
    rw [List.getElem?_map, hi]
    rfl
  have hend {i e : Nat} (hi : (ends 0 (vals.map encLength))[i]? = some e) :=
    u32_end hcs.lt (e := e) (by have := hle hi; omega) i (by
      have := hle hi
      have := Nat.shiftRight_le e cs.remR
      omega)
  have he := getElem?_ends hidx
  -- the length of the code, and the value
  have hlength (start : Nat) (hstart : start + encLength v ≤ (vals.map encLength).sum) :
      u32 (((start + encLength v : Nat) : Int) - start) = encLength v :=
    u32_of_eq (by omega) (by omega)
  have hvalue (h0 : v ≠ 0) : u32 ((storedValue v).toNat + (mask (encLength v)).toNat : Nat) = v := by
    have hpow := (two_pow_encLength hv).1
    have hpos := Nat.two_pow_pos (encLength v)
    rw [toNat_storedValue hv, toNat_mask (encLength_lt hv)]
    exact u32_of_eq (by omega) (by omega)
  have hfinish (start : Nat) (hstart : start = ((vals.take idx).map encLength).sum) :
      (if u32 (((start + encLength v : Nat) : Int) - start) = 0 then some 0
      else (getBitsAtPos storeTable start (u32 (((start + encLength v : Nat) : Int) - start))).bind
        fun x => some (u32 (x.toNat +
          (mask (u32 (((start + encLength v : Nat) : Int) - start))).toNat : Nat))) = some v := by
    rw [hlength start (by rw [hstart]; exact (hle he).2)]
    by_cases h0 : v = 0
    · rw [if_pos ((encLength_eq_zero_iff hv).mpr h0), h0]
    · rw [if_neg fun h => h0 ((encLength_eq_zero_iff hv).mp h), hstart,
        getBitsAtPos_value hstore hidx hv h0, Option.bind_some, hvalue h0]
  cases idx with
  | zero =>
    have hstart : ((vals.take 0).map encLength).sum = 0 := rfl
    rw [hstart] at he
    simp only [compressedSeqQueryTables, if_pos, hquery 0 _ (hhigh he), Option.bind_eq_bind,
      Option.bind_some, Option.pure_def, hrem he, hend he]
    exact hfinish 0 rfl
  | succ i =>
    have hi : i < vals.length := by
      have := (hle he).1
      omega
    have he' := getElem?_ends (List.getElem?_eq_getElem hi)
    have hstart : ((vals.take i).map encLength).sum + encLength vals[i] =
        ((vals.take (i + 1)).map encLength).sum := by
      rw [List.take_succ_eq_append_getElem hi, List.map_append, List.sum_append]
      rfl
    rw [hstart] at he'
    simp only [compressedSeqQueryTables, if_neg (Nat.succ_ne_zero i), Nat.add_sub_cancel,
      hquery i _ (hhigh he'), hnext i _ _ (hhigh he') (hhigh he), Option.bind_eq_bind,
      Option.bind_some, Option.pure_def, hrem he, hend he, hrem he', hend he']
    exact hfinish _ rfl

theorem compressedSeqQuery (hcs : cs.Holds vals) (hidx : vals[idx]? = some v) :
    compressedSeqQuery cs idx = some v := by
  obtain ⟨zeros, hsel⟩ := hcs.sel
  obtain ⟨restRems, hrems⟩ := hcs.lengthRems
  obtain ⟨restStore, hstore⟩ := hcs.storeTable
  have hi : idx < cs.n := by
    rw [hcs.n]
    exact (List.getElem?_eq_some_iff.mp hidx).1
  have hsorted := pairwise_high cs.remR (vals.map encLength)
  rw [Cmph.compressedSeqQuery, if_pos hi]
  exact hcs.queryTables (fun j k hj => hsel.selectQuery (select_unary hsorted hj _))
    (fun j k k' hj hj' => hsel.selectNextQuery (select_unary hsorted hj _)
      (select_unary hsorted hj' _)) hrems hstore hidx

/-! ## The packed structure -/

theorem bitsTableSize (hcs : cs.Holds vals) :
    Cmph.bitsTableSize cs.n cs.remR = cs.lengthRems.length := by
  have hlt := hcs.size
  have hmul := hcs.mul_remR
  have hbits : u32 ((vals.length : Int) * cs.remR + 31) = vals.length * cs.remR + 31 :=
    u32_of_eq (by omega) (by push_cast; rfl)
  rw [hcs.length_lengthRems, Cmph.bitsTableSize, hcs.n, shiftRight_five, hbits]

/-- The bytes that are packed. -/
theorem compressedSeqDump (hcs : cs.Holds vals) : compressedSeqDump cs =
    some (bytes ([BitVec.ofNat 32 cs.n, BitVec.ofNat 32 cs.remR, BitVec.ofNat 32 cs.totalLength,
      BitVec.ofNat 32 (4 * (selectWords cs.sel).length)] ++
        (selectWords cs.sel ++ (cs.lengthRems ++ cs.storeTable)))) := by
  obtain ⟨zeros, hsel⟩ := hcs.sel
  have hlt := hcs.size
  have hmul := hcs.mul_remR
  have hremsSize : u32 (Cmph.bitsTableSize cs.n cs.remR * 4) = (bytes cs.lengthRems).length := by
    rw [length_bytes, hcs.bitsTableSize, Nat.mul_comm]
    have hlen := hcs.length_lengthRems
    exact u32_of_eq (by omega) (by push_cast; rfl)
  have htotal : u32 ((cs.totalLength : Int) + 31) = (vals.map encLength).sum + 31 := by
    rw [hcs.totalLength]
    exact u32_of_eq (by omega) (by push_cast; rfl)
  have hstoreSize : u32 ((u32 (cs.totalLength + 31) >>> 5 : Nat) * 4) =
      (bytes cs.storeTable).length := by
    rw [length_bytes, hcs.length_storeTable, shiftRight_five, htotal, Nat.mul_comm]
    exact u32_of_eq (by omega) (by push_cast; rfl)
  simp only [Cmph.compressedSeqDump, hremsSize, hstoreSize, hsel.selectDump, memcpy_length,
    Option.bind_eq_bind, Option.bind_some]
  rw [length_bytes, bytes_append, bytes_append, bytes_append, List.append_assoc,
    List.append_assoc]
  rfl

theorem compressedSeqQueryPacked (hcs : cs.Holds vals) (hidx : vals[idx]? = some v) {buf : Bytes}
    (hbuf : Cmph.compressedSeqDump cs = some buf) (rest : Bytes) :
    compressedSeqQueryPacked (buf ++ rest) idx = some v := by
  rw [hcs.compressedSeqDump] at hbuf
  cases hbuf
  obtain ⟨zeros, hsel⟩ := hcs.sel
  obtain ⟨restRems, hrems⟩ := hcs.lengthRems
  obtain ⟨restStore, hstore⟩ := hcs.storeTable
  have hsorted := pairwise_high cs.remR (vals.map encLength)
  have hlt := hcs.size
  have hr := hcs.lt
  have hsellen := hsel.length_selectWords
  have hwords : words (bytes ([BitVec.ofNat 32 cs.n, BitVec.ofNat 32 cs.remR,
      BitVec.ofNat 32 cs.totalLength, BitVec.ofNat 32 (4 * (selectWords cs.sel).length)] ++
        (selectWords cs.sel ++ (cs.lengthRems ++ cs.storeTable))) ++ rest) =
      [BitVec.ofNat 32 cs.n, BitVec.ofNat 32 cs.remR, BitVec.ofNat 32 cs.totalLength,
        BitVec.ofNat 32 (4 * (selectWords cs.sel).length)] ++
          (selectWords cs.sel ++ (cs.lengthRems ++ (cs.storeTable ++ words rest))) := by
    rw [words_append, List.append_assoc, List.append_assoc, List.append_assoc]
  have hdrop : (bytes ([BitVec.ofNat 32 cs.n, BitVec.ofNat 32 cs.remR,
      BitVec.ofNat 32 cs.totalLength, BitVec.ofNat 32 (4 * (selectWords cs.sel).length)] ++
        (selectWords cs.sel ++ (cs.lengthRems ++ cs.storeTable))) ++ rest).drop 16 =
      bytes (selectWords cs.sel) ++ (bytes (cs.lengthRems ++ cs.storeTable) ++ rest) := by
    rw [bytes_append, List.append_assoc, List.drop_left' (by rw [length_bytes]; rfl), bytes_append,
      List.append_assoc]
  generalize bytes _ ++ rest = buf at hwords hdrop ⊢
  have hn : (BitVec.ofNat 32 cs.n).toNat = cs.n := by
    rw [BitVec.toNat_ofNat, Nat.mod_eq_of_lt (by rw [hcs.n]; omega)]
  have hremR : (BitVec.ofNat 32 cs.remR).toNat = cs.remR := by
    rw [BitVec.toNat_ofNat, Nat.mod_eq_of_lt (by omega)]
  have hbuflen : (BitVec.ofNat 32 (4 * (selectWords cs.sel).length)).toNat >>> 2 =
      (selectWords cs.sel).length := by
    rw [BitVec.toNat_ofNat, Nat.mod_eq_of_lt hsellen, Nat.shiftRight_eq_div_pow]
    exact Nat.mul_div_cancel_left _ (by decide)
  have hget0 : (words buf)[0]? = some (BitVec.ofNat 32 cs.n) := by
    rw [hwords]
    rfl
  have hget1 : (words buf)[1]? = some (BitVec.ofNat 32 cs.remR) := by
    rw [hwords]
    rfl
  have hget3 : (words buf)[3]? = some (BitVec.ofNat 32 (4 * (selectWords cs.sel).length)) := by
    rw [hwords]
    rfl
  have hremsTable : (words buf).drop (4 + (selectWords cs.sel).length) =
      cs.lengthRems ++ (cs.storeTable ++ words rest) := by
    rw [hwords, ← List.append_assoc, List.drop_left' ?_]
    rw [List.length_append]
    rfl
  simp only [Cmph.compressedSeqQueryPacked, hget0, hget1, hget3, Option.bind_eq_bind,
    Option.bind_some, hn, hremR, hbuflen, hremsTable, hcs.bitsTableSize, hdrop,
    List.drop_left' rfl]
  have hrems' : bits (cs.lengthRems ++ (cs.storeTable ++ words rest)) =
      (ends 0 (vals.map encLength)).flatMap (remCode cs.remR) ++
        (List.replicate restRems false ++ bits (cs.storeTable ++ words rest)) := by
    rw [bits_append, hrems, List.append_assoc]
  have hstore' : bits (cs.storeTable ++ words rest) = vals.flatMap valueCode ++
      (List.replicate restStore false ++ bits (words rest)) := by
    rw [bits_append, hstore, List.append_assoc]
  refine hcs.queryTables (fun j k hj => ?_) (fun j k k' hj hj' => ?_) hrems' hstore' hidx
  · exact hsel.selectQueryPacked (select_unary hsorted hj _) hsel.selectDump _
  · exact hsel.selectNextQueryPacked (select_unary hsorted hj _) (select_unary hsorted hj' _)
      hsel.selectDump _

end CompressedSeq.Holds

/-- A generated sequence gives back every value, and so does the packed sequence. -/
theorem compressedSeqGenerate_query (hne : vals ≠ []) (hvals : ∀ v ∈ vals, v < 2 ^ 32 - 1)
    (hsize : vals.length + (vals.map encLength).sum + 128 ≤ 2 ^ 32) :
    ∃ cs buf, compressedSeqGenerate vals = some cs ∧ compressedSeqDump cs = some buf ∧
      ∀ idx v, vals[idx]? = some v → compressedSeqQuery cs idx = some v ∧
        ∀ rest, compressedSeqQueryPacked (buf ++ rest) idx = some v := by
  obtain ⟨cs, hgen, hcs⟩ := compressedSeqGenerate_holds hne hvals hsize
  exact ⟨cs, _, hgen, hcs.compressedSeqDump, fun idx v hidx => ⟨hcs.compressedSeqQuery hidx,
    fun rest => hcs.compressedSeqQueryPacked hidx hcs.compressedSeqDump rest⟩⟩

theorem compressedSeqGenerate_query_three : ∃ cs buf,
    compressedSeqGenerate [6, 0, 1] = some cs ∧ compressedSeqDump cs = some buf ∧
      compressedSeqQuery cs 0 = some 6 ∧ compressedSeqQueryPacked buf 2 = some 1 := by
  have hlength : [6, 0, 1].map encLength = [2, 0, 1] := by
    simp [encLength, iLog2, u32]
  obtain ⟨cs, buf, hgen, hdump, hquery⟩ := @compressedSeqGenerate_query
    [6, 0, 1] (by decide) (by decide) (by rw [hlength]; decide)
  have hpacked := (hquery 2 1 rfl).2 []
  rw [List.append_nil] at hpacked
  exact ⟨cs, buf, hgen, hdump, (hquery 0 6 rfl).1, hpacked⟩

end PerfectHash.Cmph
