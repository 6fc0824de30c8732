import PerfectHash.Cmph.CompressedRank.Generate

/-! # What `compressed_rank_query` finds

A query of a compressed rank structure, and of the packed structure, counts the values that are less
than the number. -/

namespace PerfectHash.Cmph

open BitString RankSelect Codes

variable {vals : List Nat} {cr : CompressedRank} {idx v r q k : Nat}

/-- A value with the quotient of a number is less when its low bits are. -/
theorem lt_iff_rem (hq : v >>> r = idx >>> r) : v < idx ↔ v % 2 ^ r < idx % 2 ^ r := by
  rw [Nat.shiftRight_eq_div_pow, Nat.shiftRight_eq_div_pow] at hq
  have hv := Nat.div_add_mod v (2 ^ r)
  have hidx := Nat.div_add_mod idx (2 ^ r)
  rw [hq] at hv
  omega

theorem lt_of_shiftRight_lt (hq : v >>> r < idx >>> r) : v < idx := by
  by_contra h
  have := shiftRight_mono r (Nat.le_of_not_lt h)
  omega

/-- The values before the rank are less. -/
theorem lt_rank_iff (hsorted : vals.Pairwise (· ≤ ·)) (hk : vals[k]? = some v) :
    k < vals.countP (· < idx) ↔ v < idx := by
  rw [lt_countP_iff (x := v) (hsorted.imp fun hab hb => ?_) hk, decide_eq_true_iff]
  exact decide_eq_true (hab.trans_lt (of_decide_eq_true hb))

/-- The rank is among the values with the quotient. -/
theorem smaller_le_rank (vals : List Nat) (r idx : Nat) :
    smaller r vals (idx >>> r) ≤ vals.countP (· < idx) :=
  List.countP_mono_left fun _ _ h => decide_eq_true (lt_of_shiftRight_lt (of_decide_eq_true h))

theorem rank_le_smaller (vals : List Nat) (r idx : Nat) :
    vals.countP (· < idx) ≤ smaller r vals (idx >>> r + 1) :=
  List.countP_mono_left fun _ _ h => decide_eq_true (Nat.lt_succ_of_le
    (shiftRight_mono r (Nat.le_of_lt (of_decide_eq_true h))))

namespace CompressedRank.Holds

/-- The bit for a value in the part of a quotient, or the one behind the part. -/
theorem getElem?_bit (z : Nat) (hle : smaller r vals q ≤ k) (hle' : k ≤ smaller r vals (q + 1))
    (maxVal : Nat) :
    (unary 0 (selectVec r maxVal vals) ++ List.replicate z false)[k + q]? = some true ↔
      q < maxVal >>> r ∧ k = smaller r vals (q + 1) := by
  rw [getElem?_unary_iff (pairwise_selectVec r maxVal vals)]
  constructor
  · rintro ⟨j, k', hj, hk⟩
    obtain ⟨hjlt, rfl⟩ := getElem?_selectVec.mp hj
    rcases Nat.lt_trichotomy j q with h | rfl | h
    · have := smaller_mono r vals (show j + 1 ≤ q from h)
      omega
    · exact ⟨hjlt, by omega⟩
    · have := smaller_mono r vals (show q + 1 ≤ j + 1 by omega)
      omega
  · rintro ⟨hq, rfl⟩
    exact ⟨q, _, getElem?_selectVec.mpr ⟨hq, rfl⟩, rfl⟩

theorem le_maxVal (hcr : cr.Holds vals) (hv : v ∈ vals) : v ≤ cr.maxVal := by
  obtain ⟨init, rfl⟩ := List.getLast?_eq_some_iff.mp hcr.maxVal
  rcases List.mem_append.mp hv with hv | hv
  · exact (List.pairwise_append.mp hcr.sorted).2.2 v hv _ List.mem_cons_self
  · rw [List.mem_singleton.mp hv]

variable {bitsVec valsRems : List (BitVec 32)} {restBits restRems : List Bool}

/-- The loop stops at the rank. -/
theorem rankLoop (hcr : cr.Holds vals) {zeros turns : Nat}
    (hbits : bits bitsVec = unary 0 (selectVec cr.remR cr.maxVal vals) ++
      List.replicate zeros false ++ restBits)
    (hlen : vals.length + cr.maxVal >>> cr.remR ≤
      (unary 0 (selectVec cr.remR cr.maxVal vals) ++ List.replicate zeros false).length)
    (hrems : bits valsRems = vals.flatMap (remCode cr.remR) ++ restRems)
    (hidx : idx ≤ cr.maxVal) (hle : smaller cr.remR vals (idx >>> cr.remR) ≤ k)
    (hle' : k ≤ vals.countP (· < idx)) (hturns : vals.countP (· < idx) < turns + k) :
    rankLoop bitsVec valsRems cr.remR (mask cr.remR)
      (BitVec.ofNat 32 idx &&& mask cr.remR).toNat turns (k + idx >>> cr.remR) k =
        some (vals.countP (· < idx)) := by
  have hsize := hcr.size
  have hlast : vals[vals.length - 1]? = some cr.maxVal := by
    rw [← List.getLast?_eq_getElem?, hcr.maxVal]
  have hn := (List.getElem?_eq_some_iff.mp hlast).1
  have hrank := mt (lt_rank_iff hcr.sorted hlast).mp (Nat.not_lt.mpr hidx)
  have hq := shiftRight_mono cr.remR hidx
  have hshift := Nat.shiftRight_le cr.maxVal cr.remR
  have hsucc := rank_le_smaller vals cr.remR idx
  induction turns generalizing k with
  | zero => omega
  | succ turns ih =>
    have hk : k < vals.length := by omega
    have hbit : getBit32 bitsVec (k + idx >>> cr.remR) = (unary 0 (selectVec cr.remR cr.maxVal vals) ++
        List.replicate zeros false)[k + idx >>> cr.remR]? := by
      rw [getBit32_eq, hbits, List.getElem?_append_left (by omega)]
    have hiff := getElem?_bit zeros hle (hle'.trans hsucc) cr.maxVal
    rw [List.getElem?_eq_getElem (by omega)] at hbit hiff
    rw [Cmph.rankLoop, hbit, Option.bind_eq_bind, Option.bind_some]
    split
    · rename_i htrue
      obtain ⟨-, hend⟩ := hiff.mp (congrArg some htrue)
      exact congrArg some (by omega)
    · rename_i hfalse
      have hv := List.getElem?_eq_getElem hk
      have hvmax : k < smaller cr.remR vals (idx >>> cr.remR + 1) := by
        by_cases hlt : idx >>> cr.remR < cr.maxVal >>> cr.remR
        · have hne := mt (fun h => Option.some.inj (hiff.mpr ⟨hlt, h⟩)) hfalse
          omega
        · have hall := (lt_smaller_iff (r := cr.remR) (q := idx >>> cr.remR + 1) hcr.sorted
            hlast).mpr (by omega)
          omega
      have hquot : vals[k] >>> cr.remR = idx >>> cr.remR := by
        have hlow := mt (lt_smaller_iff hcr.sorted hv).mpr (Nat.not_lt.mpr hle)
        have hhigh := (lt_smaller_iff hcr.sorted hv).mp hvmax
        omega
      have hlt := (lt_rank_iff hcr.sorted hv).trans (lt_iff_rem hquot)
      have hvle : vals[k] < 2 ^ 32 := by
        have := hcr.le_maxVal (List.getElem_mem hk)
        omega
      rw [getBitsValue_rems hrems hcr.pos hcr.lt (by have := hcr.mul_remR; omega) hv,
        Option.bind_eq_bind, Option.bind_some, toNat_rem hcr.lt hvle,
        toNat_rem hcr.lt (show idx < 2 ^ 32 by omega)]
      split
      · rename_i hge
        have := mt hlt.mp (Nat.not_lt.mpr hge)
        exact congrArg some (by omega)
      · rename_i hlt'
        have := hlt.mpr (Nat.lt_of_not_le hlt')
        rw [u32_of_eq (n := k + 1 + idx >>> cr.remR) (by omega) (by push_cast; omega),
          u32_of_eq (n := k + 1) (by omega) (by push_cast; rfl)]
        have hrec := ih (k := k + 1) (by omega) (by omega) (by omega)
        rwa [toNat_rem hcr.lt (by omega)] at hrec

theorem queryTables (hcr : cr.Holds vals) {zeros : Nat} {selectQuery : Nat → Option Nat}
    (hquery : ∀ j k, (selectVec cr.remR cr.maxVal vals)[j]? = some k → selectQuery j = some (k + j))
    (hbits : bits bitsVec = unary 0 (selectVec cr.remR cr.maxVal vals) ++
      List.replicate zeros false ++ restBits)
    (hlen : vals.length + cr.maxVal >>> cr.remR ≤
      (unary 0 (selectVec cr.remR cr.maxVal vals) ++ List.replicate zeros false).length)
    (hrems : bits valsRems = vals.flatMap (remCode cr.remR) ++ restRems) (idx : Nat) :
    compressedRankQueryTables selectQuery cr.maxVal cr.n cr.remR bitsVec valsRems idx =
      some (vals.countP (· < idx)) := by
  by_cases hidx : idx > cr.maxVal
  · have hall : vals.countP (· < idx) = vals.length := List.countP_eq_length.mpr fun v hv =>
      decide_eq_true ((hcr.le_maxVal hv).trans_lt hidx)
    rw [compressedRankQueryTables, if_pos hidx, hall, hcr.n]
    rfl
  · have hsize := hcr.size
    have hq := shiftRight_mono cr.remR (Nat.le_of_not_lt hidx)
    have hshift := Nat.shiftRight_le cr.maxVal cr.remR
    have hle := smaller_le_rank vals cr.remR idx
    have hlen' := congrArg List.length hbits
    rw [length_bits, List.length_append] at hlen'
    have hvals := Nat.le_trans (Nat.le_add_right _ _) hlen
    have hcount : vals.countP (· < idx) ≤ vals.length := List.countP_le_length
    have hturns : vals.countP (· < idx) <
        32 * bitsVec.length + 1 + smaller cr.remR vals (idx >>> cr.remR) := by omega
    have hloop := hcr.rankLoop hbits hlen hrems (Nat.le_of_not_lt hidx) (Nat.le_refl _) hle hturns
    rw [compressedRankQueryTables, if_neg hidx]
    dsimp only
    generalize idx >>> cr.remR = q at hq hle hloop ⊢
    by_cases h0 : q = 0
    · have hsmaller : smaller cr.remR vals 0 = 0 :=
        List.countP_eq_zero.mpr fun v _ => by simp
      rw [h0, hsmaller] at hloop
      rw [if_pos h0]
      exact hloop
    · have hsmaller := smaller_le cr.remR vals q
      have hsel := hquery (q - 1) _ (getElem?_selectVec.mpr ⟨by omega, rfl⟩)
      rw [Nat.sub_add_cancel (Nat.pos_of_ne_zero h0)] at hsel
      have hselRes : u32 (((smaller cr.remR vals q + (q - 1) : Nat) : Int) + 1) =
          smaller cr.remR vals q + q := u32_of_eq (by omega) (by omega)
      have hrank : u32 (((smaller cr.remR vals q + q : Nat) : Int) - (q : Nat)) =
          smaller cr.remR vals q := u32_of_eq (by omega) (by omega)
      simp only [if_neg h0, hsel, hselRes, hrank, Option.pure_def, Option.bind_eq_bind,
        Option.bind_some]
      exact hloop

/-- There is a bit for each value and each quotient. -/
theorem length_bits {l : List Bool} (hcr : cr.Holds vals) (hsel : cr.sel.Holds l) :
    vals.length + cr.maxVal >>> cr.remR ≤ l.length := by
  rw [← hsel.bits, BitString.length_bits, hsel.length_bitsVec, hcr.sel_n, hcr.sel_m]
  omega

theorem compressedRankQuery (hcr : cr.Holds vals) (idx : Nat) :
    compressedRankQuery cr idx = some (vals.countP (· < idx)) := by
  obtain ⟨zeros, hsel⟩ := hcr.sel
  obtain ⟨restRems, hrems⟩ := hcr.valsRems
  have hbits : bits cr.sel.bitsVec =
      unary 0 (selectVec cr.remR cr.maxVal vals) ++ List.replicate zeros false ++ [] := by
    rw [hsel.bits, List.append_nil]
  exact hcr.queryTables (fun j k hj => hsel.selectQuery (select_unary
    (pairwise_selectVec _ _ _) hj _)) hbits (hcr.length_bits hsel) hrems idx

/-! ## The packed structure -/

theorem bitsTableSize (hcr : cr.Holds vals) :
    Cmph.bitsTableSize cr.n cr.remR = cr.valsRems.length := by
  have hlt := hcr.size
  have hmul := hcr.mul_remR
  have hbits : u32 ((vals.length : Int) * cr.remR + 31) = vals.length * cr.remR + 31 :=
    u32_of_eq (by omega) (by push_cast; rfl)
  rw [hcr.length_valsRems, Cmph.bitsTableSize, hcr.n, shiftRight_five, hbits]

/-- The bytes that are packed. -/
theorem compressedRankDump (hcr : cr.Holds vals) : compressedRankDump cr =
    some (bytes ([BitVec.ofNat 32 cr.maxVal, BitVec.ofNat 32 cr.n, BitVec.ofNat 32 cr.remR,
      BitVec.ofNat 32 (4 * (selectWords cr.sel).length)] ++
        (selectWords cr.sel ++ cr.valsRems))) := by
  obtain ⟨zeros, hsel⟩ := hcr.sel
  have hlt := hcr.size
  have hmul := hcr.mul_remR
  have hremsSize : u32 (Cmph.bitsTableSize cr.n cr.remR * 4) = (bytes cr.valsRems).length := by
    rw [length_bytes, hcr.bitsTableSize, Nat.mul_comm]
    have hlen := hcr.length_valsRems
    exact u32_of_eq (by omega) (by push_cast; rfl)
  simp only [Cmph.compressedRankDump, hremsSize, hsel.selectDump, memcpy_length,
    Option.bind_eq_bind, Option.bind_some]
  rw [length_bytes, bytes_append, bytes_append, List.append_assoc]
  rfl

theorem compressedRankQueryPacked (hcr : cr.Holds vals) {buf : Bytes}
    (hbuf : Cmph.compressedRankDump cr = some buf) (rest : Bytes) (idx : Nat) :
    compressedRankQueryPacked (buf ++ rest) idx = some (vals.countP (· < idx)) := by
  rw [hcr.compressedRankDump] at hbuf
  cases hbuf
  obtain ⟨zeros, hsel⟩ := hcr.sel
  obtain ⟨restRems, hrems⟩ := hcr.valsRems
  have hlt := hcr.size
  have hr := hcr.lt
  have hsellen := hsel.length_selectWords
  have hwords : words (bytes ([BitVec.ofNat 32 cr.maxVal, BitVec.ofNat 32 cr.n,
      BitVec.ofNat 32 cr.remR, BitVec.ofNat 32 (4 * (selectWords cr.sel).length)] ++
        (selectWords cr.sel ++ cr.valsRems)) ++ rest) =
      [BitVec.ofNat 32 cr.maxVal, BitVec.ofNat 32 cr.n, BitVec.ofNat 32 cr.remR,
        BitVec.ofNat 32 (4 * (selectWords cr.sel).length)] ++
          (selectWords cr.sel ++ (cr.valsRems ++ words rest)) := by
    rw [words_append, List.append_assoc, List.append_assoc]
  have hdrop : (bytes ([BitVec.ofNat 32 cr.maxVal, BitVec.ofNat 32 cr.n,
      BitVec.ofNat 32 cr.remR, BitVec.ofNat 32 (4 * (selectWords cr.sel).length)] ++
        (selectWords cr.sel ++ cr.valsRems)) ++ rest).drop 16 =
      bytes (selectWords cr.sel) ++ (bytes cr.valsRems ++ rest) := by
    rw [bytes_append, List.append_assoc, List.drop_left' (by rw [length_bytes]; rfl), bytes_append,
      List.append_assoc]
  generalize bytes _ ++ rest = buf at hwords hdrop ⊢
  have hn : (BitVec.ofNat 32 cr.n).toNat = cr.n := by
    rw [BitVec.toNat_ofNat, Nat.mod_eq_of_lt (by rw [hcr.n]; omega)]
  have hmaxVal : (BitVec.ofNat 32 cr.maxVal).toNat = cr.maxVal := by
    rw [BitVec.toNat_ofNat, Nat.mod_eq_of_lt (by omega)]
  have hremR : (BitVec.ofNat 32 cr.remR).toNat = cr.remR := by
    rw [BitVec.toNat_ofNat, Nat.mod_eq_of_lt (by omega)]
  have hbuflen : (BitVec.ofNat 32 (4 * (selectWords cr.sel).length)).toNat >>> 2 =
      (selectWords cr.sel).length := by
    rw [BitVec.toNat_ofNat, Nat.mod_eq_of_lt hsellen, Nat.shiftRight_eq_div_pow]
    exact Nat.mul_div_cancel_left _ (by decide)
  have hget (i : Nat) (hi : i < 4) : (words buf)[i]? =
      [BitVec.ofNat 32 cr.maxVal, BitVec.ofNat 32 cr.n, BitVec.ofNat 32 cr.remR,
        BitVec.ofNat 32 (4 * (selectWords cr.sel).length)][i]? := by
    rw [hwords, List.getElem?_append_left hi]
  have hremsTable : (words buf).drop (4 + (selectWords cr.sel).length) =
      cr.valsRems ++ words rest := by
    rw [hwords, ← List.append_assoc, List.drop_left' ?_]
    rw [List.length_append]
    rfl
  have hbitsTable : (words buf).drop 6 =
      cr.sel.bitsVec ++ (cr.sel.selectTable ++ (cr.valsRems ++ words rest)) := by
    rw [hwords, selectWords, List.append_assoc, List.append_assoc]
    rfl
  simp only [Cmph.compressedRankQueryPacked, hget, Nat.reduceLT, List.getElem?_cons_zero,
    List.getElem?_cons_succ, Option.bind_eq_bind, Option.bind_some, hn, hmaxVal, hremR, hbuflen,
    hremsTable, hbitsTable, hdrop]
  have hbits' : bits (cr.sel.bitsVec ++ (cr.sel.selectTable ++ (cr.valsRems ++ words rest))) =
      unary 0 (selectVec cr.remR cr.maxVal vals) ++ List.replicate zeros false ++
        bits (cr.sel.selectTable ++ (cr.valsRems ++ words rest)) := by
    rw [bits_append, hsel.bits]
  have hrems' : bits (cr.valsRems ++ words rest) = vals.flatMap (remCode cr.remR) ++
      (List.replicate restRems false ++ bits (words rest)) := by
    rw [bits_append, hrems, List.append_assoc]
  exact hcr.queryTables (fun j k hj => hsel.selectQueryPacked (select_unary
    (pairwise_selectVec _ _ _) hj _) hsel.selectDump _) hbits' (hcr.length_bits hsel) hrems' idx

end CompressedRank.Holds

/-- A query counts the values that are less than the number, also in the packed structure. -/
theorem compressedRankGenerate_query {maxVal : Nat} (hsorted : vals.Pairwise (· ≤ ·))
    (hmax : vals.getLast? = some maxVal) (htwo : 2 ≤ maxVal)
    (hsize : vals.length + maxVal + 128 ≤ 2 ^ 32) :
    ∃ cr buf, compressedRankGenerate vals = some cr ∧ compressedRankDump cr = some buf ∧
      ∀ idx, compressedRankQuery cr idx = some (vals.countP (· < idx)) ∧
        ∀ rest, compressedRankQueryPacked (buf ++ rest) idx = some (vals.countP (· < idx)) := by
  obtain ⟨cr, hgen, hcr⟩ := compressedRankGenerate_holds hsorted hmax htwo hsize
  exact ⟨cr, _, hgen, hcr.compressedRankDump, fun idx => ⟨hcr.compressedRankQuery idx,
    fun rest => hcr.compressedRankQueryPacked hcr.compressedRankDump rest idx⟩⟩

theorem compressedRankGenerate_query_three : ∃ cr buf, compressedRankGenerate [2, 5, 9] = some cr ∧
    compressedRankDump cr = some buf ∧ compressedRankQuery cr 5 = some 1 ∧
      compressedRankQueryPacked (buf ++ [1]) 7 = some 2 := by
  obtain ⟨cr, buf, hgen, hdump, hquery⟩ := @compressedRankGenerate_query
    [2, 5, 9] 9 (by decide) rfl (by decide) (by decide)
  exact ⟨cr, buf, hgen, hdump, (hquery 5).1, (hquery 7).2 [1]⟩

end PerfectHash.Cmph
