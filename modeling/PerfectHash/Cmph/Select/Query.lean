import PerfectHash.Cmph.Select.Generate

/-! # What `select_query` finds

The queries of a structure that stores a bit string give the positions of its ones, and so do the
queries of the packed structure. -/

namespace PerfectHash.Cmph

open BitString RankSelect

variable {s : Select} {l : List Bool} {bitsTable : Bytes} {j k p P m : Nat} {keysVec : List Nat}

theorem rankLookup_and (b : UInt8) (hk : k < 8) :
    rankLookup (b &&& UInt8.ofNat (1 <<< k - 1)) = ones ((word 8 b.toBitVec).take k) := by
  have main : ∀ (x : BitVec 8) (k : Fin 8),
      rankLookupTable.getD (x &&& BitVec.ofNat 8 (1 <<< (k : Nat) - 1)).toNat 0 =
        ones ((word 8 x).take k) := by
    decide +kernel
  exact main b.toBitVec ⟨k, hk⟩

/-- The ones of the byte of a one that are before it. -/
theorem exists_byte (hP : select (byteBits bitsTable) j = some P) :
    ∃ b, bitsTable[P / 8]? = some b ∧
      rank (byteBits bitsTable) (8 * (P / 8)) +
        rankLookup (b &&& UInt8.ofNat (1 <<< (P % 8) - 1)) = j := by
  have hlt := lt_of_select hP
  rw [length_byteBits] at hlt
  have hbyte : P / 8 < bitsTable.length := by omega
  refine ⟨_, List.getElem?_eq_getElem hbyte, ?_⟩
  have hmod : P % 8 < 8 := Nat.mod_lt _ (by decide)
  have hlast (x : BitVec 8) (rest : List Bool) :
      rank (word 8 x ++ rest) (P % 8) = ones ((word 8 x).take (P % 8)) := by
    rw [rank, List.take_append_of_le_length (by rw [length_word]; omega)]
  have hadd := rank_add (byteBits bitsTable) (8 * (P / 8)) (P % 8)
  rw [Nat.div_add_mod, rank_of_select hP, ← byteBits_drop, List.drop_eq_getElem_cons hbyte,
    byteBits_cons, hlast] at hadd
  rw [rankLookup_and _ hmod, hadd]

/-- Counting from the byte of a one on finds the ones behind it. -/
theorem scanOnes_from {i : Nat} (hP : select (byteBits bitsTable) i = some P)
    (hsel : select (byteBits bitsTable) j = some p) (hij : i ≤ j) (hj : j + 8 < 2 ^ 32)
    (hp : p < 2 ^ 32) :
    (scanOnes (j - rank (byteBits bitsTable) (8 * (P / 8))) (bitsTable.drop (P / 8)) (P / 8)
      0).map Prod.fst = some p := by
  obtain ⟨b, -, hrank⟩ := exists_byte hP
  obtain ⟨hle, hdrop⟩ := select_drop hsel
    (show rank (byteBits bitsTable) (8 * (P / 8)) ≤ j by omega)
  rw [← byteBits_drop] at hdrop
  have hscan := @scanOnes_spec _ _ _ (P / 8) 0 hdrop (by omega) (by omega)
  rw [Nat.zero_add] at hscan
  rw [hscan, Option.map_some, Nat.add_sub_cancel' hle]

theorem selectQueryTable_eq {selectTable : List (BitVec 32)}
    (hP : select (byteBits bitsTable) (128 * (j / 128)) = some P)
    (hget : selectTable[j / 128]? = some (BitVec.ofNat 32 P)) (hPlt : P < 2 ^ 32)
    (hsel : select (byteBits bitsTable) j = some p) (hp : p < 2 ^ 32) (hj : j + 16 < 2 ^ 32) :
    selectQueryTable bitsTable selectTable j = some p := by
  obtain ⟨b, hb, hrank⟩ := exists_byte hP
  have hword : (BitVec.ofNat 32 P).toNat = P := by
    rw [BitVec.toNat_ofNat, Nat.mod_eq_of_lt hPlt]
  have hidx : u32 (((j % 128 : Nat) : Int) + rankLookup (b &&& UInt8.ofNat (1 <<< (P % 8) - 1))) =
      j - rank (byteBits bitsTable) (8 * (P / 8)) := u32_of_eq (by omega) (by omega)
  have hscan := scanOnes_from hP hsel (by omega) (by omega) hp
  have hmod : j &&& 0x7f = j % 128 := Nat.and_two_pow_sub_one_eq_mod j 7
  simp only [selectQueryTable, Nat.shiftRight_eq_div_pow j 7, hget, Option.bind_eq_bind,
    Option.bind_some, hword, shiftRight_three, and_seven, hb, hmod, hidx]
  obtain ⟨r, hr, rfl⟩ := Option.map_eq_some_iff.mp hscan
  rw [hr]
  rfl

theorem selectNextQueryTable_eq (hP : select (byteBits bitsTable) j = some P)
    (hsel : select (byteBits bitsTable) (j + 1) = some p) (hp : p < 2 ^ 32)
    (hj : j + 16 < 2 ^ 32) : selectNextQueryTable bitsTable P = some p := by
  obtain ⟨b, hb, hrank⟩ := exists_byte hP
  have hidx : u32 ((rankLookup (b &&& UInt8.ofNat (1 <<< (P % 8) - 1)) : Int) + 1) =
      j + 1 - rank (byteBits bitsTable) (8 * (P / 8)) := u32_of_eq (by omega) (by omega)
  have hscan := scanOnes_from hP hsel (Nat.le_succ j) (by omega) hp
  simp only [selectNextQueryTable, shiftRight_three, and_seven, hb, Option.bind_eq_bind,
    Option.bind_some, hidx]
  obtain ⟨r, hr, rfl⟩ := Option.map_eq_some_iff.mp hscan
  rw [hr]
  rfl

/-! ## The structure -/

/-- The words of a packed structure. -/
def selectWords (s : Select) : List (BitVec 32) :=
  [BitVec.ofNat 32 s.n, BitVec.ofNat 32 s.m] ++ (s.bitsVec ++ s.selectTable)

namespace Select.Holds

theorem lt_of_select (hs : s.Holds l) (hsel : select l j = some p) :
    j < s.n ∧ p < 2 ^ 32 := by
  have hj := select_isSome_iff.mp (Option.isSome_of_mem hsel)
  have hp := RankSelect.lt_of_select hsel
  have hlt := hs.lt
  rw [hs.ones] at hj
  rw [← hs.bits, length_bits, hs.length_bitsVec] at hp
  omega

/-- The entry of the select table for a one. -/
theorem entry (hs : s.Holds l) (hj : j < s.n) : ∃ P, select l (128 * (j / 128)) = some P ∧
    s.selectTable[j / 128]? = some (BitVec.ofNat 32 P) := hs.noted _ (by omega)

/-- A query in a table that starts with the bits of the structure, with a select table that starts
with its select table. -/
theorem selectQueryTable (hs : s.Holds l) (hsel : select l j = some p) (rest : Bytes)
    (rest' : List (BitVec 32)) :
    selectQueryTable (bytes s.bitsVec ++ rest) (s.selectTable ++ rest') j = some p := by
  obtain ⟨hj, hp⟩ := hs.lt_of_select hsel
  obtain ⟨P, hP, hget⟩ := hs.entry hj
  have hlt := hs.lt
  have hbits : byteBits (bytes s.bitsVec ++ rest) = l ++ byteBits rest := by
    rw [byteBits_append, byteBits_bytes, hs.bits]
  refine selectQueryTable_eq (P := P) ?_ ?_ (hs.lt_of_select hP).2 ?_ hp (by omega)
  · rw [hbits, select_append_left hP]
  · rw [List.getElem?_append_left (List.getElem?_eq_some_iff.mp hget).1, hget]
  · rw [hbits, select_append_left hsel]

theorem selectNextQueryTable (hs : s.Holds l) (hP : select l j = some P)
    (hsel : select l (j + 1) = some p) (rest : Bytes) :
    selectNextQueryTable (bytes s.bitsVec ++ rest) P = some p := by
  obtain ⟨hj, hp⟩ := hs.lt_of_select hsel
  have hlt := hs.lt
  have hbits : byteBits (bytes s.bitsVec ++ rest) = l ++ byteBits rest := by
    rw [byteBits_append, byteBits_bytes, hs.bits]
  exact selectNextQueryTable_eq (by rw [hbits, select_append_left hP])
    (by rw [hbits, select_append_left hsel]) hp (by omega)

theorem selectQuery (hs : s.Holds l) (hsel : select l j = some p) : selectQuery s j = some p := by
  have h := hs.selectQueryTable hsel [] []
  rwa [List.append_nil, List.append_nil] at h

theorem selectNextQuery (hs : s.Holds l) (hP : select l j = some P)
    (hsel : select l (j + 1) = some p) : selectNextQuery s P = some p := by
  have h := hs.selectNextQueryTable hP hsel []
  rwa [List.append_nil] at h

/-! ## The packed structure -/

theorem length_selectWords (hs : s.Holds l) : 4 * (selectWords s).length < 2 ^ 32 := by
  have hlt := hs.lt
  rw [selectWords, List.length_append, List.length_append, hs.length_bitsVec,
    hs.length_selectTable]
  dsimp only [List.length_cons, List.length_nil]
  omega

/-- The bytes that are packed. -/
theorem selectDump (hs : s.Holds l) : selectDump s = some (bytes (selectWords s)) := by
  have hlt := hs.lt
  have hbits : u32 ((s.n : Int) + s.m) = s.n + s.m := u32_of_eq (by omega) (by push_cast; rfl)
  have hsize : u32 (((s.n + s.m : Nat) : Int) + 31) = s.n + s.m + 31 :=
    u32_of_eq (by omega) (by push_cast; rfl)
  have hvec : u32 (((s.n + s.m + 31) / 32 : Nat) * 4) = (bytes s.bitsVec).length := by
    rw [length_bytes, hs.length_bitsVec]
    exact u32_of_eq (by omega) (by omega)
  have htable : u32 ((((s.n / 2 ^ 7 : Nat) : Int) + 1) * 4) = (bytes s.selectTable).length := by
    rw [length_bytes, hs.length_selectTable]
    exact u32_of_eq (by omega) (by omega)
  simp only [Cmph.selectDump, hbits, hsize, shiftRight_five, Nat.shiftRight_eq_div_pow s.n 7, hvec,
    htable, memcpy_length, Option.bind_eq_bind, Option.bind_some]
  rw [selectWords, bytes_append, bytes_append, List.append_assoc]
  rfl

/-- What the queries find in the packed structure. -/
theorem packed (hs : s.Holds l) {buf : Bytes} (hbuf : Cmph.selectDump s = some buf)
    (rest : Bytes) :
    (buf ++ rest).drop 8 = bytes s.bitsVec ++ (bytes s.selectTable ++ rest) ∧
      words (buf ++ rest) = [BitVec.ofNat 32 s.n, BitVec.ofNat 32 s.m] ++
        (s.bitsVec ++ (s.selectTable ++ words rest)) := by
  rw [hs.selectDump] at hbuf
  cases hbuf
  constructor
  · rw [selectWords, bytes_append, List.append_assoc,
      List.drop_left' (by rw [length_bytes]; rfl), bytes_append, List.append_assoc]
  · rw [selectWords, words_append, List.append_assoc, List.append_assoc]

theorem selectQueryPacked (hs : s.Holds l) (hsel : select l j = some p) {buf : Bytes}
    (hbuf : Cmph.selectDump s = some buf) (rest : Bytes) :
    selectQueryPacked (buf ++ rest) j = some p := by
  obtain ⟨hdrop, hwords⟩ := hs.packed hbuf rest
  have hlt := hs.lt
  have hn : (BitVec.ofNat 32 s.n).toNat = s.n := by
    rw [BitVec.toNat_ofNat, Nat.mod_eq_of_lt (by omega)]
  have hm : (BitVec.ofNat 32 s.m).toNat = s.m := by
    rw [BitVec.toNat_ofNat, Nat.mod_eq_of_lt (by omega)]
  have hbits : u32 ((s.n : Int) + s.m) = s.n + s.m := u32_of_eq (by omega) (by push_cast; rfl)
  have hsize : u32 (((s.n + s.m : Nat) : Int) + 31) / 32 = s.bitsVec.length := by
    rw [hs.length_bitsVec, u32_of_eq (n := s.n + s.m + 31) (by omega) (by push_cast; rfl)]
  have hget0 : (words (buf ++ rest))[0]? = some (BitVec.ofNat 32 s.n) := by
    rw [hwords]
    rfl
  have hget1 : (words (buf ++ rest))[1]? = some (BitVec.ofNat 32 s.m) := by
    rw [hwords]
    rfl
  have htable : (words (buf ++ rest)).drop (2 + s.bitsVec.length) = s.selectTable ++ words rest := by
    rw [hwords, ← List.append_assoc, List.drop_left' ?_]
    rw [List.length_append]
    rfl
  simp only [Cmph.selectQueryPacked, hget0, hget1, Option.bind_eq_bind, Option.bind_some, hn, hm,
    hbits, shiftRight_five, hsize, htable, hdrop]
  exact hs.selectQueryTable hsel _ _

theorem selectNextQueryPacked (hs : s.Holds l) (hP : select l j = some P)
    (hsel : select l (j + 1) = some p) {buf : Bytes} (hbuf : Cmph.selectDump s = some buf)
    (rest : Bytes) : selectNextQueryPacked (buf ++ rest) P = some p := by
  rw [Cmph.selectNextQueryPacked, (hs.packed hbuf rest).1]
  exact hs.selectNextQueryTable hP hsel _

end Select.Holds

/-! ## The positions of the numbers -/

/-- A query for a number gives the number, and its place in the list on top: the zeros and the ones
before it. The next query goes on to the number behind it, and packing changes neither. -/
theorem selectGenerate_query (hne : keysVec ≠ []) (hsorted : keysVec.Pairwise (· ≤ ·))
    (hm : ∀ k ∈ keysVec, k ≤ m) (hlt : keysVec.length + m + 128 ≤ 2 ^ 32) :
    ∃ sel buf, selectGenerate keysVec keysVec.length m = some sel ∧ selectDump sel = some buf ∧
      (∀ j k, keysVec[j]? = some k → selectQuery sel j = some (k + j) ∧
        ∀ rest, selectQueryPacked (buf ++ rest) j = some (k + j)) ∧
      ∀ j k k', keysVec[j]? = some k → keysVec[j + 1]? = some k' →
        selectNextQuery sel (k + j) = some (k' + (j + 1)) ∧
        ∀ rest, selectNextQueryPacked (buf ++ rest) (k + j) = some (k' + (j + 1)) := by
  obtain ⟨sel, zeros, hgen, -, -, hs⟩ := selectGenerate_holds hne hsorted hm hlt
  have hsorted' : (0 :: keysVec).Pairwise (· ≤ ·) :=
    List.pairwise_cons.mpr ⟨fun k _ => Nat.zero_le k, hsorted⟩
  have hselect {j k : Nat} (hj : keysVec[j]? = some k) :
      select (unary 0 keysVec ++ List.replicate zeros false) j = some (k + j) :=
    select_unary hsorted' hj _
  refine ⟨sel, _, hgen, hs.selectDump, fun j k hj => ⟨hs.selectQuery (hselect hj), fun rest =>
    hs.selectQueryPacked (hselect hj) hs.selectDump rest⟩, fun j k k' hj hj' => ?_⟩
  exact ⟨hs.selectNextQuery (hselect hj) (hselect hj'), fun rest =>
    hs.selectNextQueryPacked (hselect hj) (hselect hj') hs.selectDump rest⟩

theorem selectGenerate_query_three : ∃ sel buf, selectGenerate [1, 4, 4] 3 4 = some sel ∧
    selectDump sel = some buf ∧ selectQuery sel 1 = some 5 ∧
    selectNextQueryPacked (buf ++ [7]) 5 = some 6 := by
  obtain ⟨sel, buf, hgen, hdump, hquery, hnext⟩ := @selectGenerate_query 4 [1, 4, 4]
    (by decide) (by decide) (by decide) (by decide)
  exact ⟨sel, buf, hgen, hdump, (hquery 1 4 rfl).1, (hnext 1 4 4 rfl rfl).2 [7]⟩

end PerfectHash.Cmph
