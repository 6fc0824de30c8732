import PerfectHash.Cmph.Chm.Search

/-! # Dumps and packed functions of CHM

What `chm_dump` writes is loaded again (`chmLoad_dump`), and a packed function has the values of the
function that was packed (`chmSearchPacked_pack`). -/

namespace PerfectHash.Cmph

variable {n : Nat} {hash1 hash2 : HashState} {keys : List Bytes} {hashfuncs : CmphHash × CmphHash}
  {rand : Nat → Nat} {garbage : List (BitVec 32)} {mphf : CmphT ChmData}

/-- The hash functions of a dump are loaded again. -/
theorem chmLoadHashes_dump (states : List HashState) (f : Bytes) :
    chmLoadHashes states.length (states.flatMap (fun state =>
      bytes [BitVec.ofNat 32 (hashStateDump state).length] ++ hashStateDump state) ++ f) =
        some (states.map some, f) := by
  induction states with
  | nil => rfl
  | cons state states ih =>
    have hlen : (BitVec.ofNat 32 (hashStateDump state).length).toNat =
        (hashStateDump state).length := by
      obtain ⟨⟨⟩, seed⟩ := state
      rfl
    rw [List.length_cons, chmLoadHashes, List.flatMap_cons, List.append_assoc, List.append_assoc,
      freadWord_bytes]
    simp only [Option.bind_eq_bind, Option.bind_some, hlen, fread_append rfl, hashStateLoad_dump, ih]
    rfl

theorem ChmBuilt.copyWords (h : ChmBuilt n keys hash1 hash2 mphf) :
    copyWords mphf.data.g mphf.data.n = some (bytes mphf.data.g) := by
  rw [h.data_n, ← h.length, copyWords_length]

theorem ChmBuilt.load_dump (h : ChmBuilt n keys hash1 hash2 mphf) (hlt : n < 2 ^ 32)
    (hkeys : keys.length < 2 ^ 32) :
    ∃ file, chmDump mphf = some file ∧ ∀ rest, ∃ data,
      cmphLoadHead (file ++ rest) = some (some (mphf.algo, mphf.size, data)) ∧
      chmLoad data = some (mphf.data, rest) := by
  have hdump := h.copyWords
  have hn : (BitVec.ofNat 32 mphf.data.n).toNat = mphf.data.n := by
    rw [BitVec.toNat_ofNat, h.data_n, Nat.mod_eq_of_lt hlt]
  have hm : (BitVec.ofNat 32 mphf.data.m).toNat = mphf.data.m := by
    rw [BitVec.toNat_ofNat, h.data_m, Nat.mod_eq_of_lt hkeys]
  have hlen : (bytes mphf.data.g).length = 4 * mphf.data.n := by
    rw [length_bytes, h.length, h.data_n]
  let states := [hash1, hash2].flatMap fun state =>
    bytes [BitVec.ofNat 32 (hashStateDump state).length] ++ hashStateDump state
  let tail := bytes [BitVec.ofNat 32 mphf.data.n] ++ (bytes [BitVec.ofNat 32 mphf.data.m] ++
    bytes mphf.data.g)
  refine ⟨cmphDumpHead mphf.algo mphf.size ++ (bytes [2] ++ (states ++ tail)), ?_, fun rest =>
    ⟨bytes [2] ++ (states ++ (tail ++ rest)), ?_, ?_⟩⟩
  · rw [chmDump, h.hashes]
    dsimp only [List.getElem?_cons_zero, List.getElem?_cons_succ, Option.bind_eq_bind,
      Option.bind_some]
    rw [hdump]
    simp only [states, tail, List.flatMap_cons, List.flatMap_nil, List.append_nil, List.append_assoc,
      Option.bind_some]
    rfl
  · rw [List.append_assoc, List.append_assoc, List.append_assoc,
      cmphLoadHead_dump _ (by rw [h.size]; exact hkeys)]
  · have hhashes : chmLoadHashes (2 : BitVec 32).toNat (states ++ (tail ++ rest)) =
        some ([some hash1, some hash2], tail ++ rest) := chmLoadHashes_dump [hash1, hash2] _
    have hcons (x : BitVec 32) (f g : Bytes) : bytes [x] ++ f ++ g = bytes [x] ++ (f ++ g) :=
      List.append_assoc _ _ _
    simp only [chmLoad, freadWord_bytes, hhashes, Option.bind_eq_bind, Option.bind_some]
    simp only [tail, hcons, freadWord_bytes, hn, hm, fread_append hlen, words_bytes,
      Option.bind_some, ← h.hashes]
    rfl

/-- Only the values of the vertices are read. -/
theorem chmValue_append {m : Nat} {g : List (BitVec 32)} (hn : 0 < n) (hlt : n < 2 ^ 32)
    (hlen : g.length = n) (rest : List (BitVec 32)) (a b : Nat) :
    chmValue m n (g ++ rest) a b = chmValue m n g a b := by
  obtain ⟨hx, hy⟩ := chmEnds_lt hn a b
  rw [chmValue, chmValue, chmVertices_eq hn hlt, Option.bind_eq_bind, Option.bind_some,
    Option.bind_some]
  dsimp only
  rw [List.getElem?_append_left (by omega), List.getElem?_append_left (by omega)]

theorem ChmBuilt.searchPacked (h : ChmBuilt n keys hash1 hash2 mphf) (hn0 : 0 < n) (hlt : n < 2 ^ 32)
    (hkeys : keys.length < 2 ^ 32) :
    ∃ packed, chmPack mphf.data = some packed ∧ packed.length = 4 * n + 24 ∧
      chmPackedSize mphf.data = some (u32 (packed.length + 4 : Nat)) ∧
      ∀ rest key, chmSearchPacked (packed ++ rest) key = chmSearch mphf.data key := by
  have hn : (BitVec.ofNat 32 mphf.data.n).toNat = n := by
    rw [BitVec.toNat_ofNat, h.data_n, Nat.mod_eq_of_lt hlt]
  have hm : (BitVec.ofNat 32 mphf.data.m).toNat = keys.length := by
    rw [BitVec.toNat_ofNat, h.data_m, Nat.mod_eq_of_lt hkeys]
  -- the memory from each pointer on
  let ws := [BitVec.ofNat 32 mphf.data.n, BitVec.ofNat 32 mphf.data.m]
  let h2 := hashStatePack hash2 ++ (bytes ws ++ bytes mphf.data.g)
  let h1 := hashStatePack hash1 ++ (bytes [hash2.hashfunc.toWord] ++ h2)
  refine ⟨bytes [hash1.hashfunc.toWord] ++ h1, ?_, ?_, ?_, fun rest key => ?_⟩
  · rw [chmPack, h.hashes]
    dsimp only [List.getElem?_cons_zero, List.getElem?_cons_succ, Option.bind_eq_bind,
      Option.bind_some]
    rw [h.copyWords]
    simp only [h1, h2, List.append_assoc, Option.bind_some]
    rfl
  · simp only [h1, h2, ws, List.length_append, length_bytes, length_hashStatePack,
      hashStatePackedSize_eq, h.length, List.length_cons, List.length_nil]
    omega
  · rw [chmPackedSize, h.hashes]
    simp only [h1, h2, ws, List.length_append, length_bytes, length_hashStatePack, h.data_n,
      h.length, List.length_cons, List.length_nil, List.getElem?_cons_zero,
      List.getElem?_cons_succ, Option.bind_eq_bind, Option.bind_some]
    refine congrArg some (congrArg u32 ?_)
    push_cast
    omega
  · have hp1 : (bytes [hash1.hashfunc.toWord] ++ h1 ++ rest).drop 4 = h1 ++ rest := by
      rw [List.append_assoc]
      exact List.drop_left' (length_bytes _)
    have hp2 : (h1 ++ rest).drop (hashStatePackedSize hash1.hashfunc) =
        bytes [hash2.hashfunc.toWord] ++ (h2 ++ rest) := by
      simp only [h1, List.append_assoc]
      rw [List.drop_left' (length_hashStatePack hash1)]
    have hp3 : (bytes [hash2.hashfunc.toWord] ++ (h2 ++ rest)).drop 4 = h2 ++ rest :=
      List.drop_left' (length_bytes _)
    have hg : words ((h2 ++ rest).drop (hashStatePackedSize hash2.hashfunc)) =
        ws ++ (mphf.data.g ++ words rest) := by
      simp only [h2, List.append_assoc]
      rw [List.drop_left' (length_hashStatePack hash2), words_append, words_append]
    have hhash1 : hashPacked (h1 ++ rest) hash1.hashfunc key = some (hash hash1 key) := by
      simp only [h1, List.append_assoc]
      exact hashPacked_pack hash1 _ key
    have hhash2 : hashPacked (h2 ++ rest) hash2.hashfunc key = some (hash hash2 key) := by
      simp only [h2, List.append_assoc]
      exact hashPacked_pack hash2 _ key
    have ht1 : (words (bytes [hash1.hashfunc.toWord] ++ h1 ++ rest))[0]? =
        some hash1.hashfunc.toWord := by
      rw [List.append_assoc, words_append]
      rfl
    have ht2 : (words (bytes [hash2.hashfunc.toWord] ++ (h2 ++ rest)))[0]? =
        some hash2.hashfunc.toWord := by
      rw [words_append]
      rfl
    simp only [chmSearchPacked, ht1, ht2, CmphHash.ofWord_toWord, hp1, hp2, hp3, hg, hhash1, hhash2,
      Option.bind_eq_bind, Option.bind_some]
    change chmValue (BitVec.ofNat 32 mphf.data.m).toNat (BitVec.ofNat 32 mphf.data.n).toNat
      (mphf.data.g ++ words rest) _ _ = _
    rw [hn, hm, h.search]
    exact chmValue_append hn0 hlt h.length _ _ _

/-- What `chm_dump` writes for a function of `chm_new` is loaded again, and what follows it in the file
is left. -/
theorem chmLoad_dump (hn : 0 < n) (hlt : n < 2 ^ 32) (hkeys : 2 * keys.length < 2 ^ 32 - 1)
    (hgarbage : garbage.length = n) (h : chmNew n hashfuncs rand keys garbage = some (some mphf)) :
    ∃ file, chmDump mphf = some file ∧ ∀ rest, ∃ data,
      cmphLoadHead (file ++ rest) = some (some (mphf.algo, mphf.size, data)) ∧
      chmLoad data = some (mphf.data, rest) := by
  obtain ⟨r, hrun, -, hsome⟩ := chmNew_spec hashfuncs rand hn hlt hkeys
    hgarbage
  obtain ⟨hash1, hash2, hbuilt⟩ := hsome mphf (Option.some.inj (hrun.symm.trans h))
  exact hbuilt.load_dump hlt (by omega)

theorem chmLoad_dump_two : ∃ (mphf : CmphT ChmData) (file : Bytes),
    chmDump mphf = some file ∧ ∀ rest, ∃ data,
    cmphLoadHead (file ++ rest) = some (some (mphf.algo, mphf.size, data)) ∧
    chmLoad data = some (mphf.data, rest) :=
  ⟨_, @chmLoad_dump 5 [[0x61], [0x62]] (.jenkins, .jenkins) (fun k => k) (List.replicate 5 0xff) _
    (by decide) (by decide) (by decide)
    rfl rfl⟩

end PerfectHash.Cmph
