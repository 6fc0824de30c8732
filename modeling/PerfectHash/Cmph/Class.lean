import PerfectHash.C.Literal
import PerfectHash.Cmph.Bdz.Pack
import PerfectHash.Cmph.Chm.Pack
import PerfectHash.Cmph.KeyFile
import PerfectHash.Dict

/-! # The class `Perfect::Hash::CMPH` (`CMPH.pm`, `CMPH.xs`, `cmph.c`)

`new` writes the keys to a file, from which `_new` builds a function with CHM or BDZ, the algorithms
that are modelled, and packs it. `perfecthash` looks a key up in the function, and the C code of
`save_c` in the packed one. For a list of keys that are lines both give the numbers below the number of
keys, each key one of its own, and with CHM its place (`new_array`). Of a file only the lines that end
with a newline are keys (`new_file`). -/

namespace PerfectHash.Cmph

/-! ## Functions of all algorithms -/

/-- `cmph_t`, for each algorithm with its data. -/
inductive Mphf where
  | chm (mphf : CmphT ChmData)
  | bdz (mphf : CmphT BdzData)

/-- The number of an algorithm. -/
def CmphAlgo.toWord (algo : CmphAlgo) : BitVec 32 := BitVec.ofNat 32 (CmphAlgo.all.idxOf algo)

/-- A configuration of `cmph_new`: the algorithm with the size that `ceil` gives and the contents of
its memory. -/
inductive CmphConfig where
  | chm (n : Nat) (garbage : List (BitVec 32))
  | bdz (r : Nat) (garbage : List BdzEdge)

/-- `cmph_new`, with the hash functions and the number of bits of `chm_config_new` and
`bdz_config_new` -/
def cmphNew (config : CmphConfig) (rand : Nat → Nat) (keys : List Bytes) : Option (Option Mphf) := do
  match config with
  | .chm n garbage => return (← chmNew n (.jenkins, .jenkins) rand keys garbage).map .chm
  | .bdz r garbage => return (← bdzNew r 7 .jenkins rand keys garbage).map .bdz

/-- `cmph_search` -/
def cmphSearch : Mphf → Bytes → Option Nat
  | .chm mphf, key => chmSearch mphf.data key
  | .bdz mphf, key => bdzSearch mphf.data key

/-- `cmph_packed_size` -/
def cmphPackedSize : Mphf → Option Nat
  | .chm mphf => chmPackedSize mphf.data
  | .bdz mphf => bdzPackedSize mphf.data

/-- `cmph_pack` -/
def cmphPack : Mphf → Option Bytes
  | .chm mphf => do return bytes [mphf.algo.toWord] ++ (← chmPack mphf.data)
  | .bdz mphf => do return bytes [mphf.algo.toWord] ++ (← bdzPack mphf.data)

/-- `cmph_search_packed` -/
def cmphSearchPacked (packed key : Bytes) : Option Nat := do
  match CmphAlgo.all[(← (words packed)[0]?).toNat]? with
  | some .chm => chmSearchPacked (packed.drop 4) key
  | some .bdz => bdzSearchPacked (packed.drop 4) key
  | _ => none

/-! ## The object -/

/-- `_new`, for the contents of the key file: nothing where it returns `undef` -/
def xsNew (config : CmphConfig) (rand : Nat → Nat) (keyfile : Bytes) :
    Option (Option (Mphf × Bytes)) := do
  match ← cmphNew config rand (← nlfileKeys keyfile) with
  | none => return none
  | some mphf =>
    let size ← cmphPackedSize mphf
    if size = 0 then return none
    let packed ← cmphPack mphf
    -- the memory that `cmph_pack` fills has `size` bytes
    if packed.length = size then return some (mphf, packed) else none

/-- What `new` returns. -/
inductive CmphPh where
  | object (mphf : Mphf) (packed : Bytes) (options : List String) (size : Nat)
  /-- the array without a class that `$ph->[2]->{size} = $size` makes of `undef` -/
  | array (size : Nat)

/-- The contents of the key file and `$size`. -/
def keyFile : Dict Bytes → Run (Bytes × Nat)
  | .array keys => .ok (lines keys, keys.length)
  | .hash dict =>
    .ok (lines (dict.sortedKeys.map fun key => key ++ 9 :: (dict.get key).getD []), dict.keys.length)
  | .file content => .ok (content, (splitLines content).dedup.length)
  | .other => .error (.die "wrong dict argument. arrayref, hashref or filename expected")

/-- `new` -/
def new (config : CmphConfig) (rand : Nat → Nat) (dict : Dict Bytes) (options : List String) :
    Run CmphPh := do
  let (keyfile, size) ← keyFile dict
  match xsNew config rand keyfile with
  | none => .error .undefined
  | some none => return .array size
  | some (some (mphf, packed)) => return .object mphf packed options size

/-- `perfecthash` -/
def perfecthash : CmphPh → Bytes → Run Nat
  | .array _, _ => .error (.die "Can't call method \"perfecthash\" on unblessed reference")
  | .object mphf _ _ _, key =>
    match cmphSearch mphf key with
    | none => .error .undefined
    | some x => .ok x

/-- The C function of `save_c`: the literal of `packed_mphf`, whether the length is an argument, and
the number behind `%` -/
structure CFunction where
  packedMphf : Bytes
  nul : Bool
  size : Nat

/-- `save_c` -/
def saveC : CmphPh → Run CFunction
  | .array _ => .error (.die "Can't call method \"save_c\" on unblessed reference")
  | .object _ packed options size =>
    .ok { packedMphf := C.cstring packed, nul := options.contains "-nul", size }

/-- A call of the C function, where `behind` is the memory behind the literal. -/
def CFunction.lookup (f : CFunction) (behind s : Bytes) : Option Nat := do
  let packedMphf := (← C.literalValue f.packedMphf) ++ 0 :: behind
  let l := if f.nul then s.length else strlen s
  let x ← cmphSearchPacked packedMphf (s.take l)
  if f.size = 0 then none else return x % f.size

/-! ## Functions that are built -/

variable {config : CmphConfig} {rand : Nat → Nat} {keys : List Bytes} {mphf : Mphf}
  {dict : Dict Bytes} {options : List String} {size : Nat} {content : Bytes} {ph : CmphPh}

/-- The sizes of a configuration fit in 32 bits, and for BDZ no vertex has too many keys. -/
def CmphConfig.Fits (rand : Nat → Nat) (keys : List Bytes) : CmphConfig → Prop
  | .chm n garbage => 0 < n ∧ 4 * n + 28 < 2 ^ 32 ∧ 2 * keys.length < 2 ^ 32 - 1 ∧ garbage.length = n
  | .bdz r garbage => 3 * bdzParts r < 2 ^ 32 ∧ keys.length < nullEdge ∧
    garbage.length = keys.length ∧
    ∀ k < 1000, Narrow (bdzAttempt (bdzParts r) .jenkins rand keys k)

/-- No attempt of the algorithm succeeds. -/
def CmphConfig.Fails (rand : Nat → Nat) (keys : List Bytes) : CmphConfig → Prop
  | .chm n _ => ∀ k < 20, (chmAttempt n (.jenkins, .jenkins) rand keys (2 * k)).HasCycle
  | .bdz r _ => ∀ k < 1000, HasCore (bdzAttempt (bdzParts r) .jenkins rand keys k)

/-- The values of some keys. -/
def CmphConfig.IsValues (keys : List Bytes) (vs : List Nat) : CmphConfig → Prop
  | .chm _ _ => vs = List.range keys.length
  | .bdz _ _ => vs.Perm (List.range keys.length)

theorem CmphConfig.IsValues.perm {vs : List Nat} (h : config.IsValues keys vs) :
    vs.Perm (List.range keys.length) := by
  cases config with
  | chm n garbage => exact .of_eq h
  | bdz r garbage => exact h

/-- There is a packed function with the values of a function. -/
def Mphf.Packs (mphf : Mphf) (packed : Bytes) : Prop :=
  cmphPack mphf = some packed ∧ packed ≠ [] ∧ cmphPackedSize mphf = some packed.length ∧
    ∀ rest key, cmphSearchPacked (packed ++ rest) key = cmphSearch mphf key

/-- The values of the keys, and the packed function. -/
structure Mphf.Built (config : CmphConfig) (keys : List Bytes) (mphf : Mphf) : Prop where
  values : ∃ vs : List Nat, keys.map (cmphSearch mphf) = vs.map some ∧ config.IsValues keys vs
  packs : ∃ packed, mphf.Packs packed

/-- The word of the algorithm in front of a packed function. -/
theorem Mphf.packs_of (algo : CmphAlgo) (packed : Bytes)
    (hpack : cmphPack mphf = some (bytes [algo.toWord] ++ packed))
    (hsize : cmphPackedSize mphf = some (u32 (packed.length + 4 : Nat)))
    (hlt : packed.length + 4 < 2 ^ 32)
    (hsearch : ∀ rest key, cmphSearchPacked (bytes [algo.toWord] ++ (packed ++ rest)) key =
      cmphSearch mphf key) : mphf.Packs (bytes [algo.toWord] ++ packed) := by
  have hlen : (bytes [algo.toWord]).length = 4 := length_bytes _
  refine ⟨hpack, List.ne_nil_of_length_pos ?_, ?_, fun rest key => ?_⟩
  · rw [List.length_append, hlen]
    omega
  · rw [hsize, u32_natCast hlt, List.length_append, hlen, Nat.add_comm]
  · rw [List.append_assoc, hsearch]

theorem words_toWord (algo : CmphAlgo) (packed : Bytes) :
    (words (bytes [algo.toWord] ++ packed))[0]? = some algo.toWord ∧
      CmphAlgo.all[algo.toWord.toNat]? = some algo ∧
      (bytes [algo.toWord] ++ packed).drop 4 = packed := by
  refine ⟨?_, by cases algo <;> rfl, List.drop_left' (length_bytes _)⟩
  rw [words_append]
  rfl

theorem ChmBuilt.built {n : Nat} {hash1 hash2 : HashState} {chm : CmphT ChmData}
    (h : ChmBuilt n keys hash1 hash2 chm) (garbage : List (BitVec 32)) (hn : 0 < n)
    (hlt : 4 * n + 28 < 2 ^ 32) (hkeys : 2 * keys.length < 2 ^ 32 - 1) :
    (Mphf.chm chm).Built (.chm n garbage) keys := by
  obtain ⟨packed, hpack, hlen, hsize, hsearch⟩ := h.searchPacked hn (by omega) (by omega)
  refine ⟨⟨_, List.ext_getElem? fun i => ?_, rfl⟩, _,
    Mphf.packs_of .chm packed ?_ hsize (by omega) fun rest key => ?_⟩
  · rw [List.getElem?_map, List.getElem?_map]
    rcases Nat.lt_or_ge i keys.length with hi | hi
    · rw [List.getElem?_range hi, List.getElem?_eq_getElem hi]
      exact congrArg some (h.search_key hn (by omega) hkeys (List.getElem?_eq_getElem hi))
    · rw [List.getElem?_eq_none hi, List.getElem?_eq_none (by rwa [List.length_range])]
      rfl
  · rw [cmphPack, hpack, h.algo]
    rfl
  · obtain ⟨hword, halgo, hdrop⟩ := words_toWord .chm (packed ++ rest)
    rw [cmphSearchPacked, hword, Option.bind_eq_bind, Option.bind_some, halgo, hdrop]
    exact hsearch rest key

theorem BdzBuilt.built {r : Nat} {hl : HashState} {bdz : CmphT BdzData} {picked : List Nat}
    (h : BdzBuilt (bdzParts r) 7 keys hl bdz picked) (garbage : List BdzEdge)
    (hlt : 3 * bdzParts r < 2 ^ 32) (hm : keys.length < nullEdge) :
    (Mphf.bdz bdz).Built (.bdz r garbage) keys := by
  have hpos := bdzParts_pos r
  obtain ⟨packed, hpack, hlen, hsize, hsearch⟩ := h.searchPacked hpos hlt hm (by decide)
  have hfits : packed.length + 4 < 2 ^ 32 := by
    rw [hlen, rankTableSize, sizeG, show 2 ^ (7 : UInt8).toNat = 128 from rfl]
    omega
  refine ⟨h.search_perm hpos hlt hm (by decide), _,
    Mphf.packs_of .bdz packed ?_ hsize hfits fun rest key => ?_⟩
  · rw [cmphPack, hpack, h.algo]
    rfl
  · obtain ⟨hword, halgo, hdrop⟩ := words_toWord .bdz (packed ++ rest)
    rw [cmphSearchPacked, hword, Option.bind_eq_bind, Option.bind_some, halgo, hdrop]
    exact hsearch rest key

theorem cmphNew_spec (hfits : config.Fits rand keys) :
    ∃ res, cmphNew config rand keys = some res ∧ (res = none ↔ config.Fails rand keys) ∧
      ∀ mphf, res = some mphf → mphf.Built config keys := by
  cases config with
  | chm n garbage =>
    obtain ⟨hn, hlt, hkeys, hgarbage⟩ := hfits
    obtain ⟨res, hrun, hnone, hsome⟩ := chmNew_spec (.jenkins, .jenkins) rand hn (by omega) hkeys
      hgarbage
    refine ⟨res.map .chm, ?_, Option.map_eq_none_iff.trans hnone, fun mphf hmphf => ?_⟩
    · rw [cmphNew, hrun]
      rfl
    · obtain ⟨chm, hres, rfl⟩ := Option.map_eq_some_iff.mp hmphf
      obtain ⟨hash1, hash2, hbuilt⟩ := hsome chm hres
      exact hbuilt.built garbage hn hlt hkeys
  | bdz r garbage =>
    obtain ⟨hlt, hm, hgarbage, hnarrow⟩ := hfits
    obtain ⟨res, hrun, hnone, hsome⟩ := bdzNew_spec (b := 7) .jenkins rand hlt hm hgarbage
      (by decide) (by decide) hnarrow
    refine ⟨res.map .bdz, ?_, Option.map_eq_none_iff.trans hnone, fun mphf hmphf => ?_⟩
    · rw [cmphNew, hrun]
      rfl
    · obtain ⟨bdz, hres, rfl⟩ := Option.map_eq_some_iff.mp hmphf
      obtain ⟨hl, picked, hbuilt⟩ := hsome bdz hres
      exact hbuilt.built garbage hlt hm

theorem xsNew_spec {keyfile : Bytes} (hread : nlfileKeys keyfile = some keys)
    (hfits : config.Fits rand keys) :
    ∃ res, xsNew config rand keyfile = some res ∧ (res = none ↔ config.Fails rand keys) ∧
      ∀ mphf packed, res = some (mphf, packed) → mphf.Built config keys ∧ mphf.Packs packed := by
  obtain ⟨res, hrun, hnone, hsome⟩ := cmphNew_spec hfits
  rw [xsNew, hread, Option.bind_eq_bind, Option.bind_some, hrun]
  cases res with
  | none => exact ⟨none, rfl, iff_of_true rfl (hnone.mp rfl), nofun⟩
  | some mphf =>
    have hbuilt := hsome mphf rfl
    obtain ⟨packed, hpack, hne, hsize, hsearch⟩ := hbuilt.packs
    refine ⟨some (mphf, packed), ?_, iff_of_false nofun fun h => absurd (hnone.mpr h) nofun, ?_⟩
    · simp only [Option.bind_eq_bind, Option.bind_some, hsize, hpack]
      rw [if_neg (mt List.length_eq_zero_iff.mp hne), if_pos trivial]
      rfl
    · rintro _ _ ⟨⟩
      exact ⟨hbuilt, hpack, hne, hsize, hsearch⟩

/-! ## The class -/

theorem CmphConfig.Fits.length_lt (h : config.Fits rand keys) : keys.length < 2 ^ 32 := by
  have hnull : nullEdge = 2 ^ 32 - 1 := rfl
  cases config with
  | chm n garbage =>
    obtain ⟨-, -, hkeys, -⟩ := h
    omega
  | bdz r garbage =>
    obtain ⟨-, hm, -⟩ := h
    omega

/-- The number behind `%` applied to a value. -/
def modSize (size x : Nat) : Option Nat := if size = 0 then none else some (x % size)

/-- The C function has the values of the packed function. -/
theorem CFunction.lookup_eq {packed s : Bytes} {x : Nat} {nul : Bool} (h : mphf.Packs packed)
    (h0 : 0 ∉ s) (hx : cmphSearch mphf s = some x) (behind : Bytes) :
    CFunction.lookup ⟨C.cstring packed, nul, size⟩ behind s = modSize size x := by
  have hl : (if nul then s.length else strlen s) = s.length := by rw [strlen_eq h0, ite_self]
  obtain ⟨-, -, -, hsearch⟩ := h
  simp only [CFunction.lookup, C.literalValue_cstring, Option.bind_eq_bind, Option.bind_some, hl,
    List.take_length, hsearch, hx]
  rfl

theorem new_spec {keyfile : Bytes} (hdict : keyFile dict = .ok (keyfile, size))
    (hread : nlfileKeys keyfile = some keys) (h0 : ∀ key ∈ keys, 0 ∉ key)
    (hfits : config.Fits rand keys) :
    ∃ ph, new config rand dict options = .ok ph ∧
      (ph = .array size ↔ config.Fails rand keys) ∧
      (ph ≠ .array size → ∃ vs : List Nat, config.IsValues keys vs ∧
        keys.map (perfecthash ph) = vs.map .ok ∧
        ∃ f, saveC ph = .ok f ∧ ∀ behind, keys.map (f.lookup behind) = vs.map (modSize size)) := by
  obtain ⟨res, hrun, hnone, hsome⟩ := xsNew_spec hread hfits
  rw [new, hdict]
  dsimp only [bind, Except.bind]
  rw [hrun]
  cases res with
  | none =>
    exact ⟨_, rfl, iff_of_true rfl (hnone.mp rfl), fun h => absurd rfl h⟩
  | some found =>
    obtain ⟨mphf, packed⟩ := found
    obtain ⟨⟨⟨vs, hvalues, hvs⟩, -⟩, hpacks⟩ := hsome mphf packed rfl
    refine ⟨_, rfl, iff_of_false nofun fun h => absurd (hnone.mpr h) nofun, fun _ =>
      ⟨vs, hvs, ?_, _, rfl, fun behind => ?_⟩⟩
    · have hmap := congrArg (List.map fun o : Option Nat =>
        match o with
        | none => (.error .undefined : Run Nat)
        | some x => .ok x) hvalues
      rw [List.map_map, List.map_map] at hmap
      exact hmap
    · have hmap := congrArg (List.map fun o : Option Nat => o.bind (modSize size)) hvalues
      rw [List.map_map, List.map_map] at hmap
      refine Eq.trans (List.map_congr_left fun key hkey => ?_) hmap
      have hmem : cmphSearch mphf key ∈ vs.map some := hvalues ▸ List.mem_map_of_mem hkey
      obtain ⟨x, -, hx⟩ := List.mem_map.mp hmem
      rw [Function.comp_apply, CFunction.lookup_eq hpacks (h0 key hkey) hx.symm, ← hx]
      rfl

/-- For an arrayref of lines, `new` returns an array without a class exactly if no attempt of the
algorithm succeeds. Otherwise the values of the keys are the numbers below the number of keys, with CHM
their places, and the C function of `save_c` has the same values. -/
theorem new_array (hkeys : ∀ key ∈ keys, IsLine key ∧ key.length < 2 ^ 31)
    (hfits : config.Fits rand keys) :
    ∃ ph, new config rand (.array keys) options = .ok ph ∧
      (ph = .array keys.length ↔ config.Fails rand keys) ∧
      (ph ≠ .array keys.length → ∃ vs : List Nat, config.IsValues keys vs ∧
        keys.map (perfecthash ph) = vs.map .ok ∧
        ∃ f, saveC ph = .ok f ∧ ∀ behind, keys.map (f.lookup behind) = vs.map some) := by
  have hread : nlfileKeys (lines keys) = some keys := by
    have hlines := nlfileKeys_lines hkeys (show IsLine [] from ⟨List.not_mem_nil, List.not_mem_nil⟩)
      hfits.length_lt
    rwa [List.append_nil] at hlines
  have hdict : keyFile (.array keys) = .ok (lines keys, keys.length) := rfl
  obtain ⟨ph, hnew, hfails, hbuilt⟩ := new_spec hdict hread (fun key hkey => (hkeys key hkey).1.2)
    hfits
  refine ⟨ph, hnew, hfails, fun hph => ?_⟩
  obtain ⟨vs, hvs, hvalues, f, hf, hlookup⟩ := hbuilt hph
  refine ⟨vs, hvs, hvalues, f, hf, fun behind => (hlookup behind).trans ?_⟩
  refine List.map_congr_left fun v hv => ?_
  have hv := List.mem_range.mp (hvs.perm.mem_iff.mp hv)
  rw [modSize, if_neg (by omega), Nat.mod_eq_of_lt hv]

theorem new_array_two : ∃ ph,
    new (.chm 5 (List.replicate 5 0xff)) (fun k => k) (.array [[0x61], [0x62]]) [] = .ok ph ∧
    [[0x61], [0x62]].map (perfecthash ph) = [.ok 0, .ok 1] ∧
    ∃ f, saveC ph = .ok f ∧
      ∀ behind, [[0x61], [0x62]].map (f.lookup behind) = [some 0, some 1] := by
  obtain ⟨ph, hnew, -, hbuilt⟩ := @new_array (.chm 5 (List.replicate 5 0xff)) (fun k => k)
    [[0x61], [0x62]] [] (by decide) ⟨by decide, by decide, by decide, rfl⟩
  have hobject : ph ≠ .array 2 := by
    rintro rfl
    cases hnew
  obtain ⟨vs, rfl, hvalues, hsaved⟩ := hbuilt hobject
  exact ⟨ph, hnew, hvalues, hsaved⟩

/-- For a file without NUL, `new` builds a function for the lines that end with a newline. The C
function takes the values modulo the number of different lines, where a last line without a newline
counts and empty lines at the end do not. -/
theorem new_file (h0 : 0 ∉ content) (hlen : ∀ key ∈ fullLines content, key.length < 2 ^ 31)
    (hfits : config.Fits rand (fullLines content)) :
    ∃ ph, new config rand (.file content) options = .ok ph ∧
      (ph = .array (splitLines content).dedup.length ↔ config.Fails rand (fullLines content)) ∧
      (ph ≠ .array (splitLines content).dedup.length → ∃ vs : List Nat,
        config.IsValues (fullLines content) vs ∧
        (fullLines content).map (perfecthash ph) = vs.map .ok ∧
        ∃ f, saveC ph = .ok f ∧ ∀ behind, (fullLines content).map (f.lookup behind) =
          vs.map (modSize (splitLines content).dedup.length)) := by
  have hdict : keyFile (.file content) = .ok (content, (splitLines content).dedup.length) := rfl
  exact new_spec hdict (nlfileKeys_eq h0 hlen hfits.length_lt) (fun key hkey h =>
    h0 (mem_of_mem_fullLines hkey h)) hfits

/-- The last line of this file is no key, but counts. -/
theorem new_file_three : ∃ ph,
    new (.chm 5 (List.replicate 5 0xff)) (fun k => k) (.file [0x61, 10, 0x62, 10, 0x63]) [] = .ok ph ∧
    [[0x61], [0x62]].map (perfecthash ph) = [.ok 0, .ok 1] ∧
    ∃ f, saveC ph = .ok f ∧
      ∀ behind, [[0x61], [0x62]].map (f.lookup behind) = [some 0, some 1] := by
  have hlines : fullLines [0x61, 10, 0x62, 10, 0x63] = [[0x61], [0x62]] := by decide
  obtain ⟨ph, hnew, -, hbuilt⟩ := @new_file (.chm 5 (List.replicate 5 0xff)) (fun k => k) []
    [0x61, 10, 0x62, 10, 0x63] (by decide) (by rw [hlines]; decide)
    (by rw [hlines]; exact ⟨by decide, by decide, by decide, rfl⟩)
  have hobject : ph ≠ .array 3 := by
    rintro rfl
    cases hnew
  rw [hlines] at hbuilt
  obtain ⟨vs, rfl, hvalues, hsaved⟩ := hbuilt hobject
  exact ⟨ph, hnew, hvalues, hsaved⟩

end PerfectHash.Cmph
