import PerfectHash.Cmph.JenkinsHash

/-! # Hash functions and the head of a dump (`hash.c`, `cmph_structs.c`)

A file is the list of the bytes that were not read yet. -/

namespace PerfectHash.Cmph

/-- The characters of a string. -/
def text (s : List Char) : Bytes := s.map fun c => UInt8.ofNat c.toNat

/-- `strcmp(buf, s) == 0`, where `s` is given without its NUL -/
def strcmpEq : Bytes → Bytes → Option Bool
  | [], _ => none
  | b :: _, [] => some (b = 0)
  | b :: buf, c :: s => if b = c then strcmpEq buf s else some false

theorem strcmpEq_self {s : Bytes} (rest : Bytes) : strcmpEq (s ++ 0 :: rest) s = some true := by
  induction s with
  | nil => rfl
  | cons c s ih => rw [List.cons_append, strcmpEq, if_pos rfl, ih]

/-- `fread` of `n` bytes. What it returns is not checked, so the file must have them. -/
def fread (f : Bytes) (n : Nat) : Option (Bytes × Bytes) :=
  if n ≤ f.length then some (f.take n, f.drop n) else none

theorem fread_append {bs : Bytes} {n : Nat} (h : bs.length = n) (f : Bytes) :
    fread (bs ++ f) n = some (bs, f) := by
  rw [fread, if_pos (by rw [List.length_append]; omega), List.take_left' h, List.drop_left' h]

/-- `fread` of a `cmph_uint32`. -/
def freadWord (f : Bytes) : Option (BitVec 32 × Bytes) := do
  let (bs, f) ← fread f 4
  return (← (words bs)[0]?, f)

theorem freadWord_bytes (x : BitVec 32) (f : Bytes) : freadWord (bytes [x] ++ f) = some (x, f) := by
  rw [freadWord, fread_append (n := 4) (length_bytes _), Option.bind_eq_bind, Option.bind_some]
  dsimp only
  rw [words_bytes]
  rfl

/-- The words of a table that `fwrite` or `memcpy` copies. -/
def copyWords (table : List (BitVec 32)) (n : Nat) : Option Bytes := memcpy (bytes table) (4 * n)

theorem copyWords_length (table : List (BitVec 32)) :
    copyWords table table.length = some (bytes table) := by
  rw [copyWords, ← length_bytes, memcpy_length]

/-! ## Hash functions -/

/-- `CMPH_HASH` -/
inductive CmphHash where
  | jenkins
  deriving DecidableEq

/-- `cmph_hash_names` -/
def CmphHash.name : CmphHash → Bytes
  | jenkins => text ['j', 'e', 'n', 'k', 'i', 'n', 's']

/-- The values below `CMPH_HASH_COUNT`. -/
def CmphHash.all : List CmphHash := [.jenkins]

/-- The number of a hash function. -/
def CmphHash.toWord : CmphHash → BitVec 32
  | jenkins => 0

/-- `(CMPH_HASH)x`, of the numbers that the switches have a case for -/
def CmphHash.ofWord (x : BitVec 32) : Option CmphHash := if x = 0 then some .jenkins else none

theorem CmphHash.ofWord_toWord (hashfunc : CmphHash) : ofWord hashfunc.toWord = some hashfunc := by
  cases hashfunc
  rfl

/-- `hash_state_t` -/
structure HashState where
  hashfunc : CmphHash
  seed : BitVec 32

/-- `jenkins_state_new`, with what `rand` returns -/
def jenkinsStateNew (rand size : Nat) : Option HashState :=
  if size = 0 then none else some { hashfunc := .jenkins, seed := BitVec.ofNat 32 (rand % size) }

/-- `hash_state_new` -/
def hashStateNew (rand : Nat) (hashfunc : CmphHash) (hashsize : Nat) : Option HashState :=
  match hashfunc with
  | .jenkins => jenkinsStateNew rand hashsize

/-- The hash function of a call of `rand`. -/
def seededHash (n rand : Nat) (hashfunc : CmphHash) : HashState where
  hashfunc := hashfunc
  seed := BitVec.ofNat 32 (rand % n)

theorem hashStateNew_eq {n : Nat} (hn : 0 < n) (r : Nat) (hashfunc : CmphHash) :
    hashStateNew r hashfunc n = some (seededHash n r hashfunc) := by
  cases hashfunc
  exact if_neg hn.ne'

/-- `hash` -/
def hash (state : HashState) (key : Bytes) : Nat :=
  match state.hashfunc with
  | .jenkins => jenkinsHash state.seed key

/-- `hash_vector` -/
def hashVector (state : HashState) (key : Bytes) : Hashes :=
  match state.hashfunc with
  | .jenkins => jenkinsHashVector state.seed key

/-- `hash_state_dump` -/
def hashStateDump (state : HashState) : Bytes := state.hashfunc.name ++ 0 :: bytes [state.seed]

/-- `jenkins_state_load` -/
def jenkinsStateLoad (buf : Bytes) : Option HashState := do
  return { hashfunc := .jenkins, seed := ← (words buf)[0]? }

/-- The loop of `hash_state_load` over `cmph_hash_names`. -/
def findHashfunc (buf : Bytes) : List CmphHash → Option (Option CmphHash)
  | [] => some none
  | hashfunc :: rest => do
    if ← strcmpEq buf hashfunc.name then return hashfunc
    findHashfunc buf rest

/-- `hash_state_load`: nothing where it returns NULL -/
def hashStateLoad (buf : Bytes) : Option (Option HashState) := do
  match ← findHashfunc buf CmphHash.all with
  | none => return none
  | some hashfunc =>
    let offset := hashfunc.name.length + 1
    match hashfunc with
    | .jenkins => return ← jenkinsStateLoad (buf.drop offset)

theorem hashStateLoad_dump (state : HashState) :
    hashStateLoad (hashStateDump state) = some (some state) := by
  obtain ⟨hashfunc, seed⟩ := state
  cases hashfunc
  have hfind : findHashfunc (hashStateDump ⟨.jenkins, seed⟩) CmphHash.all =
      some (some .jenkins) := by
    rw [hashStateDump, CmphHash.all, findHashfunc, strcmpEq_self]
    rfl
  have hdrop : (hashStateDump ⟨.jenkins, seed⟩).drop (CmphHash.jenkins.name.length + 1) =
      bytes [seed] := by
    rw [hashStateDump, ← List.drop_drop, List.drop_left' rfl]
    rfl
  rw [hashStateLoad, hfind, Option.bind_eq_bind, Option.bind_some]
  dsimp only
  rw [hdrop, jenkinsStateLoad, words_bytes]
  rfl

/-- `hash_state_pack` -/
def hashStatePack (state : HashState) : Bytes :=
  match state.hashfunc with
  | .jenkins => bytes [state.seed]

/-- `hash_state_packed_size` -/
def hashStatePackedSize : CmphHash → Nat
  | .jenkins => 4

/-- `hash_packed` -/
def hashPacked (packed : Bytes) (hashfunc : CmphHash) (key : Bytes) : Option Nat := do
  match hashfunc with
  | .jenkins => return jenkinsHash (← (words packed)[0]?) key

@[simp] theorem hashStatePackedSize_eq (hashfunc : CmphHash) : hashStatePackedSize hashfunc = 4 := by
  cases hashfunc
  rfl

@[simp] theorem length_hashStatePack (state : HashState) :
    (hashStatePack state).length = hashStatePackedSize state.hashfunc := by
  obtain ⟨⟨⟩, seed⟩ := state
  rfl

/-- `hash_vector_packed` -/
def hashVectorPacked (packed : Bytes) (hashfunc : CmphHash) (key : Bytes) : Option Hashes := do
  match hashfunc with
  | .jenkins => return jenkinsHashVector (← (words packed)[0]?) key

theorem hashVectorPacked_pack (state : HashState) (rest key : Bytes) :
    hashVectorPacked (hashStatePack state ++ rest) state.hashfunc key =
      some (hashVector state key) := by
  obtain ⟨⟨⟩, seed⟩ := state
  change (do return jenkinsHashVector (← (words (bytes [seed] ++ rest))[0]?) key) = _
  rw [words_append]
  rfl

/-- A packed hash function is the hash function. -/
theorem hashPacked_pack (state : HashState) (rest key : Bytes) :
    hashPacked (hashStatePack state ++ rest) state.hashfunc key = some (hash state key) := by
  obtain ⟨⟨⟩, seed⟩ := state
  change (do return jenkinsHash (← (words (bytes [seed] ++ rest))[0]?) key) = _
  rw [words_append]
  rfl

/-! ## The head of a dump -/

/-- `CMPH_ALGO` -/
inductive CmphAlgo where
  | bmz | bmz8 | chm | brz | fch | bdz | bdzPh | chdPh | chd
  deriving DecidableEq

/-- The values below `CMPH_COUNT`. -/
def CmphAlgo.all : List CmphAlgo := [.bmz, .bmz8, .chm, .brz, .fch, .bdz, .bdzPh, .chdPh, .chd]

/-- `cmph_names` -/
def CmphAlgo.name : CmphAlgo → Bytes
  | bmz => text ['b', 'm', 'z']
  | bmz8 => text ['b', 'm', 'z', '8']
  | chm => text ['c', 'h', 'm']
  | brz => text ['b', 'r', 'z']
  | fch => text ['f', 'c', 'h']
  | bdz => text ['b', 'd', 'z']
  | bdzPh => text ['b', 'd', 'z', '_', 'p', 'h']
  | chdPh => text ['c', 'h', 'd', '_', 'p', 'h']
  | chd => text ['c', 'h', 'd']

/-- `cmph_t` -/
structure CmphT (α : Type) where
  algo : CmphAlgo
  size : Nat
  data : α

/-- `__cmph_dump` -/
def cmphDumpHead (algo : CmphAlgo) (size : Nat) : Bytes :=
  algo.name ++ 0 :: bytes [BitVec.ofNat 32 size]

/-- The loop of `__cmph_load` that reads the name into the buffer, where `room` bytes are left:
nothing at the end of the file -/
def readName : Nat → Bytes → Option (Option (Bytes × Bytes))
  | _, [] => some none
  | 0, _ :: _ => none
  | room + 1, c :: f =>
    if c = 0 then some (some ([], f))
    else return (← readName room f).map fun (name, f) => (c :: name, f)

/-- `__cmph_load`: the algorithm, the size and the rest of the file, or nothing where it returns
NULL. `BUFSIZ` is 8192. -/
def cmphLoadHead (f : Bytes) : Option (Option (CmphAlgo × Nat × Bytes)) := do
  match ← readName 8192 f with
  | none => return none
  | some (name, f) =>
    match (CmphAlgo.all.filter fun algo => algo.name = name).getLast? with
    | none => return none
    | some algo =>
      let (size, f) ← freadWord f
      return some (algo, size.toNat, f)

theorem readName_append {room : Nat} {name : Bytes} (hname : 0 ∉ name) (hroom : name.length < room)
    (f : Bytes) : readName room (name ++ 0 :: f) = some (some (name, f)) := by
  induction name generalizing room with
  | nil =>
    obtain ⟨room, rfl⟩ := Nat.exists_eq_succ_of_ne_zero (by omega : room ≠ 0)
    rfl
  | cons c name ih =>
    obtain ⟨hc, hname⟩ := not_or.mp (mt List.mem_cons.mpr hname)
    rw [List.length_cons] at hroom
    obtain ⟨room, rfl⟩ := Nat.exists_eq_succ_of_ne_zero (by omega : room ≠ 0)
    rw [List.cons_append, readName, if_neg (Ne.symm hc), ih hname (by omega)]
    rfl

/-- The head of a dump is loaded again, whatever follows it. -/
theorem cmphLoadHead_dump (algo : CmphAlgo) {size : Nat} (hsize : size < 2 ^ 32) (f : Bytes) :
    cmphLoadHead (cmphDumpHead algo size ++ f) = some (some (algo, size, f)) := by
  have hname : 0 ∉ algo.name ∧ algo.name.length < 8192 := by cases algo <;> decide
  have hlast : (CmphAlgo.all.filter fun a => a.name = algo.name).getLast? = some algo := by
    cases algo <;> rfl
  rw [cmphLoadHead, cmphDumpHead, List.append_assoc, List.cons_append,
    readName_append hname.1 hname.2, Option.bind_eq_bind, Option.bind_some]
  dsimp only
  rw [hlast]
  dsimp only
  rw [freadWord_bytes, Option.bind_eq_bind, Option.bind_some, BitVec.toNat_ofNat,
    Nat.mod_eq_of_lt hsize]
  rfl

end PerfectHash.Cmph
