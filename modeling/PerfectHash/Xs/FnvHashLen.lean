import PerfectHash.HanovPP.SaveC

/-! # The hash of the build without zlib and SSE4.2 (`fnv_hash_len` of `Hash.xs`)

Such a build makes its tables with `fnv_hash_len`, and `Hanov::c_hash_impl` emits the hash of
`HanovPP` for the lookup. `fnv_hash_len` skips the first byte of the key, reads the NUL after the
key instead, and takes the bytes as `char`. So the two agree on a key and its prefixes exactly if
the bytes are NUL (`hash_eq_cHashImpl_iff`).

The hashes of the other builds are parameters. -/

namespace PerfectHash.Xs

open CValues C
open HanovPP (fnvStep cHash)

/-- A `char`, which is signed, as an operand of an `unsigned`. -/
def charWord (c : UInt8) : BitVec 32 := c.toBitVec.signExtend 32

/-- The loop of `fnv_hash_len`: the given number of turns at the pointer `s`. -/
def fnvLoop : BitVec 32 → Bytes → Nat → Option (BitVec 32)
  | d, _, 0 => some d
  | _, [], _ + 1 => none
  | d, c :: s, n + 1 => fnvLoop ((d * 0x01000193 ^^^ charWord c) &&& 0xffffffff) s n

/-- `fnv_hash_len(d, s, l)` -/
def fnvHashLen (d : BitVec 32) (s : Bytes) (l : Int) : Option (BitVec 32) :=
  match s with
  | [] => none
  -- `int c = *s++`, and `c` is not used
  | _ :: s => fnvLoop (if d = 0 then 0x01000193 else d) s l.toNat

/-- A hash function with its arguments: the seed, the string and its length. -/
abbrev Hash := Nat → Bytes → Nat → Option (BitVec 32)

/-- What `HASHNAME` is defined as. -/
inductive HashName where
  | crc32Zlib
  | crc32Sse42
  | fnv
  deriving DecidableEq, Repr

/-- The hash name of a build. -/
def hashname (haveZlib sse42 : Bool) : HashName :=
  if haveZlib then .crc32Zlib else if sse42 then .crc32Sse42 else .fnv

section
variable (zlib sse42 : Hash)

/-- `crc32(seed, str, len)` -/
def crc32 : HashName → Hash
  | .crc32Zlib => zlib
  | .crc32Sse42 => sse42
  | .fnv => fun seed s l => fnvHashLen (BitVec.ofNat 32 seed) s (int.conv l)

/-- `hash(obj, key, seed)` of `Hanov`. A NUL follows the key. -/
def hash (name : HashName) (key : Bytes) (seed : Nat) : Option (BitVec 32) :=
  crc32 zlib sse42 name seed (key ++ [0]) key.length

/-- `Hanov::c_hash_impl`: the function `<base>_hash(d, s, l)`. -/
def cHashImpl : HashName → Hash
  | .crc32Zlib => zlib
  | .crc32Sse42 => sse42
  | .fnv => fun seed s l => cHash (BitVec.ofNat 32 seed) s (int.conv l)

end

/-! ## The two loops -/

variable {key k s : Bytes} {d : BitVec 32} {n : Nat}

/-- The step of `fnv_hash_len`. -/
def charStep (d : BitVec 32) (c : UInt8) : BitVec 32 := d * 0x01000193 ^^^ charWord c

/-- The word that the loops start with. -/
def start (d : BitVec 32) : BitVec 32 := if d = 0 then 0x01000193 else d

theorem fnvLoop_eq (h : n ≤ s.length) : fnvLoop d s n = some ((s.take n).foldl charStep d) := by
  induction n generalizing s d with
  | zero => simp [fnvLoop]
  | succ n ih =>
    cases s with
    | nil => cases h
    | cons c s =>
      rw [fnvLoop, HanovPP.and_mask, ih (Nat.le_of_succ_le_succ h), List.take_succ_cons,
        List.foldl_cons]
      rfl

/-- The turns of the loops for a key of `n` bytes: the length is converted to an `int`. -/
def turns (n : Nat) : Nat := (int.conv n).toNat

theorem turns_of_lt (hn : n < 2 ^ 31) : turns n = n := by
  rw [turns, int_conv_natCast hn, Int.toNat_natCast]

theorem turns_lt (n : Nat) : turns n < 2 ^ 31 := by
  have := int_conv_lt n
  rw [turns]
  omega

/-- The length of a long key wraps around. -/
theorem turns_wrap (n : Nat) : turns n = n ∨ turns n = 0 ∨ turns n + 2 ^ 32 ≤ n := by
  rw [turns, int_conv, Int.bmod_def]
  omega

theorem turns_le (n : Nat) : turns n ≤ n := by
  have := int_conv_natCast_le n
  rw [turns]
  omega

theorem turns_add (hn : n < 2 ^ 31) : turns (2 ^ 32 + n) = n := by
  rw [turns, int_conv, Int.bmod_def]
  omega

theorem turns_zero : turns 0 = 0 := turns_of_lt (by decide)

theorem fnvHashLen_eq (c : UInt8) (h : turns n ≤ s.length) :
    fnvHashLen d (c :: s) (int.conv n) = some ((s.take (turns n)).foldl charStep (start d)) :=
  fnvLoop_eq h

/-- The bytes that `fnv_hash_len` hashes: the first one is left out, and the NUL is taken in. -/
theorem hash_fnv (zlib sse42 : Hash) (key : Bytes) (seed : Nat) :
    hash zlib sse42 .fnv key seed =
      some (((key.tail ++ [0]).take (turns key.length)).foldl charStep
        (start (BitVec.ofNat 32 seed))) := by
  have hle := turns_le key.length
  cases key with
  | nil =>
    have hnil := fnvHashLen_eq (d := BitVec.ofNat 32 seed) 0 (s := []) turns_zero.le
    rw [turns_zero, List.take_zero] at hnil
    rw [List.length_nil, turns_zero, List.take_zero]
    exact hnil
  | cons c key =>
    have hlength : turns (c :: key).length ≤ (key ++ [0]).length := by
      rwa [List.length_append, List.length_singleton]
    rw [List.tail_cons, ← fnvHashLen_eq c hlength]
    rfl

/-- The bytes that the generated code hashes. -/
theorem cHashImpl_fnv (zlib sse42 : Hash) (key rest : Bytes) (seed : Nat) :
    cHashImpl zlib sse42 .fnv seed (key ++ rest) key.length =
      some ((key.take (turns key.length)).foldl fnvStep (start (BitVec.ofNat 32 seed))) := by
  have hle := turns_le key.length
  have hle' : turns key.length ≤ (key ++ rest).length := by
    rw [List.length_append]
    omega
  have htake : (key ++ rest).take (turns key.length) = key.take (turns key.length) :=
    List.take_append_of_le_length hle
  rw [← htake]
  exact HanovPP.cHash_eq _ hle'

/-! ## Where they agree -/

/-- The bytes of a key that are hashed for its prefixes are NUL. From `2 ^ 32` bytes on the length
wraps around, and such a prefix can have one more byte hashed. -/
def NulBytes (key : Bytes) : Prop :=
  (∀ i < 2 ^ 31 - 1, key.getD i 0 = 0) ∧
    (2 ^ 32 + 2 ^ 31 - 1 ≤ key.length → key.getD (2 ^ 31 - 1) 0 = 0)

theorem step_nul (d : BitVec 32) : charStep d 0 = fnvStep d 0 := by
  have hprime : (0x01000193 : BitVec 32) = BitVec.ofNat 32 HanovPP.fnvPrime := rfl
  have hword : charWord 0 = BitVec.ofNat 32 (0 : UInt8).toNat := by decide
  rw [charStep, fnvStep, hprime, hword]

theorem foldl_nul (n : Nat) (d : BitVec 32) :
    (List.replicate n 0).foldl charStep d = (List.replicate n 0).foldl fnvStep d := by
  induction n generalizing d with
  | zero => rw [List.replicate_zero, List.foldl_nil, List.foldl_nil]
  | succ n ih =>
    rw [List.replicate_succ, List.foldl_cons, List.foldl_cons, step_nul]
    exact ih _

theorem getD_front (hk : k <+: key) {i : Nat} (hi : i < k.length) : k.getD i 0 = key.getD i 0 := by
  obtain ⟨rest, rfl⟩ := hk
  exact (List.getD_append _ _ _ _ hi).symm

/-- Up to the byte whose number is the number of turns, a prefix has NUL bytes only. -/
theorem NulBytes.getD (h : NulBytes key) (hk : k <+: key) {i : Nat} (hi : i ≤ turns k.length) :
    k.getD i 0 = 0 := by
  by_cases hlt : i < k.length
  · have := turns_lt k.length
    have := turns_wrap k.length
    have hle := hk.length_le
    rw [getD_front hk hlt]
    by_cases hi' : i < 2 ^ 31 - 1
    · exact h.1 i hi'
    · obtain rfl : i = 2 ^ 31 - 1 := by omega
      exact h.2 (by omega)
  · exact List.getD_eq_default _ _ (by omega)

/-! The bytes that are hashed, one by one. -/

theorem getD_tail_concat (k : Bytes) (i : Nat) : (k.tail ++ [0]).getD i 0 = k.getD (i + 1) 0 := by
  cases k with
  | nil => cases i <;> rfl
  | cons c k =>
    rw [List.tail_cons, List.getD_cons_succ]
    rcases Nat.lt_or_ge i k.length with hi | hi
    · exact List.getD_append _ _ _ _ hi
    · rw [List.getD_append_right _ _ _ _ hi, List.getD_eq_default k _ hi]
      cases i - k.length <;> rfl

theorem length_tail_concat (hk : k ≠ []) : (k.tail ++ [0]).length = k.length := by
  cases k with
  | nil => exact absurd rfl hk
  | cons c k => rw [List.tail_cons, List.length_append, List.length_singleton, List.length_cons]

theorem take_nul (h : ∀ i < n, s.getD i 0 = 0) (hn : n ≤ s.length) :
    s.take n = List.replicate n 0 := by
  refine List.ext_getElem (by simpa using hn) fun i hi _ => ?_
  rw [List.length_take_of_le hn] at hi
  have hnul := h i hi
  rw [List.getElem_take, List.getElem_replicate]
  rwa [List.getD_eq_getElem] at hnul

theorem take_succ_getD (hn : n < s.length) : s.take (n + 1) = s.take n ++ [s.getD n 0] := by
  rw [List.getD_eq_getElem _ _ hn, List.take_append_getElem]

/-- On a key whose bytes are NUL both hashes see only NUL bytes. -/
theorem NulBytes.hash_eq (h : NulBytes key) (hk : k <+: key) (zlib sse42 : Hash) (seed : Nat) :
    hash zlib sse42 .fnv k seed = cHashImpl zlib sse42 .fnv seed (k ++ [0]) k.length := by
  have hle := turns_le k.length
  have hc : k.take (turns k.length) = List.replicate (turns k.length) 0 :=
    take_nul (fun i hi => h.getD hk (Nat.le_of_lt hi)) hle
  have hxs : (k.tail ++ [0]).take (turns k.length) = List.replicate (turns k.length) 0 := by
    refine take_nul (fun i hi => ?_) ?_
    · rw [getD_tail_concat]
      exact h.getD hk hi
    · rw [List.length_append, List.length_tail, List.length_singleton]
      omega
  rw [hash_fnv, cHashImpl_fnv, hxs, hc, foldl_nul]

/-! ## Where they do not agree -/

theorem fnvStep_nul (d : BitVec 32) : fnvStep d 0 = d * 0x01000193 := BitVec.xor_zero

/-- Multiplication by the prime can be undone. -/
theorem mul_inverse (d : BitVec 32) : d * 0x359C449B * 0x01000193 = d := by
  have hinv : (0x01000193 * 0x359C449B : BitVec 32) = 1#32 := HanovPP.fnvPrime_mul_inverse
  rw [BitVec.mul_assoc, BitVec.mul_comm 0x359C449B, hinv, BitVec.mul_one]

/-- Over NUL bytes every word but 0 can be reached. -/
theorem exists_seed (n : Nat) (hd : d ≠ 0) :
    ∃ seed ≠ 0, (List.replicate n 0).foldl fnvStep seed = d := by
  induction n generalizing d with
  | zero => exact ⟨d, hd, rfl⟩
  | succ n ih =>
    obtain ⟨seed, hseed, hfold⟩ := ih (d := d * 0x359C449B) fun h => hd (by
      rw [← mul_inverse d, h]
      rfl)
    refine ⟨seed, hseed, ?_⟩
    rw [List.replicate_succ', List.foldl_append, hfold, List.foldl_cons, List.foldl_nil,
      fnvStep_nul, mul_inverse]

theorem eq_zero_of_charWord {c : UInt8} (h : charWord c = 0) : c = 0 := by
  have hall : ∀ b : BitVec 8, b.signExtend 32 = 0 → b = 0 := by decide
  exact UInt8.toBitVec_inj.mp (hall _ h)

theorem eq_zero_of_charStep {c : UInt8} (h : charStep d c = charStep d 0) : c = 0 := by
  rw [charStep, charStep, BitVec.xor_right_inj] at h
  exact eq_zero_of_charWord h

/-- Multiplied by the prime, the word of a byte in the one hash is the word of the byte in the other
one only for NUL. -/
theorem eq_zero_of_charWord_mul {c : UInt8}
    (h : charWord c * 0x01000193 = BitVec.ofNat 32 c.toNat) : c = 0 := by
  have hall : ∀ b : BitVec 8, b.signExtend 32 * 0x01000193 = BitVec.ofNat 32 b.toNat → b = 0 := by
    decide +kernel
  exact UInt8.toBitVec_inj.mp (hall _ h)

theorem start_toNat (hd : d ≠ 0) : start (BitVec.ofNat 32 d.toNat) = d := by
  rw [BitVec.ofNat_toNat, BitVec.setWidth_eq, start, if_neg hd]

/-- If the hashes agree on `n + 1` bytes, and the bytes before the last one are NUL, so is the last
one. -/
theorem getD_eq_zero_of_eq (hn : n + 1 < 2 ^ 31) (hlength : s.length = n + 1)
    (hnul : ∀ i < n, s.getD i 0 = 0) {zlib sse42 : Hash}
    (h : ∀ seed, hash zlib sse42 .fnv s seed = cHashImpl zlib sse42 .fnv seed (s ++ [0]) s.length) :
    s.getD n 0 = 0 := by
  have hturns : turns s.length = n + 1 := by rw [hlength, turns_of_lt hn]
  have hne : s ≠ [] := List.ne_nil_of_length_pos (by omega)
  have htail := length_tail_concat hne
  have hend : s.getD (n + 1) 0 = 0 := List.getD_eq_default _ _ hlength.le
  simp only [hash_fnv, cHashImpl_fnv, hturns, Option.some.injEq] at h
  rw [take_succ_getD (s := s) (by omega), take_nul hnul (by omega),
    take_succ_getD (s := s.tail ++ [0]) (by omega), getD_tail_concat, hend] at h
  cases n with
  | zero =>
    -- the only byte is skipped
    have hone := h 1
    rw [List.take_zero, List.replicate_zero, List.nil_append, List.nil_append, List.foldl_cons,
      List.foldl_nil, List.foldl_cons, List.foldl_nil, step_nul] at hone
    exact HanovPP.fnvStep_inj hone.symm
  | succ n =>
    have hfront : (s.tail ++ [0]).take n = List.replicate n 0 :=
      take_nul (fun i hi => by rw [getD_tail_concat]; exact hnul _ (by omega)) (by omega)
    rw [take_succ_getD (s := s.tail ++ [0]) (by omega), getD_tail_concat, hfront] at h
    generalize s.getD (n + 1) 0 = c at *
    by_contra hc
    -- a seed that leads to the word of the byte, which the exclusive or makes 0
    obtain ⟨seed, hseed, hfold⟩ := exists_seed (n + 1) (mt eq_zero_of_charWord hc)
    have hseed' := h seed.toNat
    simp only [start_toNat hseed, List.foldl_append, foldl_nul, List.foldl_cons, List.foldl_nil,
      hfold] at hseed'
    rw [List.replicate_succ', List.foldl_append, List.foldl_cons, List.foldl_nil, fnvStep_nul]
      at hfold
    rw [step_nul, fnvStep_nul, charStep, hfold, BitVec.xor_self, BitVec.zero_mul, fnvStep] at hseed'
    exact hc (eq_zero_of_charWord_mul (BitVec.xor_eq_zero_iff.mp hseed'.symm))

/-- Where the length wraps around, `fnv_hash_len` reads one byte more of the key. -/
theorem getD_eq_zero_of_wrap (hn : n + 1 < 2 ^ 31) (hlength : s.length = 2 ^ 32 + (n + 1))
    (hnul : ∀ i < n + 1, s.getD i 0 = 0) {zlib sse42 : Hash}
    (h : ∀ seed, hash zlib sse42 .fnv s seed = cHashImpl zlib sse42 .fnv seed (s ++ [0]) s.length) :
    s.getD (n + 1) 0 = 0 := by
  have hturns : turns s.length = n + 1 := by rw [hlength, turns_add hn]
  have hne : s ≠ [] := List.ne_nil_of_length_pos (by omega)
  have htail := length_tail_concat hne
  have hfront : (s.tail ++ [0]).take n = List.replicate n 0 :=
    take_nul (fun i hi => by rw [getD_tail_concat]; exact hnul _ (by omega)) (by omega)
  simp only [hash_fnv, cHashImpl_fnv, hturns, Option.some.injEq] at h
  rw [take_nul hnul (by omega), take_succ_getD (s := s.tail ++ [0]) (by omega), getD_tail_concat,
    hfront] at h
  have hone := h 1
  rw [List.replicate_succ', List.foldl_append, foldl_nul, List.foldl_append, List.foldl_cons,
    List.foldl_nil, List.foldl_cons, List.foldl_nil, ← step_nul] at hone
  exact eq_zero_of_charStep hone

/-- The two hashes agree on a key and its prefixes under all seeds exactly if the bytes are NUL. -/
theorem hash_eq_cHashImpl_iff (zlib sse42 : Hash) (key : Bytes) :
    (∀ seed k, k <+: key → hash zlib sse42 (hashname false false) k seed =
        cHashImpl zlib sse42 (hashname false false) seed (k ++ [0]) k.length) ↔
      NulBytes key := by
  have hname : hashname false false = .fnv := rfl
  rw [hname]
  constructor
  · intro h
    have hfront (i : Nat) (hi : i < 2 ^ 31 - 1) : key.getD i 0 = 0 := by
      induction i using Nat.strong_induction_on with
      | _ i ih =>
        rcases Nat.lt_or_ge i key.length with hlt | hge
        · have hlength : (key.take (i + 1)).length = i + 1 := List.length_take_of_le hlt
          have hget {j : Nat} (hj : j < i + 1) : (key.take (i + 1)).getD j 0 = key.getD j 0 :=
            getD_front (List.take_prefix _ _) (by omega)
          rw [← hget (Nat.lt_succ_self i)]
          refine getD_eq_zero_of_eq (by omega) hlength (fun j hj => ?_)
            fun seed => h seed _ (List.take_prefix _ _)
          rw [hget (by omega)]
          exact ih j hj (by omega)
        · exact List.getD_eq_default _ _ hge
    refine ⟨hfront, fun hle => ?_⟩
    obtain ⟨m, hm⟩ : ∃ m, m + 1 = 2 ^ 31 - 1 := ⟨2 ^ 31 - 2, rfl⟩
    have hlength : (key.take (2 ^ 32 + (m + 1))).length = 2 ^ 32 + (m + 1) :=
      List.length_take_of_le (by omega)
    have hget {j : Nat} (hj : j < 2 ^ 32 + (m + 1)) :
        (key.take (2 ^ 32 + (m + 1))).getD j 0 = key.getD j 0 :=
      getD_front (List.take_prefix _ _) (by omega)
    rw [← hm, ← hget (by omega)]
    refine getD_eq_zero_of_wrap (by omega) hlength (fun j hj => ?_)
      fun seed => h seed _ (List.take_prefix _ _)
    rw [hget (by omega)]
    exact hfront j (by omega)
  · intro h seed k hk
    exact h.hash_eq hk zlib sse42 seed

/-- The key `a` has two hashes under seed 0. -/
theorem not_hash_eq_cHashImpl : ¬ ∀ (zlib sse42 : Hash) (seed : Nat) (key : Bytes),
    hash zlib sse42 (hashname false false) key seed =
      cHashImpl zlib sse42 (hashname false false) seed (key ++ [0]) key.length := by
  intro h
  exact absurd (h (fun _ _ _ => none) (fun _ _ _ => none) 0 [97]) (by decide)

end PerfectHash.Xs
