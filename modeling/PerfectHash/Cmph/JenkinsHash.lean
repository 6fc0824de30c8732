import PerfectHash.Cmph

/-! # The hash function (`jenkins_hash.c`)

The key is mixed into three words in blocks of 12 bytes. Mixing can be undone (`unmix_mix`), so two
keys that differ in one block only never have the same three words (`jenkinsHashVector_block`), and
neither do two keys of at most 11 bytes (`jenkinsHashVector_injOn`). -/

namespace PerfectHash.Cmph

/-- The variables `hashes[0]`, `hashes[1]` and `hashes[2]` -/
@[ext]
structure Hashes where
  h0 : BitVec 32
  h1 : BitVec 32
  h2 : BitVec 32

/-- `mix(a,b,c)` -/
def mix (h : Hashes) : Hashes :=
  let ⟨a, b, c⟩ := h
  let a := a - b - c ^^^ c >>> 13
  let b := b - c - a ^^^ a <<< 8
  let c := c - a - b ^^^ b >>> 13
  let a := a - b - c ^^^ c >>> 12
  let b := b - c - a ^^^ a <<< 16
  let c := c - a - b ^^^ b >>> 5
  let a := a - b - c ^^^ c >>> 3
  let b := b - c - a ^^^ a <<< 10
  let c := c - a - b ^^^ b >>> 15
  ⟨a, b, c⟩

/-- `(cmph_uint32)k[i] << shift`, where `char` is signed. The cases of the last switch that the key
is too short for add nothing. -/
def charWord (k : Bytes) (i shift : Nat) : BitVec 32 :=
  match k[i]? with
  | some b => b.toBitVec.signExtend 32 <<< shift
  | none => 0

/-- `(cmph_uint8)k[i]` -/
def byteWord (k : Bytes) (i : Nat) : BitVec 32 :=
  match k[i]? with
  | some b => b.toBitVec.setWidth 32
  | none => 0

/-- The body of the loop over the blocks, before its `mix`. -/
def addBlock (h : Hashes) (k : Bytes) : Hashes where
  h0 := h.h0 + (charWord k 0 0 + charWord k 1 8 + charWord k 2 16 + charWord k 3 24)
  h1 := h.h1 + (charWord k 4 0 + charWord k 5 8 + charWord k 6 16 + charWord k 7 24)
  h2 := h.h2 + (charWord k 8 0 + charWord k 9 8 + charWord k 10 16 + charWord k 11 24)

/-- The loop over the blocks of the key, which ends when `len` is below 12. -/
def jenkinsBlocks (h : Hashes) : Bytes → Hashes × Bytes
  | k@(_ :: _ :: _ :: _ :: _ :: _ :: _ :: _ :: _ :: _ :: _ :: _ :: rest) =>
    jenkinsBlocks (mix (addBlock h k)) rest
  | k => (h, k)

/-- The last switch. -/
def jenkinsLast (h : Hashes) (k : Bytes) : Hashes where
  h0 := h.h0 + charWord k 3 24 + charWord k 2 16 + charWord k 1 8 + byteWord k 0
  h1 := h.h1 + charWord k 7 24 + charWord k 6 16 + charWord k 5 8 + byteWord k 4
  h2 := h.h2 + charWord k 10 24 + charWord k 9 16 + charWord k 8 8

/-- `__jenkins_hash_vector` -/
def jenkinsHashVector (seed : BitVec 32) (k : Bytes) : Hashes :=
  let (h, last) := jenkinsBlocks ⟨0x9e3779b9, 0x9e3779b9, seed⟩ k
  mix (jenkinsLast { h with h2 := h.h2 + BitVec.ofNat 32 k.length } last)

/-- `jenkins_hash` -/
def jenkinsHash (seed : BitVec 32) (k : Bytes) : Nat := (jenkinsHashVector seed k).h2.toNat

variable {h h' : Hashes} {k k' p s b b' : Bytes} {seed : BitVec 32}

/-! ## Mixing -/

/-- `mix` run backwards. -/
def unmix (h : Hashes) : Hashes :=
  let ⟨a, b, c⟩ := h
  let c := (c ^^^ b >>> 15) + b + a
  let b := (b ^^^ a <<< 10) + a + c
  let a := (a ^^^ c >>> 3) + c + b
  let c := (c ^^^ b >>> 5) + b + a
  let b := (b ^^^ a <<< 16) + a + c
  let a := (a ^^^ c >>> 12) + c + b
  let c := (c ^^^ b >>> 13) + b + a
  let b := (b ^^^ a <<< 8) + a + c
  let a := (a ^^^ c >>> 13) + c + b
  ⟨a, b, c⟩

theorem unmix_step (x y z d : BitVec 32) : ((x - y - z ^^^ d) ^^^ d) + z + y = x := by
  rw [BitVec.xor_assoc, BitVec.xor_self, BitVec.xor_zero, BitVec.sub_add_cancel,
    BitVec.sub_add_cancel]

/-- Mixing is reversible. -/
theorem unmix_mix (h : Hashes) : unmix (mix h) = h := by
  simp only [mix, unmix, unmix_step]

theorem mix_injective : Function.Injective mix := Function.LeftInverse.injective unmix_mix

/-! ## The words of a block -/

/-- A byte of the key as a signed `char`, or 0 behind the key. -/
def signed (k : Bytes) (i : Nat) : Int := (k.getD i 0).toBitVec.toInt

theorem signed_bounds (k : Bytes) (i : Nat) : -128 ≤ signed k i ∧ signed k i < 128 :=
  ⟨BitVec.le_toInt _, BitVec.toInt_lt⟩

theorem unsigned_eq (k : Bytes) (i : Nat) :
    ((k.getD i 0).toNat : Int) = if signed k i < 0 then signed k i + 256 else signed k i := by
  rw [signed, BitVec.toInt_eq_toNat_cond]
  change ((k.getD i 0).toBitVec.toNat : Int) = _
  have := (k.getD i 0).toBitVec.isLt
  split <;> split <;> omega

theorem signed_inj {i j : Nat} (h : signed k i = signed k' j) : k.getD i 0 = k'.getD j 0 :=
  UInt8.toBitVec_inj.mp (BitVec.toInt_inj.mp h)

theorem twoPow_eq (n : Nat) : BitVec.twoPow 32 n = BitVec.ofInt 32 (2 ^ n) := by
  refine BitVec.eq_of_toNat_eq ?_
  rw [BitVec.toNat_twoPow, BitVec.toNat_ofInt]
  norm_cast

theorem charWord_eq (k : Bytes) (i shift : Nat) :
    charWord k i shift = BitVec.ofInt 32 (signed k i * 2 ^ shift) := by
  rw [charWord, signed, List.getD_eq_getElem?_getD]
  cases k[i]? with
  | none => simp
  | some b =>
    rw [BitVec.ofInt_mul, ← twoPow_eq, ← BitVec.shiftLeft_eq_mul_twoPow]
    rfl

theorem byteWord_eq (k : Bytes) (i : Nat) :
    byteWord k i = BitVec.ofInt 32 (k.getD i 0).toNat := by
  rw [byteWord, List.getD_eq_getElem?_getD]
  cases k[i]? with
  | none => rfl
  | some b =>
    refine BitVec.eq_of_toNat_eq ?_
    rw [BitVec.toNat_setWidth, BitVec.ofInt_natCast, BitVec.toNat_ofNat]
    rfl

theorem ofInt_inj {x y : Int} (h : BitVec.ofInt 32 x = BitVec.ofInt 32 y) :
    x % 2 ^ 32 = y % 2 ^ 32 := by
  have h := congrArg BitVec.toNat h
  rw [BitVec.toNat_ofInt, BitVec.toNat_ofInt] at h
  omega

/-- The word of four bytes of a block. -/
theorem blockWord_inj {i : Nat} (h : charWord k i 0 + charWord k (i + 1) 8 + charWord k (i + 2) 16 +
      charWord k (i + 3) 24 =
    charWord k' i 0 + charWord k' (i + 1) 8 + charWord k' (i + 2) 16 + charWord k' (i + 3) 24) :
    ∀ j < 4, k.getD (i + j) 0 = k'.getD (i + j) 0 := by
  simp only [charWord_eq, ← BitVec.ofInt_add] at h
  have h := ofInt_inj h
  have hb := fun j => signed_bounds k (i + j)
  have hb' := fun j => signed_bounds k' (i + j)
  have h0 := hb 0; have h1 := hb 1; have h2 := hb 2; have h3 := hb 3
  have h0' := hb' 0; have h1' := hb' 1; have h2' := hb' 2; have h3' := hb' 3
  intro j hj
  refine signed_inj ?_
  obtain rfl | rfl | rfl | rfl : j = 0 ∨ j = 1 ∨ j = 2 ∨ j = 3 := by omega
  all_goals
    rw [Nat.add_zero] at *
    omega

/-- One of the first two words of the last bytes. -/
theorem lastWord_inj {i : Nat} (h : charWord k (i + 3) 24 + charWord k (i + 2) 16 +
      charWord k (i + 1) 8 + byteWord k i =
    charWord k' (i + 3) 24 + charWord k' (i + 2) 16 + charWord k' (i + 1) 8 + byteWord k' i) :
    ∀ j < 4, k.getD (i + j) 0 = k'.getD (i + j) 0 := by
  simp only [charWord_eq, byteWord_eq, unsigned_eq, ← BitVec.ofInt_add] at h
  have h := ofInt_inj h
  have hb := fun j => signed_bounds k (i + j)
  have hb' := fun j => signed_bounds k' (i + j)
  have h0 := hb 0; have h1 := hb 1; have h2 := hb 2; have h3 := hb 3
  have h0' := hb' 0; have h1' := hb' 1; have h2' := hb' 2; have h3' := hb' 3
  intro j hj
  refine signed_inj ?_
  obtain rfl | rfl | rfl | rfl : j = 0 ∨ j = 1 ∨ j = 2 ∨ j = 3 := by omega
  all_goals
    rw [Nat.add_zero] at *
    omega

/-- The third word of the last bytes, in which the first byte is for the length. -/
theorem lastWord2_inj {l l' : Nat} (hl : l < 256) (hl' : l' < 256)
    (h : BitVec.ofNat 32 l + charWord k 10 24 + charWord k 9 16 + charWord k 8 8 =
      BitVec.ofNat 32 l' + charWord k' 10 24 + charWord k' 9 16 + charWord k' 8 8) :
    l = l' ∧ ∀ j < 3, k.getD (8 + j) 0 = k'.getD (8 + j) 0 := by
  simp only [charWord_eq, ← BitVec.ofInt_natCast, ← BitVec.ofInt_add] at h
  have h := ofInt_inj h
  have h0 := signed_bounds k 8; have h1 := signed_bounds k 9; have h2 := signed_bounds k 10
  have h0' := signed_bounds k' 8; have h1' := signed_bounds k' 9; have h2' := signed_bounds k' 10
  refine ⟨by omega, fun j hj => signed_inj ?_⟩
  obtain rfl | rfl | rfl : j = 0 ∨ j = 1 ∨ j = 2 := by omega
  all_goals
    dsimp only [Nat.reduceAdd]
    omega

/-- The last bytes and their length can be told from the words. -/
theorem jenkinsLast_inj {l l' : Nat} (hl : l < 256) (hl' : l' < 256)
    (heq : jenkinsLast { h with h2 := h.h2 + BitVec.ofNat 32 l } k =
      jenkinsLast { h with h2 := h.h2 + BitVec.ofNat 32 l' } k') :
    l = l' ∧ ∀ i < 11, k.getD i 0 = k'.getD i 0 := by
  obtain ⟨h0, h1, h2⟩ := Hashes.mk.inj heq
  simp only [BitVec.add_assoc, BitVec.add_right_inj] at h0 h1 h2
  simp only [← BitVec.add_assoc] at h0 h1 h2
  have hlow := lastWord_inj (i := 0) h0
  have hmid := lastWord_inj (i := 4) h1
  obtain ⟨rfl, hhigh⟩ := lastWord2_inj hl hl' h2
  refine ⟨rfl, fun i hi => ?_⟩
  rcases Nat.lt_or_ge i 4 with h4 | h4
  · have := hlow i h4
    rwa [Nat.zero_add] at this
  · rcases Nat.lt_or_ge i 8 with h8 | h8
    · have := hmid (i - 4) (by omega)
      rwa [Nat.add_sub_cancel' h4] at this
    · have := hhigh (i - 8) (by omega)
      rwa [Nat.add_sub_cancel' h8] at this

theorem eq_of_getD {n : Nat} (hlen : k.length = k'.length) (hn : k.length ≤ n)
    (h : ∀ i < n, k.getD i 0 = k'.getD i 0) : k = k' := by
  refine List.ext_getElem hlen fun i hi hi' => ?_
  have := h i (by omega)
  rwa [List.getD_eq_getElem _ _ hi, List.getD_eq_getElem _ _ hi'] at this

/-- The bytes of a block can be told from its words. -/
theorem addBlock_right_inj (hb : b.length = 12) (hb' : b'.length = 12)
    (h : addBlock h b = addBlock h b') : b = b' := by
  obtain ⟨h0, h1, h2⟩ := Hashes.mk.inj h
  have hlow := blockWord_inj (i := 0) ((BitVec.add_right_inj _).mp h0)
  have hmid := blockWord_inj (i := 4) ((BitVec.add_right_inj _).mp h1)
  have hhigh := blockWord_inj (i := 8) ((BitVec.add_right_inj _).mp h2)
  refine eq_of_getD (hb.trans hb'.symm) hb.le fun i hi => ?_
  rcases Nat.lt_or_ge i 4 with h4 | h4
  · have := hlow i h4
    rwa [Nat.zero_add] at this
  · rcases Nat.lt_or_ge i 8 with h8 | h8
    · have := hmid (i - 4) (by omega)
      rwa [Nat.add_sub_cancel' h4] at this
    · have := hhigh (i - 8) (by omega)
      rwa [Nat.add_sub_cancel' h8] at this

theorem addBlock_left_inj (heq : addBlock h b = addBlock h' b) : h = h' := by
  obtain ⟨h0, h1, h2⟩ := Hashes.mk.inj heq
  exact Hashes.ext ((BitVec.add_left_inj _).mp h0) ((BitVec.add_left_inj _).mp h1)
    ((BitVec.add_left_inj _).mp h2)

theorem addBlock_append (hb : 12 ≤ b.length) : addBlock h (b ++ k) = addBlock h b := by
  have hchar (i shift : Nat) (hi : i < 12) : charWord (b ++ k) i shift = charWord b i shift := by
    rw [charWord, charWord, List.getElem?_append_left (by omega)]
  simp only [addBlock, hchar, Nat.reduceLT]

/-! ## The loop over the blocks -/

theorem jenkinsBlocks_of_ge (hk : 12 ≤ k.length) :
    jenkinsBlocks h k = jenkinsBlocks (mix (addBlock h k)) (k.drop 12) := by
  match k, hk with
  | _ :: _ :: _ :: _ :: _ :: _ :: _ :: _ :: _ :: _ :: _ :: _ :: _, _ => rfl

theorem jenkinsBlocks_of_lt (hk : k.length < 12) : jenkinsBlocks h k = (h, k) := by
  rw [jenkinsBlocks]
  rintro b0 b1 b2 b3 b4 b5 b6 b7 b8 b9 b10 b11 rest rfl
  simp only [List.length_cons] at hk
  omega

/-- What comes before a block. -/
theorem exists_jenkinsBlocks_append (h : Hashes) (hp : 12 ∣ p.length) :
    ∃ h', ∀ k, jenkinsBlocks h (p ++ k) = jenkinsBlocks h' k := by
  obtain ⟨n, hn⟩ := hp
  induction n generalizing h p with
  | zero =>
    obtain rfl := List.eq_nil_of_length_eq_zero hn
    exact ⟨h, fun k => rfl⟩
  | succ n ih =>
    obtain ⟨h', hh'⟩ := ih (p := p.drop 12) (mix (addBlock h p)) (by rw [List.length_drop]; omega)
    refine ⟨h', fun k => ?_⟩
    rw [jenkinsBlocks_of_ge (by rw [List.length_append]; omega), addBlock_append (by omega),
      List.drop_append_of_le_length (by omega), hh']

/-- The words before the rest of the key can be told from those behind it. -/
theorem jenkinsBlocks_inj (k : Bytes) (h h' : Hashes) :
    (jenkinsBlocks h k).2 = (jenkinsBlocks h' k).2 ∧
      ((jenkinsBlocks h k).1 = (jenkinsBlocks h' k).1 → h = h') := by
  induction hn : k.length using Nat.strong_induction_on generalizing k h h' with
  | _ n ih =>
    rcases Nat.lt_or_ge k.length 12 with hk | hk
    · rw [jenkinsBlocks_of_lt hk, jenkinsBlocks_of_lt hk]
      exact ⟨rfl, fun heq => heq⟩
    · rw [jenkinsBlocks_of_ge hk, jenkinsBlocks_of_ge (h := h') hk]
      obtain ⟨hlast, hinj⟩ := ih (k.length - 12) (by omega) (k.drop 12) _ _ List.length_drop
      exact ⟨hlast, fun heq => addBlock_left_inj (mix_injective (hinj heq))⟩

theorem jenkinsLast_left_inj (heq : jenkinsLast h k = jenkinsLast h' k) : h = h' := by
  obtain ⟨h0, h1, h2⟩ := Hashes.mk.inj heq
  simp only [BitVec.add_left_inj] at h0 h1 h2
  exact Hashes.ext h0 h1 h2

theorem jenkinsLast_right_inj (heq : jenkinsLast h k = jenkinsLast h k') :
    ∀ i < 11, k.getD i 0 = k'.getD i 0 := by
  refine (@jenkinsLast_inj h k k' 0 0 (by decide) (by decide) ?_).2
  rw [BitVec.add_zero]
  exact heq

/-! ## Keys with different hashes -/

/-- Keys of at most 11 bytes have the same three words only if they are equal. -/
theorem jenkinsHashVector_injOn (hk : k.length ≤ 11) (hk' : k'.length ≤ 11)
    (h : jenkinsHashVector seed k = jenkinsHashVector seed k') : k = k' := by
  rw [jenkinsHashVector, jenkinsHashVector, jenkinsBlocks_of_lt (by omega),
    jenkinsBlocks_of_lt (by omega)] at h
  obtain ⟨hlen, hget⟩ := jenkinsLast_inj (h := ⟨_, _, seed⟩) (by omega) (by omega) (mix_injective h)
  exact eq_of_getD hlen hk hget

theorem jenkinsHashVector_injOn_negative :
    jenkinsHashVector 5 [0xff, 0x61] ≠ jenkinsHashVector 5 [0xff, 0x62] := fun h =>
  absurd (jenkinsHashVector_injOn (by decide) (by decide) h) (by decide)

/-- Two keys that differ in one block of 12 bytes, or in the last bytes, never have the same three
words. -/
theorem jenkinsHashVector_block (hp : 12 ∣ p.length) (hlen : b.length = b'.length)
    (hb : b.length = 12 ∨ b.length < 12 ∧ s = [])
    (h : jenkinsHashVector seed (p ++ b ++ s) = jenkinsHashVector seed (p ++ b' ++ s)) :
    b = b' := by
  obtain ⟨h₀, hh₀⟩ := exists_jenkinsBlocks_append ⟨0x9e3779b9, 0x9e3779b9, seed⟩ hp
  have hkeylen : (p ++ (b ++ s)).length = (p ++ (b' ++ s)).length := by
    rw [List.length_append, List.length_append, List.length_append, List.length_append, hlen]
  rw [List.append_assoc, List.append_assoc] at h
  simp only [jenkinsHashVector, hh₀, hkeylen] at h
  have h := mix_injective h
  rcases hb with hb | ⟨hb, rfl⟩
  · have hblock {b : Bytes} (hb : b.length = 12) :
        jenkinsBlocks h₀ (b ++ s) = jenkinsBlocks (mix (addBlock h₀ b)) s := by
      rw [jenkinsBlocks_of_ge (by rw [List.length_append]; omega), addBlock_append hb.ge,
        List.drop_left' hb]
    have hb' := hlen.symm.trans hb
    rw [hblock hb, hblock hb'] at h
    -- the rest of the key is the same, so the words can be followed back to the block
    obtain ⟨hlast, hinj⟩ := jenkinsBlocks_inj s (mix (addBlock h₀ b)) (mix (addBlock h₀ b'))
    rw [hlast] at h
    obtain ⟨h0, h1, h2⟩ := Hashes.mk.inj (jenkinsLast_left_inj h)
    have hwords := hinj (Hashes.ext h0 h1 ((BitVec.add_left_inj _).mp h2))
    exact addBlock_right_inj hb hb' (mix_injective hwords)
  · rw [List.append_nil, List.append_nil] at h
    rw [jenkinsBlocks_of_lt hb, jenkinsBlocks_of_lt (hlen ▸ hb)] at h
    exact eq_of_getD hlen (by omega) (jenkinsLast_right_inj h)

theorem jenkinsHashVector_block_last :
    jenkinsHashVector 0 (List.replicate 12 0x41 ++ [0x61] ++ []) ≠
      jenkinsHashVector 0 (List.replicate 12 0x41 ++ [0x62] ++ []) := fun h =>
  absurd (jenkinsHashVector_block (by decide) (by decide) (by decide) h) (by decide)

end PerfectHash.Cmph
