import PerfectHash.Cmph

/-! # Bits and bit fields in tables (`bitbool.h`)

Each macro is connected to the bit string of its table: a write of one bit changes that bit only
(`setBit_spec`, `setBit32_spec`), a write of a field replaces the bits of the field
(`setField_append`), and the field is read back (`getField_append`). -/

namespace PerfectHash.Cmph

open BitString

/-- `bitmask`, the table of the powers of two -/
def bitmask (i : Nat) : UInt8 := UInt8.ofNat (1 <<< i)

/-- `bitmask32` -/
def bitmask32 (i : Nat) : BitVec 32 := 1#32 <<< i

/-- `GETBIT(array, i)` -/
def getBit (array : Bytes) (i : Nat) : Option Bool := do
  let x ← array[i >>> 3]?
  return (x &&& bitmask (i &&& 0x7)) >>> UInt8.ofNat (i &&& 0x7) != 0

/-- `SETBIT(array, i)` -/
def setBit (array : Bytes) (i : Nat) : Option Bytes := do
  let x ← array[i >>> 3]?
  write array (i >>> 3) (x ||| bitmask (i &&& 0x7))

/-- `GETBIT32(array, i)` -/
def getBit32 (array : List (BitVec 32)) (i : Nat) : Option Bool := do
  let x ← array[i >>> 5]?
  return x &&& bitmask32 (i &&& 0x1f) != 0

/-- `SETBIT32(array, i)` -/
def setBit32 (array : List (BitVec 32)) (i : Nat) : Option (List (BitVec 32)) := do
  let x ← array[i >>> 5]?
  write array (i >>> 5) (x ||| bitmask32 (i &&& 0x1f))

/-- `UNSETBIT32(array, i)` -/
def unsetBit32 (array : List (BitVec 32)) (i : Nat) : Option (List (BitVec 32)) := do
  let x ← array[i >>> 5]?
  write array (i >>> 5) (x ^^^ bitmask32 (i &&& 0x1f))

/-- `BITS_TABLE_SIZE(n, bits_length)` -/
def bitsTableSize (n bitsLength : Nat) : Nat := u32 (n * bitsLength + 31) >>> 5

/-- Write a field with its mask at a bit. -/
def setField (table : List (BitVec 32)) (bitIdx : Nat) (bitsString : BitVec 32) (length : Nat)
    (mask : BitVec 32) : Option (List (BitVec 32)) := do
  let wordIdx := bitIdx >>> 5
  let shift1 := bitIdx &&& 0x1f
  let shift2 := 32 - shift1
  let x ← table[wordIdx]?
  let table ← write table wordIdx (x &&& ~~~(mask <<< shift1) ||| bitsString <<< shift1)
  if shift2 < length then
    let x ← table[wordIdx + 1]?
    write table (wordIdx + 1) (x &&& ~~~(mask >>> shift2) ||| bitsString >>> shift2)
  else return table

/-- Read a field with its mask at a bit. -/
def getField (table : List (BitVec 32)) (bitIdx length : Nat) (mask : BitVec 32) :
    Option (BitVec 32) := do
  let wordIdx := bitIdx >>> 5
  let shift1 := bitIdx &&& 0x1f
  let shift2 := 32 - shift1
  let x ← table[wordIdx]?
  let bitsString := x >>> shift1 &&& mask
  if shift2 < length then
    let x ← table[wordIdx + 1]?
    return bitsString ||| x <<< shift2 &&& mask
  else return bitsString

/-- `(1U << length) - 1U` -/
def mask (length : Nat) : BitVec 32 := 1#32 <<< length - 1

/-- `set_bits_value` -/
def setBitsValue (bitsTable : List (BitVec 32)) (index : Nat) (bitsString : BitVec 32)
    (stringLength : Nat) (stringMask : BitVec 32) : Option (List (BitVec 32)) :=
  setField bitsTable (u32 (index * stringLength)) bitsString stringLength stringMask

/-- `get_bits_value` -/
def getBitsValue (bitsTable : List (BitVec 32)) (index stringLength : Nat)
    (stringMask : BitVec 32) : Option (BitVec 32) :=
  getField bitsTable (u32 (index * stringLength)) stringLength stringMask

/-- `set_bits_at_pos` -/
def setBitsAtPos (bitsTable : List (BitVec 32)) (pos : Nat) (bitsString : BitVec 32)
    (stringLength : Nat) : Option (List (BitVec 32)) :=
  setField bitsTable pos bitsString stringLength (mask stringLength)

/-- `get_bits_at_pos` -/
def getBitsAtPos (bitsTable : List (BitVec 32)) (pos stringLength : Nat) : Option (BitVec 32) :=
  getField bitsTable pos stringLength (mask stringLength)

variable {array array' : Bytes} {t t' : List (BitVec 32)} {i k n length : Nat} {v : BitVec 32}
  {a b c : List Bool}

/-! ## Single bits -/

theorem shiftRight_three (i : Nat) : i >>> 3 = i / 8 := Nat.shiftRight_eq_div_pow i 3
theorem shiftRight_five (i : Nat) : i >>> 5 = i / 32 := Nat.shiftRight_eq_div_pow i 5
theorem and_seven (i : Nat) : i &&& 0x7 = i % 8 := Nat.and_two_pow_sub_one_eq_mod i 3
theorem and_thirtyOne (i : Nat) : i &&& 0x1f = i % 32 := Nat.and_two_pow_sub_one_eq_mod i 5

theorem getLsbD_bitmask32 (k j : Nat) : (bitmask32 j).getLsbD k = decide (k = j ∧ j < 32) := by
  rw [bitmask32, BitVec.getLsbD_shiftLeft]
  rcases Nat.lt_trichotomy k j with h | rfl | h
  · simp [h, h.ne]
  · simp
  · have hone : (1#32).getLsbD (k - j) = false := by
      rw [BitVec.getLsbD_one]
      simp [show k - j ≠ 0 by omega]
    simp [hone, h.ne']

theorem getBit_eq (array : Bytes) (i : Nat) : getBit array i = (byteBits array)[i]? := by
  rw [byteBits, getElem?_bits (by decide), List.getElem?_map, getBit, shiftRight_three, and_seven]
  cases h : array[i / 8]? with
  | none => rfl
  | some x =>
    have main : ∀ (x : BitVec 8) (j : Fin 8),
        ((UInt8.ofBitVec x &&& bitmask j) >>> UInt8.ofNat j != 0) = x.getLsbD j := by
      decide +kernel
    exact congrArg some (main x.toBitVec ⟨i % 8, Nat.mod_lt _ (by decide)⟩)

/-- No bit of a table of zeros is set. -/
theorem getBit_replicate (h : i >>> 3 < n) : getBit (List.replicate n 0) i = some false := by
  rw [getBit, List.getElem?_replicate, if_pos h]
  simp

theorem setBit_spec (hi : i < 8 * array.length) : ∃ array', setBit array i = some array' ∧
    array'.length = array.length ∧ byteBits array' = (byteBits array).set i true := by
  have hdiv : i / 8 < array.length := by omega
  rw [setBit, shiftRight_three, and_seven, List.getElem?_eq_getElem hdiv]
  refine ⟨_, write_of_lt hdiv _, List.length_set, List.ext_getElem? fun k => ?_⟩
  have main : ∀ (x : BitVec 8) (j m : Fin 8),
      (UInt8.ofBitVec x ||| bitmask j).toBitVec.getLsbD m = if j = m then true else x.getLsbD m := by
    decide +kernel
  have hbit := main array[i / 8].toBitVec ⟨i % 8, Nat.mod_lt _ (by decide)⟩
    ⟨k % 8, Nat.mod_lt _ (by decide)⟩
  simp only [Fin.mk.injEq] at hbit
  rw [byteBits, List.map_set, getElem?_bits_set (by decide) (by rwa [List.length_map]),
    List.getElem?_set, length_byteBits, if_pos hi, byteBits, getElem?_bits (by decide)]
  by_cases hk : k / 8 = i / 8
  · rw [if_pos hk, hk, List.getElem?_map, List.getElem?_eq_getElem hdiv]
    refine (congrArg some hbit).trans ?_
    by_cases hki : i = k
    · rw [if_pos hki, if_pos (by rw [hki])]
    · rw [if_neg hki, if_neg (by omega)]
      rfl
  · rw [if_neg hk, if_neg (by rintro rfl; exact hk rfl)]

theorem getBit32_eq (t : List (BitVec 32)) (i : Nat) : getBit32 t i = (bits t)[i]? := by
  rw [getElem?_bits (by decide), getBit32, shiftRight_five, and_thirtyOne]
  cases h : t[i / 32]? with
  | none => rfl
  | some x =>
    refine congrArg some ?_
    have hlt : i % 32 < 32 := Nat.mod_lt _ (by decide)
    rw [eq_comm, Bool.eq_iff_iff, bne_iff_ne]
    constructor
    · intro hx h0
      have hbit : (x &&& bitmask32 (i % 32)).getLsbD (i % 32) = false := by
        rw [h0]
        exact BitVec.getLsbD_zero
      rw [BitVec.getLsbD_and, getLsbD_bitmask32, decide_eq_true ⟨rfl, hlt⟩, Bool.and_true] at hbit
      exact absurd (hx.symm.trans hbit) (by decide)
    · intro h0
      by_contra hx
      refine h0 (BitVec.eq_of_getLsbD_eq fun k _ => ?_)
      rw [BitVec.getLsbD_and, getLsbD_bitmask32]
      by_cases hk : k = i % 32
      · simp [hk, Bool.eq_false_iff.mpr hx]
      · simp [hk]

/-- What a write of one word changes. -/
theorem write_word {x y : BitVec 32} (hx : t[i / 32]? = some x) {e : Bool}
    (hy : ∀ k < 32, y.getLsbD k = if i % 32 = k then e else x.getLsbD k) :
    ∃ t', write t (i / 32) y = some t' ∧ t'.length = t.length ∧ bits t' = (bits t).set i e := by
  obtain ⟨hlt, rfl⟩ := List.getElem?_eq_some_iff.mp hx
  refine ⟨_, write_of_lt hlt _, List.length_set, List.ext_getElem? fun k => ?_⟩
  rw [getElem?_bits_set (by decide) hlt, List.getElem?_set, length_bits,
    if_pos (show i < 32 * t.length by omega), getElem?_bits (by decide)]
  by_cases hk : k / 32 = i / 32
  · rw [if_pos hk, hk, hx, hy _ (Nat.mod_lt _ (by decide))]
    by_cases hki : i = k
    · rw [if_pos hki, if_pos (by rw [hki])]
    · rw [if_neg hki, if_neg (by omega)]
      rfl
  · rw [if_neg hk, if_neg (by rintro rfl; exact hk rfl)]

theorem setBit32_spec (hi : i < 32 * t.length) : ∃ t', setBit32 t i = some t' ∧
    t'.length = t.length ∧ bits t' = (bits t).set i true := by
  rw [setBit32, shiftRight_five, and_thirtyOne]
  have hdiv : i / 32 < t.length := by omega
  have hx := List.getElem?_eq_getElem hdiv
  rw [hx]
  refine write_word hx fun k hk => ?_
  rw [BitVec.getLsbD_or, getLsbD_bitmask32]
  by_cases h : i % 32 = k
  · simp [h, hk]
  · simp [h, Ne.symm h]

/-- `UNSETBIT32` turns a bit over. -/
theorem unsetBit32_spec (hi : (bits t)[i]? = some true) : ∃ t', unsetBit32 t i = some t' ∧
    t'.length = t.length ∧ bits t' = (bits t).set i false := by
  rw [unsetBit32, shiftRight_five, and_thirtyOne]
  rw [getElem?_bits (by decide)] at hi
  obtain ⟨x, hx, hbit⟩ := Option.map_eq_some_iff.mp hi
  rw [hx]
  refine write_word hx fun k hk => ?_
  rw [BitVec.getLsbD_xor, getLsbD_bitmask32]
  by_cases h : i % 32 = k
  · rw [if_pos h, ← h, hbit]
    simp [Nat.mod_lt]
  · simp [h, Ne.symm h]

/-! ## Fields -/

theorem toNat_mask (hlength : length < 32) : (mask length).toNat = 2 ^ length - 1 := by
  have hone : 1 ≤ 2 ^ length := Nat.one_le_two_pow
  have hlt : 2 ^ length < 2 ^ 32 := Nat.pow_lt_pow_right (by decide) hlength
  rw [mask, BitVec.toNat_sub, BitVec.toNat_shiftLeft, Nat.shiftLeft_eq]
  change (2 ^ 32 - 1 + 1 * 2 ^ length % 2 ^ 32) % 2 ^ 32 = _
  rw [Nat.one_mul, Nat.mod_eq_of_lt hlt]
  omega

theorem getLsbD_mask (hlength : length < 32) (k : Nat) :
    (mask length).getLsbD k = decide (k < length) := by
  rw [BitVec.getLsbD, toNat_mask hlength, Nat.testBit_two_pow_sub_one]

/-- The low bits of a word. -/
theorem toNat_and_mask (hlength : length < 32) (v : BitVec 32) :
    (v &&& mask length).toNat = v.toNat % 2 ^ length := by
  rw [BitVec.toNat_and, toNat_mask hlength, Nat.and_two_pow_sub_one_eq_mod]

theorem getLsbD_of_lt (hv : v.toNat < 2 ^ length) (hk : length ≤ k) : v.getLsbD k = false :=
  Nat.testBit_lt_two_pow (hv.trans_le (Nat.pow_le_pow_right (by decide) hk))

/-- The bits of the first word of a field. -/
theorem getLsbD_low (hlength : length < 32) (hv : v.toNat < 2 ^ length) (x : BitVec 32) (s : Nat)
    (hk : k < 32) : (x &&& ~~~(mask length <<< s) ||| v <<< s).getLsbD k =
      if s ≤ k ∧ k < s + length then v.getLsbD (k - s) else x.getLsbD k := by
  rw [BitVec.getLsbD_or, BitVec.getLsbD_and, BitVec.getLsbD_not, BitVec.getLsbD_shiftLeft,
    BitVec.getLsbD_shiftLeft, getLsbD_mask hlength]
  by_cases hs : s ≤ k
  · by_cases hend : k < s + length
    · simp [hk, hs, hend, Nat.not_lt.mpr hs, show k - s < length by omega]
    · simp [hk, hs, hend, Nat.not_lt.mpr hs, show ¬ k - s < length by omega,
        getLsbD_of_lt hv (show length ≤ k - s by omega)]
  · simp [hk, hs, Nat.lt_of_not_le hs]

/-- The bits of the second word of a field, in which the field has `length - s` bits. -/
theorem getLsbD_high (hlength : length < 32) (hv : v.toNat < 2 ^ length) (x : BitVec 32) (s : Nat)
    (hk : k < 32) : (x &&& ~~~(mask length >>> s) ||| v >>> s).getLsbD k =
      if s + k < length then v.getLsbD (s + k) else x.getLsbD k := by
  rw [BitVec.getLsbD_or, BitVec.getLsbD_and, BitVec.getLsbD_not, BitVec.getLsbD_ushiftRight,
    BitVec.getLsbD_ushiftRight, getLsbD_mask hlength]
  by_cases h : s + k < length
  · simp [h]
  · simp [h, hk, getLsbD_of_lt hv (Nat.le_of_not_lt h)]

/-- A write of a field changes the bits of the field only. -/
theorem setField_spec (hpos : 0 < length) (hlength : length < 32) (hv : v.toNat < 2 ^ length)
    (hend : i + length ≤ 32 * t.length) : ∃ t', setField t i v length (mask length) = some t' ∧
      t'.length = t.length ∧ ∀ k, (bits t')[k]? =
        if i ≤ k ∧ k < i + length then some (v.getLsbD (k - i)) else (bits t)[k]? := by
  have hdiv : i / 32 < t.length := by omega
  have hlow {k : Nat} := getLsbD_low (k := k) hlength hv t[i / 32] (i % 32)
  have hbits {k : Nat} (hk : k < 32 * t.length) :
      (bits t)[k]? = some (t[k / 32].getLsbD (k % 32)) := by
    rw [getElem?_bits (by decide), List.getElem?_eq_getElem (by omega)]
    rfl
  -- the bits of the table after the first write
  have hfirst (k : Nat) : (bits (t.set (i / 32) (t[i / 32] &&& ~~~(mask length <<< (i % 32)) |||
      v <<< (i % 32))))[k]? =
        if k / 32 = i / 32 ∧ i ≤ k ∧ k < i + length then some (v.getLsbD (k - i))
        else (bits t)[k]? := by
    rw [getElem?_bits_set (by decide) hdiv]
    by_cases hk : k / 32 = i / 32
    · rw [if_pos hk, hlow (Nat.mod_lt _ (by decide))]
      by_cases hin : i ≤ k ∧ k < i + length
      · rw [if_pos (by omega), if_pos ⟨hk, hin⟩, show k % 32 - i % 32 = k - i by omega]
      · rw [if_neg (by omega), if_neg fun h => hin h.2, hbits (by omega)]
        simp only [hk]
    · rw [if_neg hk, if_neg fun h => hk h.1]
  simp only [setField, shiftRight_five, and_thirtyOne, List.getElem?_eq_getElem hdiv,
    Option.bind_eq_bind, Option.bind_some, write_of_lt hdiv]
  split
  · rename_i hlt
    have hnext : i / 32 + 1 < t.length := by omega
    have hhigh {k : Nat} := getLsbD_high (k := k) hlength hv t[i / 32 + 1] (32 - i % 32)
    rw [List.getElem?_set_ne (by omega), List.getElem?_eq_getElem hnext, Option.bind_some,
      write_of_lt (by rwa [List.length_set])]
    refine ⟨_, rfl, by rw [List.length_set, List.length_set], fun k => ?_⟩
    rw [getElem?_bits_set (by decide) (by rwa [List.length_set]), hfirst]
    by_cases hk : k / 32 = i / 32 + 1
    · rw [if_pos hk, hhigh (Nat.mod_lt _ (by decide))]
      by_cases hin : k < i + length
      · rw [if_pos (by omega), if_pos (by omega), show 32 - i % 32 + k % 32 = k - i by omega]
      · rw [if_neg (by omega), if_neg (by omega), hbits (by omega)]
        simp only [hk]
    · rw [if_neg hk]
      exact if_congr (by omega) rfl rfl
  · rename_i hle
    refine ⟨_, rfl, List.length_set, fun k => ?_⟩
    rw [hfirst]
    exact if_congr (by omega) rfl rfl

/-- A write of a field in the bit string of the table. -/
theorem setField_append (hpos : 0 < length) (hlength : length < 32) (hv : v.toNat < 2 ^ length)
    (ht : bits t = a ++ b ++ c) (hb : b.length = length) :
    ∃ t', setField t a.length v length (mask length) = some t' ∧ t'.length = t.length ∧
      bits t' = a ++ word length v ++ c := by
  have hlen := congrArg List.length ht
  rw [length_bits, List.length_append, List.length_append, hb] at hlen
  obtain ⟨t', hset, hlength', hbits⟩ := setField_spec hpos hlength hv
    (show a.length + length ≤ 32 * t.length by omega)
  refine ⟨t', hset, hlength', List.ext_getElem? fun k => ?_⟩
  rw [hbits, ht]
  by_cases hk : k < a.length
  · rw [if_neg (by omega), List.append_assoc, List.append_assoc, List.getElem?_append_left hk,
      List.getElem?_append_left hk]
  · by_cases hkb : k < a.length + length
    · rw [if_pos (by omega), List.append_assoc, List.getElem?_append_right (by omega),
        List.getElem?_append_left (by rw [length_word]; omega), getElem?_word (by omega)]
    · rw [if_neg (by omega), List.getElem?_append_right (by rw [List.length_append]; omega),
        List.getElem?_append_right (by rw [List.length_append, length_word]; omega),
        List.length_append, List.length_append, length_word, hb]

/-- A write of a field in front of zeros. -/
theorem setField_zeros {z : Nat} (hpos : 0 < length) (hlength : length < 32)
    (hv : v.toNat < 2 ^ length) (ht : bits t = a ++ List.replicate (length + z) false) :
    ∃ t', setField t a.length v length (mask length) = some t' ∧ t'.length = t.length ∧
      bits t' = a ++ word length v ++ List.replicate z false := by
  rw [← List.replicate_append_replicate, ← List.append_assoc] at ht
  exact setField_append hpos hlength hv ht List.length_replicate

/-- A read of a field gives the bits of the field. -/
theorem getField_append (hpos : 0 < length) (hlength : length < 32) (hv : v.toNat < 2 ^ length)
    (ht : bits t = a ++ word length v ++ c) :
    getField t a.length length (mask length) = some v := by
  have hlen := congrArg List.length ht
  rw [length_bits, List.length_append, List.length_append, length_word] at hlen
  have hdiv : a.length / 32 < t.length := by omega
  have hfield {j : Nat} (hj : j < length) {y : BitVec 32}
      (hy : t[(a.length + j) / 32]? = some y) :
      y.getLsbD ((a.length + j) % 32) = v.getLsbD j := by
    have hbit : (bits t)[a.length + j]? = some (v.getLsbD j) := by
      rw [ht, List.append_assoc, List.getElem?_append_right (by omega),
        List.getElem?_append_left (by rw [length_word]; omega), Nat.add_sub_cancel_left,
        getElem?_word hj]
    rw [getElem?_bits (by decide), hy] at hbit
    exact Option.some.inj hbit
  have hx := List.getElem?_eq_getElem hdiv
  simp only [getField, shiftRight_five, and_thirtyOne, hx, Option.bind_eq_bind, Option.bind_some]
  split
  · rename_i hlt
    have hnext : a.length / 32 + 1 < t.length := by omega
    have hy := List.getElem?_eq_getElem hnext
    rw [hy, Option.bind_some]
    refine congrArg some (BitVec.eq_of_getLsbD_eq fun j hj => ?_)
    rw [BitVec.getLsbD_or, BitVec.getLsbD_and, BitVec.getLsbD_and, BitVec.getLsbD_ushiftRight,
      BitVec.getLsbD_shiftLeft, getLsbD_mask hlength]
    by_cases hj' : j < length
    · by_cases hlow : j < 32 - a.length % 32
      · have hbit := hfield hj' (y := t[a.length / 32]) (by rw [← hx]; congr 1; omega)
        rw [show (a.length + j) % 32 = a.length % 32 + j by omega] at hbit
        simp [hj', hlow, hbit]
      · have hbit := hfield hj' (y := t[a.length / 32 + 1]) (by rw [← hy]; congr 1; omega)
        rw [show (a.length + j) % 32 = j - (32 - a.length % 32) by omega] at hbit
        have hout : t[a.length / 32].getLsbD (a.length % 32 + j) = false :=
          BitVec.getLsbD_of_ge _ _ (by omega)
        simp [hj', hj, hlow, hbit, hout]
    · simp [hj', getLsbD_of_lt hv (Nat.le_of_not_lt hj')]
  · rename_i hle
    refine congrArg some (BitVec.eq_of_getLsbD_eq fun j hj => ?_)
    rw [BitVec.getLsbD_and, BitVec.getLsbD_ushiftRight, getLsbD_mask hlength]
    by_cases hj' : j < length
    · have hbit := hfield hj' (y := t[a.length / 32]) (by rw [← hx]; congr 1; omega)
      rw [show (a.length + j) % 32 = a.length % 32 + j by omega] at hbit
      simp [hj', hbit]
    · simp [hj', getLsbD_of_lt hv (Nat.le_of_not_lt hj')]

end PerfectHash.Cmph
