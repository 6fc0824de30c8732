import PerfectHash.Perl
import PerfectHash.Lib.BitString
import PerfectHash.Lib.Cells

/-! # The C library under `Perfect::Hash::CMPH`

Numbers of the type `cmph_uint32` are natural numbers, and `u32` cuts the result of an operation to
32 bits. Tables are lists: of 32-bit words, or of bytes. A read or a write outside a table is
undefined (`none`). The machine is little-endian, as `select.c` needs it. -/

namespace PerfectHash.Cmph

open BitString

/-- The value of an operation on `cmph_uint32`. -/
def u32 (x : Int) : Nat := (x % 4294967296).toNat

theorem u32_natCast {n : Nat} (h : n < 2 ^ 32) : u32 n = n := by
  unfold u32
  omega

theorem u32_of_eq {x : Int} {n : Nat} (h : n < 2 ^ 32) (hx : x = n) : u32 x = n := by
  rw [hx, u32_natCast h]

/-- `table[i] = x` -/
def write (table : List α) (i : Nat) (x : α) : Option (List α) :=
  if i < table.length then some (table.set i x) else none

theorem write_of_lt {table : List α} {i : Nat} (h : i < table.length) (x : α) :
    write table i x = some (table.set i x) := if_pos h

/-- The bytes that `memcpy` copies. -/
def memcpy (src : Bytes) (n : Nat) : Option Bytes :=
  if n ≤ src.length then some (src.take n) else none

theorem memcpy_length (src : Bytes) : memcpy src src.length = some src := by
  rw [memcpy, if_pos (Nat.le_refl _), List.take_length]

/-! ## The bytes of words -/

/-- The bytes of words in memory. -/
def bytes (ws : List (BitVec 32)) : Bytes := Cells.encode 4 (ws.map fun x => (x.toNat : Int))

/-- The bits of some bytes. -/
def byteBits (bs : Bytes) : List Bool := bits (bs.map UInt8.toBitVec)

@[simp] theorem length_bytes (ws : List (BitVec 32)) : (bytes ws).length = 4 * ws.length := by
  rw [bytes, Cells.length_encode, List.length_map]

theorem bytes_append (ws ws' : List (BitVec 32)) : bytes (ws ++ ws') = bytes ws ++ bytes ws' := by
  rw [bytes, List.map_append, Cells.encode_append]
  rfl

@[simp] theorem length_byteBits (bs : Bytes) : (byteBits bs).length = 8 * bs.length := by
  rw [byteBits, length_bits, List.length_map]

theorem byteBits_cons (b : UInt8) (bs : Bytes) :
    byteBits (b :: bs) = word 8 b.toBitVec ++ byteBits bs := by
  rw [byteBits, List.map_cons, bits_cons]
  rfl

theorem byteBits_append (bs bs' : Bytes) : byteBits (bs ++ bs') = byteBits bs ++ byteBits bs' := by
  rw [byteBits, List.map_append, bits_append]
  rfl

theorem byteBits_drop (bs : Bytes) (v : Nat) :
    byteBits (bs.drop v) = (byteBits bs).drop (8 * v) := by
  conv_rhs => rw [← List.take_append_drop v bs, byteBits_append]
  by_cases hlt : v ≤ bs.length
  · rw [List.drop_left' (by rw [length_byteBits, List.length_take, Nat.min_eq_left hlt])]
  · rw [List.drop_eq_nil_of_le (show bs.length ≤ v by omega), List.drop_eq_nil_of_le]
    · rfl
    · rw [List.length_append, length_byteBits, length_byteBits, List.length_take, List.length_nil]
      omega

/-- The bits of the low bytes of a number. -/
theorem byteBits_le (n v : Nat) : byteBits (Cells.le n v) = (List.range (8 * n)).map v.testBit := by
  induction n generalizing v with
  | zero => rfl
  | succ n ih =>
    have hle : Cells.le (n + 1) v = UInt8.ofNat (v % 256) :: Cells.le n (v / 256 : Nat) := by
      rw [Cells.le]
      congr 2
    have hword : word 8 (UInt8.ofNat (v % 256)).toBitVec = (List.range 8).map v.testBit := by
      refine List.map_congr_left fun i hi => ?_
      change (BitVec.ofNat 8 _).getLsbD i = _
      rw [BitVec.getLsbD_ofNat, show 256 = 2 ^ 8 from rfl, Nat.testBit_mod_two_pow]
      simp [List.mem_range.mp hi]
    rw [hle, byteBits_cons, ih, hword, Nat.mul_succ, Nat.add_comm (8 * n), List.range_add,
      List.map_append, List.map_map]
    congr 1
    refine List.map_congr_left fun i _ => ?_
    rw [show 256 = 2 ^ 8 from rfl, Nat.testBit_div_two_pow, Nat.add_comm]
    rfl

/-- The bytes of words have their bits. -/
theorem byteBits_bytes (ws : List (BitVec 32)) : byteBits (bytes ws) = bits ws := by
  induction ws with
  | nil => rfl
  | cons x ws ih =>
    have hbytes : bytes (x :: ws) = Cells.le 4 x.toNat ++ bytes ws := List.flatMap_cons
    rw [hbytes, byteBits_append, ih, byteBits_le, bits_cons]
    rfl

/-- The words at a pointer. -/
def words : Bytes → List (BitVec 32)
  | a :: b :: c :: d :: rest => BitVec.ofInt 32 (Cells.value [a, b, c, d]) :: words rest
  | _ => []

/-- The words that were stored are read back. -/
theorem words_append (ws : List (BitVec 32)) (rest : Bytes) :
    words (bytes ws ++ rest) = ws ++ words rest := by
  induction ws with
  | nil => rfl
  | cons x ws ih =>
    have hword : BitVec.ofInt 32 (Cells.value (Cells.le 4 x.toNat)) = x := by
      rw [Cells.value_le]
      refine BitVec.eq_of_toNat_eq ?_
      rw [BitVec.toNat_ofInt]
      have := x.isLt
      omega
    have hbytes : bytes (x :: ws) = Cells.le 4 x.toNat ++ bytes ws := List.flatMap_cons
    rw [hbytes, List.append_assoc]
    exact congrArg₂ List.cons hword ih

theorem words_bytes (ws : List (BitVec 32)) : words (bytes ws) = ws := by
  have h := words_append ws []
  rwa [List.append_nil, show words [] = [] from rfl, List.append_nil] at h

end PerfectHash.Cmph
