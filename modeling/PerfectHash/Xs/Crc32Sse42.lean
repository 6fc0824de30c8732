import PerfectHash.C
import PerfectHash.Lib.Cells

/-! # The hardware CRC (`crc32_sse42` of `Hash.xs`)

`crc32_sse42` takes single bytes up to an aligned address and then words of 8, 4, 2 and 1 bytes.
Wherever the buffer starts, this is the byte-wise CRC-32C of its bytes (`crc32Sse42_eq`).

The intrinsics of the compiler are a parameter. A word is read only from an address that is aligned
for it; any other read is undefined here. -/

namespace PerfectHash.Xs

open CValues C

/-- One bit of CRC-32C, low bit first. -/
def crc32cBit (crc : BitVec 32) : BitVec 32 :=
  if crc.getLsbD 0 then crc >>> 1 ^^^ 0x82F63B78 else crc >>> 1

/-- The byte-wise step of CRC-32C. -/
def crc32cByte (crc : BitVec 32) (b : UInt8) : BitVec 32 :=
  crc32cBit^[8] (crc ^^^ b.toBitVec.setWidth 32)

/-- The intrinsics `_mm_crc32_u8` to `_mm_crc32_u64`. -/
structure Intrinsics where
  u8 : BitVec 32 → BitVec 8 → BitVec 32
  u16 : BitVec 32 → BitVec 16 → BitVec 32
  u32 : BitVec 32 → BitVec 32 → BitVec 32
  u64 : BitVec 64 → BitVec 64 → BitVec 64

/-- The intrinsics take the step of CRC-32C for each byte of their word, low byte first. -/
structure Intrinsics.Lawful (m : Intrinsics) : Prop where
  u8 : ∀ crc (b : UInt8), m.u8 crc b.toBitVec = crc32cByte crc b
  u16 : ∀ crc w, m.u16 crc w = (Cells.le 2 w.toNat).foldl crc32cByte crc
  u32 : ∀ crc w, m.u32 crc w = (Cells.le 4 w.toNat).foldl crc32cByte crc
  u64 : ∀ (crc : BitVec 32) w,
    (m.u64 (crc.setWidth 64) w).setWidth 32 = (Cells.le 8 w.toNat).foldl crc32cByte crc

/-- The variables of `crc32_sse42`: `buf` is an address, `mem` the bytes from there on. -/
structure Cursor where
  crc : BitVec 32
  buf : Nat
  mem : Bytes
  len : Int

/-- `*(type *)(buf)` for an unsigned type of `w` bytes -/
def Cursor.load (s : Cursor) (w : Nat) : Option Int :=
  if w ∣ s.buf then Cells.load s.mem 0 w else none

/-- `for (; (len > 0) && ((size_t)buf & ALIGN_MASK); len--, buf++)`, for at most the given number of
turns. -/
def Cursor.align (m : Intrinsics) : Nat → Cursor → Option Cursor
  | turns, s =>
    if s.len > 0 ∧ s.buf &&& 7 ≠ 0 then
      match turns with
      | 0 => none
      | turns + 1 => do
        let c ← s.mem.head?
        align m turns {
          -- the `char` is converted to `unsigned char`
          crc := m.u8 s.crc (BitVec.ofInt 8 c.toBitVec.toInt)
          buf := s.buf + 1
          mem := s.mem.tail
          len := ← int.arith (s.len - 1) }
    else some s

/-- `size_t` -/
def sizeT (x86_64 : Bool) : IntType := if x86_64 then unsignedLong else unsignedInt

/-- `CALC_CRC(op, crc, type, buf, len)` for a type of `w` bytes, for at most the given number of
turns. `sizeof (type)` is a `size_t`, so `len` is converted to it. -/
def Cursor.calcCrc (x86_64 : Bool) (op : BitVec 32 → Int → BitVec 32) (w : Nat) :
    Nat → Cursor → Option Cursor
  | turns, s =>
    if w ≤ (sizeT x86_64).conv s.len then
      match turns with
      | 0 => none
      | turns + 1 => do
        calcCrc x86_64 op w turns {
          crc := op s.crc (← s.load w)
          buf := s.buf + w
          mem := s.mem.drop w
          len := int.conv ((sizeT x86_64).conv s.len - w) }
    else some s

section
variable (m : Intrinsics)

/-! The intrinsics on loaded words. -/

def op8 (crc : BitVec 32) (x : Int) : BitVec 32 := m.u8 crc (BitVec.ofInt 8 x)
def op16 (crc : BitVec 32) (x : Int) : BitVec 32 := m.u16 crc (BitVec.ofInt 16 x)
def op32 (crc : BitVec 32) (x : Int) : BitVec 32 := m.u32 crc (BitVec.ofInt 32 x)

/-- `_mm_crc32_u64`, whose result is assigned to an `unsigned int` -/
def op64 (crc : BitVec 32) (x : Int) : BitVec 32 :=
  (m.u64 (crc.setWidth 64) (BitVec.ofInt 64 x)).setWidth 32

/-- `crc32_sse42(crc, buf, len)`, where `mem` are the bytes from `buf` on. Each loop has enough
turns to end. -/
def crc32Sse42 (x86_64 : Bool) (crc : BitVec 32) (buf : Nat) (mem : Bytes) (len : Int) :
    Option (BitVec 32) := do
  let turns := len.toNat
  let s ← Cursor.align m turns { crc := crc ^^^ 0xFFFFFFFF, buf, mem, len }
  let s ← if x86_64 then s.calcCrc x86_64 (op64 m) 8 turns else some s
  let s ← s.calcCrc x86_64 (op32 m) 4 turns
  let s ← s.calcCrc x86_64 (op16 m) 2 turns
  let s ← s.calcCrc x86_64 (op8 m) 1 turns
  return s.crc ^^^ 0xFFFFFFFF

end

/-! ## One loop -/

variable {m : Intrinsics} {x86_64 : Bool} {turns buf w : Nat} {todo : Bytes}

/-- An operation on a loaded word of `w` bytes takes the step for each byte. -/
def ActsBytewise (op : BitVec 32 → Int → BitVec 32) (w : Nat) : Prop :=
  ∀ crc (bytes : Bytes), bytes.length = w →
    op crc (Cells.value bytes) = bytes.foldl crc32cByte crc

theorem sizeT_conv {n : Nat} (hn : n < 2 ^ 31) : (sizeT x86_64).conv n = n := by
  unfold sizeT
  split
  · exact unsignedLong_conv_natCast (by omega)
  · exact Int.emod_eq_of_lt (by omega) (by norm_num [unsignedInt]; omega)

theorem and_seven_eq_zero_iff : buf &&& 7 = 0 ↔ 8 ∣ buf := by
  rw [show 7 = 2 ^ 3 - 1 from rfl, Nat.and_two_pow_sub_one_eq_mod]
  exact (Nat.dvd_iff_mod_eq_zero ..).symm

/-- The first loop takes the step for some of the bytes and ends at an aligned address, or at the
end. -/
theorem align_eq (hm : m.Lawful) (crc : BitVec 32) (buf : Nat) (rest : Bytes)
    (hlen : todo.length < 2 ^ 31) (hturns : todo.length ≤ turns) :
    ∃ a b : Bytes, todo = a ++ b ∧ (b ≠ [] → 8 ∣ buf + a.length) ∧
      Cursor.align m turns ⟨crc, buf, todo ++ rest, todo.length⟩ =
        some ⟨a.foldl crc32cByte crc, buf + a.length, b ++ rest, b.length⟩ := by
  induction todo generalizing turns crc buf with
  | nil =>
    refine ⟨[], [], rfl, absurd rfl, ?_⟩
    unfold Cursor.align
    rw [if_neg (by simp)]
    rfl
  | cons c todo ih =>
    rw [List.length_cons] at hlen hturns
    by_cases hbuf : buf &&& 7 = 0
    · refine ⟨[], c :: todo, rfl, fun _ => and_seven_eq_zero_iff.mp hbuf, ?_⟩
      unfold Cursor.align
      rw [if_neg fun h => h.2 hbuf]
      rfl
    · obtain ⟨turns, rfl⟩ := Nat.exists_eq_succ_of_ne_zero (show turns ≠ 0 by omega)
      obtain ⟨a, b, rfl, halign, hrun⟩ :=
        ih (crc32cByte crc c) (buf + 1) (by omega) (show _ ≤ turns by omega)
      refine ⟨c :: a, b, rfl, fun hb => ?_, ?_⟩
      · rw [List.length_cons, Nat.add_comm a.length, ← Nat.add_assoc]
        exact halign hb
      · have harith : int.arith (((c :: (a ++ b)).length : Int) - 1) =
            some ((a ++ b).length : Int) := by
          rw [List.length_cons, show (((a ++ b).length + 1 : Nat) : Int) - 1 = (a ++ b).length by
            push_cast; omega]
          exact IntType.arith_of_fits (int_fits_natCast (by omega))
        unfold Cursor.align
        rw [if_pos ⟨by simp; omega, hbuf⟩]
        simp only [harith, BitVec.ofInt_toInt, hm.u8, List.cons_append, List.head?_cons,
          List.tail_cons, Option.bind_eq_bind, Option.bind_some]
        rw [hrun, List.length_cons, Nat.add_comm a.length, ← Nat.add_assoc]
        rfl

/-- A loop over words takes the step for some of the bytes, and less than a word is left. -/
theorem calcCrc_eq (x86_64 : Bool) {op : BitVec 32 → Int → BitVec 32} (hop : ActsBytewise op w)
    (hw : 0 < w) (crc : BitVec 32) (buf : Nat) (rest : Bytes) (hlen : todo.length < 2 ^ 31)
    (hturns : todo.length ≤ turns) (halign : todo ≠ [] → w ∣ buf) :
    ∃ a b : Bytes, todo = a ++ b ∧ w ∣ a.length ∧ b.length < w ∧
      Cursor.calcCrc x86_64 op w turns ⟨crc, buf, todo ++ rest, todo.length⟩ =
        some ⟨a.foldl crc32cByte crc, buf + a.length, b ++ rest, b.length⟩ := by
  induction turns generalizing todo crc buf with
  | zero =>
    obtain rfl := List.length_eq_zero_iff.mp (Nat.le_zero.mp hturns)
    refine ⟨[], [], rfl, Nat.dvd_zero w, hw, ?_⟩
    unfold Cursor.calcCrc
    rw [if_neg]
    · rfl
    · rw [sizeT_conv hlen, List.length_nil]
      omega
  | succ turns ih =>
    by_cases hle : w ≤ todo.length
    · obtain ⟨word, todo, rfl, hword⟩ : ∃ word todo' : Bytes, todo = word ++ todo' ∧
          word.length = w :=
        ⟨todo.take w, todo.drop w, (List.take_append_drop w todo).symm,
          List.length_take_of_le hle⟩
      have hdvd : w ∣ buf := halign (List.ne_nil_of_length_pos (by omega))
      rw [List.length_append] at hlen hturns
      obtain ⟨a, b, rfl, ha, hb, hrun⟩ := ih (word.foldl crc32cByte crc) (buf + w)
        (show todo.length < 2 ^ 31 by omega) (by omega)
        fun _ => Nat.dvd_add hdvd (Nat.dvd_refl w)
      refine ⟨word ++ a, b, (List.append_assoc ..).symm, ?_, hb, ?_⟩
      · rw [List.length_append, hword]
        exact Nat.dvd_add (Nat.dvd_refl w) ha
      · have hload : Cursor.load ⟨crc, buf, word ++ (a ++ b) ++ rest,
            ((word ++ (a ++ b)).length : Int)⟩ w = some (Cells.value word) := by
          have := Cells.load_append [] word (a ++ b ++ rest)
          rw [List.nil_append, hword, ← List.append_assoc] at this
          rw [Cursor.load, if_pos hdvd]
          exact this
        have hdrop : (word ++ (a ++ b) ++ rest).drop w = a ++ b ++ rest := by
          rw [List.append_assoc, List.drop_left' hword]
        have hlen' : int.conv (((word ++ (a ++ b)).length : Int) - w) =
            ((a ++ b).length : Int) := by
          rw [List.length_append, hword,
            show ((w + (a ++ b).length : Nat) : Int) - w = (a ++ b).length by push_cast; omega]
          exact int_conv_natCast (by omega)
        unfold Cursor.calcCrc
        rw [sizeT_conv (by rwa [List.length_append]), if_pos (by omega)]
        simp only [hload, Option.bind_eq_bind, Option.bind_some, hop crc word hword, hdrop, hlen']
        rw [hrun, List.foldl_append, List.length_append, hword, Nat.add_assoc]
    · refine ⟨[], todo, rfl, Nat.dvd_zero w, by omega, ?_⟩
      unfold Cursor.calcCrc
      rw [if_neg]
      · rfl
      · rw [sizeT_conv hlen]
        omega

/-! ## The whole function -/

theorem toNat_ofInt_value {bytes : Bytes} {n : Nat} (hn : 256 ^ bytes.length = 2 ^ n) :
    ((BitVec.ofInt n (Cells.value bytes)).toNat : Int) = Cells.value bytes := by
  have h0 := Cells.value_nonneg bytes
  have hlt : Cells.value bytes < (2 ^ n : Nat) := by
    rw [← hn]
    exact_mod_cast Cells.value_lt bytes
  rw [BitVec.toNat_ofInt, Int.emod_eq_of_lt h0 hlt, Int.toNat_of_nonneg h0]

section
variable (hm : m.Lawful)
include hm

theorem actsBytewise_op8 : ActsBytewise (op8 m) 1 := by
  intro crc bytes hlength
  obtain ⟨c, rfl⟩ := List.length_eq_one_iff.mp hlength
  have hvalue : BitVec.ofInt 8 (Cells.value [c]) = c.toBitVec := by
    apply BitVec.eq_of_toNat_eq
    have h := toNat_ofInt_value (n := 8) (show 256 ^ [c].length = 2 ^ 8 from rfl)
    have hc : Cells.value [c] = c.toNat := Int.add_zero _
    rw [hc] at h ⊢
    exact Int.ofNat_inj.mp h
  rw [op8, hvalue, hm.u8]
  rfl

theorem actsBytewise_op16 : ActsBytewise (op16 m) 2 := by
  intro crc bytes hlength
  rw [op16, hm.u16, toNat_ofInt_value (by rw [hlength]; decide), ← hlength, Cells.le_value]

theorem actsBytewise_op32 : ActsBytewise (op32 m) 4 := by
  intro crc bytes hlength
  rw [op32, hm.u32, toNat_ofInt_value (by rw [hlength]; decide), ← hlength, Cells.le_value]

theorem actsBytewise_op64 : ActsBytewise (op64 m) 8 := by
  intro crc bytes hlength
  rw [op64, hm.u64, toNat_ofInt_value (by rw [hlength]; decide), ← hlength, Cells.le_value]

end

/-- The state of the loops after some of the bytes: these are in the checksum, and the others, if
there are any, are aligned for words of `w` bytes. -/
def Progress (crc : BitVec 32) (buf : Nat) (bytes rest : Bytes) (w : Nat) (s : Cursor) : Prop :=
  ∃ a b : Bytes, bytes = a ++ b ∧ (b ≠ [] → w ∣ buf + a.length) ∧
    s = ⟨a.foldl crc32cByte crc, buf + a.length, b ++ rest, b.length⟩

section
variable {crc : BitVec 32} {bytes rest : Bytes} {s : Cursor} {v : Nat}

theorem Progress.of_dvd (h : Progress crc buf bytes rest w s) (hv : v ∣ w) :
    Progress crc buf bytes rest v s := by
  obtain ⟨a, b, hbytes, halign, hs⟩ := h
  exact ⟨a, b, hbytes, fun hb => Nat.dvd_trans hv (halign hb), hs⟩

/-- A loop over words of `v` bytes goes on from where the one over words of `w` bytes ended. -/
theorem Progress.calcCrc (h : Progress crc buf bytes rest w s) (hv : v ∣ w) (hpos : 0 < v)
    (x86_64 : Bool) {op : BitVec 32 → Int → BitVec 32} (hop : ActsBytewise op v)
    (hbytes : bytes.length < 2 ^ 31) (hturns : bytes.length ≤ turns) :
    ∃ s', s.calcCrc x86_64 op v turns = some s' ∧ Progress crc buf bytes rest v s' ∧
      s'.len < v := by
  obtain ⟨a, b, rfl, halign, rfl⟩ := h.of_dvd hv
  rw [List.length_append] at hbytes hturns
  obtain ⟨a', b', rfl, hdvd, hlt, hrun⟩ := calcCrc_eq x86_64 hop hpos (a.foldl crc32cByte crc)
    (buf + a.length) rest (show b.length < 2 ^ 31 by omega) (show b.length ≤ turns by omega) halign
  refine ⟨_, hrun, ⟨a ++ a', b', (List.append_assoc ..).symm, fun hb => ?_, ?_⟩, by simpa using hlt⟩
  · have hrest := halign (List.append_ne_nil_of_right_ne_nil a' hb)
    rw [List.length_append, ← Nat.add_assoc]
    exact Nat.dvd_add hrest hdvd
  · rw [List.foldl_append, List.length_append, Nat.add_assoc]

/-- When no byte is left, all are in the checksum. -/
theorem Progress.crc_eq (h : Progress crc buf bytes rest w s) (hlen : s.len < 1) :
    s.crc = bytes.foldl crc32cByte crc := by
  obtain ⟨a, b, rfl, -, rfl⟩ := h
  have hb : (b.length : Int) < 1 := hlen
  obtain rfl : b = [] := List.length_eq_zero_iff.mp (by omega)
  rw [List.append_nil]

end

/-- At every address, `crc32_sse42` is the complement of the byte-wise CRC-32C of the bytes from the
complemented seed. -/
theorem crc32Sse42_eq {m : Intrinsics} (hm : m.Lawful) (x86_64 : Bool) (crc : BitVec 32)
    (buf : Nat) {s : Bytes} (hs : s.length < 2 ^ 31) (rest : Bytes) :
    crc32Sse42 m x86_64 crc buf (s ++ rest) s.length =
      some (~~~ (s.foldl crc32cByte (~~~ crc))) := by
  have hnot (x : BitVec 32) : x ^^^ 0xFFFFFFFF = ~~~ x := BitVec.xor_allOnes
  have hturns := Nat.le_refl s.length
  obtain ⟨a, b, hsplit, halign, hrun₀⟩ := align_eq hm (~~~ crc) buf rest hs hturns
  have h₀ : Progress (~~~ crc) buf s rest 8 _ := ⟨a, b, hsplit, halign, rfl⟩
  generalize (⟨a.foldl crc32cByte (~~~ crc), buf + a.length, b ++ rest, b.length⟩ : Cursor) = s₀
    at hrun₀ h₀
  obtain ⟨s₈, hrun₈, h₈⟩ : ∃ s₈, (if x86_64 then s₀.calcCrc x86_64 (op64 m) 8 s.length
      else some s₀) = some s₈ ∧ Progress (~~~ crc) buf s rest 8 s₈ := by
    cases x86_64 with
    | false => exact ⟨s₀, rfl, h₀⟩
    | true =>
      obtain ⟨s₈, hrun₈, h₈, -⟩ := h₀.calcCrc (Nat.dvd_refl 8) (by decide) true
        (actsBytewise_op64 hm) hs hturns
      exact ⟨s₈, hrun₈, h₈⟩
  obtain ⟨s₄, hrun₄, h₄, -⟩ := h₈.calcCrc (v := 4) (by decide) (by decide) x86_64
    (actsBytewise_op32 hm) hs hturns
  obtain ⟨s₂, hrun₂, h₂, -⟩ := h₄.calcCrc (v := 2) (by decide) (by decide) x86_64
    (actsBytewise_op16 hm) hs hturns
  obtain ⟨s₁, hrun₁, h₁, hend⟩ := h₂.calcCrc (v := 1) (by decide) (by decide) x86_64
    (actsBytewise_op8 hm) hs hturns
  have hwords : (do
      let s₄ ← s₈.calcCrc x86_64 (op32 m) 4 s.length
      let s₂ ← s₄.calcCrc x86_64 (op16 m) 2 s.length
      let s₁ ← s₂.calcCrc x86_64 (op8 m) 1 s.length
      return ~~~ s₁.crc) = some (~~~ (s.foldl crc32cByte (~~~ crc))) := by
    simp only [hrun₄, hrun₂, hrun₁, Option.bind_eq_bind, Option.bind_some, h₁.crc_eq hend]
    rfl
  unfold crc32Sse42
  simp only [hnot, Int.toNat_natCast, hrun₀, Option.bind_eq_bind, Option.bind_some]
  cases x86_64 with
  | false =>
    obtain rfl : s₀ = s₈ := Option.some.inj hrun₈
    exact hwords
  | true =>
    rw [if_pos rfl] at hrun₈ ⊢
    rw [hrun₈]
    exact hwords

/-! ## An example

The CRC-32C of `123456789`, whose NUL follows, from an address that is not aligned. -/

/-- Intrinsics that take one byte after the other. -/
def sse42 : Intrinsics where
  u8 crc b := crc32cByte crc (UInt8.ofBitVec b)
  u16 crc w := (Cells.le 2 w.toNat).foldl crc32cByte crc
  u32 crc w := (Cells.le 4 w.toNat).foldl crc32cByte crc
  u64 crc w := ((Cells.le 8 w.toNat).foldl crc32cByte (crc.setWidth 32)).setWidth 64

theorem sse42_lawful : sse42.Lawful where
  u8 _ _ := rfl
  u16 _ _ := rfl
  u32 _ _ := rfl
  u64 crc w := by simp [sse42, BitVec.setWidth_setWidth_of_le]

def digits : Bytes := [49, 50, 51, 52, 53, 54, 55, 56, 57]

theorem crc32Sse42_digits : crc32Sse42 sse42 true 0 3 (digits ++ [0]) 9 = some 0xE3069283 := by
  have h := crc32Sse42_eq sse42_lawful true 0 3 (show digits.length < 2 ^ 31 by decide) [0]
  rw [show ((digits.length : Nat) : Int) = 9 from rfl] at h
  rw [h]
  decide +kernel

end PerfectHash.Xs
