import PerfectHash.Perl
import Mathlib.Computability.RegularExpressions

/-! # Valid UTF-8 (`utf8_valid`)

`utf8_valid` matches a byte string with a regular expression of nine ranges of lead bytes under a
star. Its language is that of the encoder: the concatenations of encoded scalar values
(`utf8Valid_iff`). -/

namespace PerfectHash.C

open RegularExpression

/-- `[\xlo-\xhi]` -/
def byteRange (lo hi : Nat) : RegularExpression UInt8 :=
  ((List.range' lo (hi + 1 - lo)).map fun n => char (UInt8.ofNat n)).sum

/-- The expression of `utf8_valid` for one character. -/
def utf8Char : RegularExpression UInt8 :=
  byteRange 0x00 0x7F
    + byteRange 0xC2 0xDF * byteRange 0x80 0xBF
    + (byteRange 0xE0 0xE0 * byteRange 0xA0 0xBF + byteRange 0xED 0xED * byteRange 0x80 0x9F
      + (byteRange 0xE1 0xEC + byteRange 0xEE 0xEF) * byteRange 0x80 0xBF) * byteRange 0x80 0xBF
    + (byteRange 0xF0 0xF0 * byteRange 0x90 0xBF + byteRange 0xF1 0xF3 * byteRange 0x80 0xBF
      + byteRange 0xF4 0xF4 * byteRange 0x80 0x8F) * (byteRange 0x80 0xBF * byteRange 0x80 0xBF)

/-- `utf8_valid`. The `$` of the expression also matches in front of a newline at the end. -/
def utf8Valid (s : Bytes) : Bool :=
  utf8Char.star.rmatch s || (s.getLast? = some 10 && utf8Char.star.rmatch s.dropLast)

/-! ## Classes -/

theorem mem_sum {α : Type} {l : List (RegularExpression α)} {x : List α} :
    x ∈ l.sum.matches' ↔ ∃ P ∈ l, x ∈ P.matches' := by
  induction l with
  | nil =>
    rw [List.sum_nil, matches'_zero]
    simp
  | cons P l ih =>
    rw [List.sum_cons, matches'_add, Language.mem_add, ih, List.exists_mem_cons_iff]

/-- A class matches its bytes. -/
theorem mem_byteRange {lo hi : Nat} (hhi : hi < 256) {x : Bytes} :
    x ∈ (byteRange lo hi).matches' ↔ ∃ b : UInt8, x = [b] ∧ lo ≤ b.toNat ∧ b.toNat ≤ hi := by
  rw [byteRange, mem_sum]
  simp only [List.mem_map, List.mem_range'_1]
  constructor
  · rintro ⟨_, ⟨n, ⟨hlo, hle⟩, rfl⟩, hx⟩
    have hn : (UInt8.ofNat n).toNat = n % 2 ^ 8 := UInt8.toNat_ofNat'
    exact ⟨UInt8.ofNat n, hx, by omega, by omega⟩
  · rintro ⟨b, rfl, hlo, hle⟩
    exact ⟨_, ⟨b.toNat, ⟨hlo, by omega⟩, rfl⟩, congrArg ([·]) UInt8.ofNat_toNat.symm⟩

/-- A class in front of a language. -/
theorem mem_byteRange_mul {lo hi : Nat} (hhi : hi < 256) {l : Language UInt8} {x : Bytes} :
    x ∈ (byteRange lo hi).matches' * l ↔
      ∃ (b : UInt8) (y : Bytes), x = b :: y ∧ (lo ≤ b.toNat ∧ b.toNat ≤ hi) ∧ y ∈ l := by
  simp only [Language.mem_mul, mem_byteRange hhi]
  constructor
  · rintro ⟨_, ⟨b, rfl, hb⟩, y, hy, rfl⟩
    exact ⟨b, y, rfl, hb, hy⟩
  · rintro ⟨b, y, rfl, hb, hy⟩
    exact ⟨[b], ⟨b, rfl, hb⟩, y, hy, rfl⟩

/-! ## One character -/

theorem exists_char {n : Nat} (h : n.isValidChar) : ∃ c : Char, c.val.toNat = n :=
  ⟨Char.ofNatAux n h, rfl⟩

section
variable {n : Nat} {a b c d : UInt8}

/-! The scalar values with given bytes for their encodings. -/

theorem exists_one (ha : a.toNat ≤ 0x7F) : ∃ v, [a] = String.utf8EncodeChar v := by
  obtain ⟨v, hv⟩ := exists_char (n := a.toNat) (.inl (by omega))
  refine ⟨v, ?_⟩
  unfold String.utf8EncodeChar
  dsimp only
  rw [hv, if_pos ha, UInt8.ofNat_toNat]

theorem exists_two (ha : 0xC2 ≤ a.toNat ∧ a.toNat ≤ 0xDF) (hb : 0x80 ≤ b.toNat ∧ b.toNat ≤ 0xBF) :
    ∃ v, [a, b] = String.utf8EncodeChar v := by
  obtain ⟨v, hv⟩ := exists_char (n := (a.toNat - 0xC0) * 64 + (b.toNat - 0x80)) (.inl (by omega))
  refine ⟨v, ?_⟩
  unfold String.utf8EncodeChar
  dsimp only
  rw [hv, if_neg (by omega), if_pos (by omega), List.cons.injEq, List.cons.injEq,
    ← UInt8.toNat_inj, ← UInt8.toNat_inj, UInt8.toNat_ofNat', UInt8.toNat_ofNat']
  exact ⟨by omega, by omega, rfl⟩

theorem exists_three (ha : 0xE0 ≤ a.toNat ∧ a.toNat ≤ 0xEF) (hb : 0x80 ≤ b.toNat ∧ b.toNat ≤ 0xBF)
    (hc : 0x80 ≤ c.toNat ∧ c.toNat ≤ 0xBF) (he0 : a.toNat = 0xE0 → 0xA0 ≤ b.toNat)
    (hed : a.toNat = 0xED → b.toNat ≤ 0x9F) : ∃ v, [a, b, c] = String.utf8EncodeChar v := by
  obtain ⟨v, hv⟩ := exists_char
    (n := (a.toNat - 0xE0) * 4096 + (b.toNat - 0x80) * 64 + (c.toNat - 0x80))
    (by unfold Nat.isValidChar; omega)
  refine ⟨v, ?_⟩
  unfold String.utf8EncodeChar
  dsimp only
  rw [hv, if_neg (by omega), if_neg (by omega), if_pos (by omega), List.cons.injEq,
    List.cons.injEq, List.cons.injEq, ← UInt8.toNat_inj, ← UInt8.toNat_inj, ← UInt8.toNat_inj,
    UInt8.toNat_ofNat', UInt8.toNat_ofNat', UInt8.toNat_ofNat']
  exact ⟨by omega, by omega, by omega, rfl⟩

theorem exists_four (ha : 0xF0 ≤ a.toNat ∧ a.toNat ≤ 0xF4) (hb : 0x80 ≤ b.toNat ∧ b.toNat ≤ 0xBF)
    (hc : 0x80 ≤ c.toNat ∧ c.toNat ≤ 0xBF) (hd : 0x80 ≤ d.toNat ∧ d.toNat ≤ 0xBF)
    (hf0 : a.toNat = 0xF0 → 0x90 ≤ b.toNat) (hf4 : a.toNat = 0xF4 → b.toNat ≤ 0x8F) :
    ∃ v, [a, b, c, d] = String.utf8EncodeChar v := by
  obtain ⟨v, hv⟩ := exists_char (n := (a.toNat - 0xF0) * 262144 + (b.toNat - 0x80) * 4096 +
    (c.toNat - 0x80) * 64 + (d.toNat - 0x80)) (by unfold Nat.isValidChar; omega)
  refine ⟨v, ?_⟩
  unfold String.utf8EncodeChar
  dsimp only
  rw [hv, if_neg (by omega), if_neg (by omega), if_neg (by omega), List.cons.injEq,
    List.cons.injEq, List.cons.injEq, List.cons.injEq, ← UInt8.toNat_inj, ← UInt8.toNat_inj,
    ← UInt8.toNat_inj, ← UInt8.toNat_inj, UInt8.toNat_ofNat', UInt8.toNat_ofNat',
    UInt8.toNat_ofNat', UInt8.toNat_ofNat']
  exact ⟨by omega, by omega, by omega, by omega, rfl⟩

end

theorem exists_of_mem_utf8Char {x : Bytes} (h : x ∈ utf8Char.matches') :
    ∃ v, x = String.utf8EncodeChar v := by
  simp (disch := decide) only [utf8Char, matches'_add, matches'_mul, add_mul, mul_assoc,
    Language.mem_add, mem_byteRange_mul, mem_byteRange, or_assoc] at h
  obtain ⟨a, rfl, ha⟩ | ⟨a, _, rfl, ha, b, rfl, hb⟩ |
    ⟨a, _, rfl, ha, b, _, rfl, hb, c, rfl, hc⟩ | ⟨a, _, rfl, ha, b, _, rfl, hb, c, rfl, hc⟩ |
    ⟨a, _, rfl, ha, b, _, rfl, hb, c, rfl, hc⟩ | ⟨a, _, rfl, ha, b, _, rfl, hb, c, rfl, hc⟩ |
    ⟨a, _, rfl, ha, b, _, rfl, hb, c, _, rfl, hc, d, rfl, hd⟩ |
    ⟨a, _, rfl, ha, b, _, rfl, hb, c, _, rfl, hc, d, rfl, hd⟩ |
    ⟨a, _, rfl, ha, b, _, rfl, hb, c, _, rfl, hc, d, rfl, hd⟩ := h
  · exact exists_one ha.2
  · exact exists_two ha hb
  iterate 4 exact exists_three (by omega) (by omega) hc (by omega) (by omega)
  iterate 3 exact exists_four (by omega) (by omega) hc hd (by omega) (by omega)

theorem utf8EncodeChar_mem (v : Char) : String.utf8EncodeChar v ∈ utf8Char.matches' := by
  simp (disch := decide) only [utf8Char, matches'_add, matches'_mul, add_mul, mul_assoc,
    Language.mem_add, mem_byteRange_mul, mem_byteRange, or_assoc]
  have hvalid : v.val.toNat.isValidChar := v.valid
  unfold Nat.isValidChar at hvalid
  unfold String.utf8EncodeChar
  dsimp only
  generalize v.val.toNat = n at hvalid
  split_ifs with h1 h2 h3
  · exact .inl ⟨_, rfl, by rw [UInt8.toNat_ofNat']; omega⟩
  · refine .inr (.inl ⟨_, _, rfl, ?_, _, rfl, ?_⟩) <;> rw [UInt8.toNat_ofNat'] <;> omega
  · -- the first byte, and with it the range of the second one, is told by `n / 4096`
    have hthree {lo hi lo' hi' : Nat} (ha : lo ≤ n / 4096 + 0xE0 ∧ n / 4096 + 0xE0 ≤ hi)
        (hb : lo' ≤ n / 64 % 64 + 0x80 ∧ n / 64 % 64 + 0x80 ≤ hi') :
        ∃ b y, [UInt8.ofNat (n / 4096 % 16 + 0xE0), UInt8.ofNat (n / 64 % 64 + 0x80),
            UInt8.ofNat (n % 64 + 0x80)] = b :: y ∧ (lo ≤ b.toNat ∧ b.toNat ≤ hi) ∧
          ∃ b z, y = b :: z ∧ (lo' ≤ b.toNat ∧ b.toNat ≤ hi') ∧
            ∃ b, z = [b] ∧ 0x80 ≤ b.toNat ∧ b.toNat ≤ 0xBF := by
      refine ⟨_, _, rfl, ?_, _, _, rfl, ?_, _, rfl, ?_⟩ <;> rw [UInt8.toNat_ofNat'] <;> omega
    rcases Nat.lt_or_ge n 0x1000 with he0 | he0
    · exact .inr (.inr (.inl (hthree (by omega) (by omega))))
    · rcases Nat.lt_or_ge n 0xD000 with hec | hec
      · exact .inr (.inr (.inr (.inr (.inl (hthree (by omega) (by omega))))))
      · rcases Nat.lt_or_ge n 0xE000 with hed | hed
        · exact .inr (.inr (.inr (.inl (hthree (by omega) (by omega)))))
        · exact .inr (.inr (.inr (.inr (.inr (.inl (hthree (by omega) (by omega)))))))
  · have hfour {lo hi lo' hi' : Nat} (ha : lo ≤ n / 262144 + 0xF0 ∧ n / 262144 + 0xF0 ≤ hi)
        (hb : lo' ≤ n / 4096 % 64 + 0x80 ∧ n / 4096 % 64 + 0x80 ≤ hi') :
        ∃ b y, [UInt8.ofNat (n / 262144 % 8 + 0xF0), UInt8.ofNat (n / 4096 % 64 + 0x80),
            UInt8.ofNat (n / 64 % 64 + 0x80), UInt8.ofNat (n % 64 + 0x80)] = b :: y ∧
          (lo ≤ b.toNat ∧ b.toNat ≤ hi) ∧
          ∃ b z, y = b :: z ∧ (lo' ≤ b.toNat ∧ b.toNat ≤ hi') ∧
            ∃ b w, z = b :: w ∧ (0x80 ≤ b.toNat ∧ b.toNat ≤ 0xBF) ∧
              ∃ b, w = [b] ∧ 0x80 ≤ b.toNat ∧ b.toNat ≤ 0xBF := by
      refine ⟨_, _, rfl, ?_, _, _, rfl, ?_, _, _, rfl, ?_, _, rfl, ?_⟩ <;>
        rw [UInt8.toNat_ofNat'] <;> omega
    rcases Nat.lt_or_ge n 0x40000 with hf0 | hf0
    · exact .inr (.inr (.inr (.inr (.inr (.inr (.inl (hfour (by omega) (by omega))))))))
    · rcases Nat.lt_or_ge n 0x100000 with hf3 | hf3
      · exact .inr (.inr (.inr (.inr (.inr (.inr (.inr (.inl
          (hfour (by omega) (by omega)))))))))
      · exact .inr (.inr (.inr (.inr (.inr (.inr (.inr (.inr
          (hfour (by omega) (by omega)))))))))

/-- The expression for one character matches the encodings of the scalar values. -/
theorem mem_utf8Char_iff {x : Bytes} :
    x ∈ utf8Char.matches' ↔ ∃ v, x = String.utf8EncodeChar v :=
  ⟨exists_of_mem_utf8Char, fun ⟨v, hv⟩ => hv ▸ utf8EncodeChar_mem v⟩

/-! ## A string -/

/-- `utf8_valid` accepts the encodings of the strings of scalar values. -/
theorem utf8Valid_iff (s : Bytes) :
    utf8Valid s = true ↔ ∃ vs : List Char, s = vs.flatMap String.utf8EncodeChar := by
  have hstar (t : Bytes) :
      utf8Char.star.rmatch t = true ↔ ∃ vs : List Char, t = vs.flatMap String.utf8EncodeChar := by
    rw [rmatch_iff_matches', matches'_star, Language.mem_kstar]
    constructor
    · rintro ⟨parts, rfl, hparts⟩
      induction parts with
      | nil => exact ⟨[], rfl⟩
      | cons part parts ih =>
        obtain ⟨hhead, htail⟩ := List.forall_mem_cons.mp hparts
        obtain ⟨v, hv⟩ := mem_utf8Char_iff.mp hhead
        obtain ⟨vs, hvs⟩ := ih htail
        exact ⟨v :: vs, by rw [List.flatten_cons, List.flatMap_cons, hv, hvs]⟩
    · rintro ⟨vs, rfl⟩
      refine ⟨vs.map String.utf8EncodeChar, List.flatMap_def, fun part hpart => ?_⟩
      obtain ⟨v, -, rfl⟩ := List.mem_map.mp hpart
      exact mem_utf8Char_iff.mpr ⟨v, rfl⟩
  rw [utf8Valid, Bool.or_eq_true, Bool.and_eq_true, decide_eq_true_eq, hstar, hstar]
  constructor
  · rintro (h | ⟨hlast, vs, hvs⟩)
    · exact h
    · -- the newline is a character itself
      obtain ⟨front, rfl⟩ := List.getLast?_eq_some_iff.mp hlast
      rw [List.dropLast_concat] at hvs
      exact ⟨vs ++ ['\n'], by rw [List.flatMap_append, ← hvs]; rfl⟩
  · exact .inl

end PerfectHash.C
