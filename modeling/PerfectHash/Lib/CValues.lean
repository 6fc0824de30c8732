import Mathlib.Data.List.Basic
import Mathlib.Algebra.Order.Ring.Int
import Mathlib.Tactic.NormNum

/-! # C integers and byte buffers

Integer types with their conversions and arithmetic, for a machine with 32-bit `int` where a
conversion to a signed type wraps, and reads of byte buffers. An operation that C leaves undefined
is `none`: a signed overflow, a division by zero, a read outside of the buffer. -/

namespace CValues

/-! ## Integers -/

/-- An integer type. -/
structure IntType where
  signed : Bool
  bits : Nat
  deriving DecidableEq, Repr

namespace IntType

/-- The type can represent `x`. -/
def Fits (t : IntType) (x : Int) : Prop :=
  if t.signed then -2 ^ t.bits ≤ 2 * x ∧ 2 * x < 2 ^ t.bits else 0 ≤ x ∧ x < 2 ^ t.bits

instance (t : IntType) (x : Int) : Decidable (t.Fits x) := by
  unfold Fits
  infer_instance

/-- Conversion to the type. -/
def conv (t : IntType) (x : Int) : Int :=
  if t.signed then x.bmod (2 ^ t.bits) else x % 2 ^ t.bits

/-- The type in which an operand of this type takes part in arithmetic. -/
def promote (t : IntType) : IntType := if t.bits < 32 then ⟨true, 32⟩ else t

/-- The result of an operation of the type whose mathematical result is `x`. -/
def arith (t : IntType) (x : Int) : Option Int :=
  if t.signed then if t.Fits x then some x else none else some (x % 2 ^ t.bits)

variable {t : IntType} {x y : Int}

theorem conv_of_fits (h : t.Fits x) : t.conv x = x := by
  unfold Fits at h
  unfold conv
  split at h
  · rw [if_pos ‹_›]
    exact Int.bmod_eq_of_le_mul_two (by push_cast; omega) (by push_cast; omega)
  · rw [if_neg ‹_›]
    exact Int.emod_eq_of_lt h.1 h.2

/-- A conversion gives a value of the type. -/
theorem fits_conv (hbits : 0 < t.bits) (x : Int) : t.Fits (t.conv x) := by
  obtain ⟨n, hn⟩ := Nat.exists_eq_add_of_lt hbits
  have hpow : 0 < 2 ^ t.bits := Nat.two_pow_pos _
  have hcast : ((2 ^ t.bits : Nat) : Int) = 2 ^ t.bits := by push_cast; rfl
  unfold Fits conv
  split
  · have hle := Int.le_bmod (x := x) hpow
    have hlt := Int.bmod_lt (x := x) hpow
    have heven : 2 ^ t.bits = 2 * 2 ^ n := by rw [hn, Nat.zero_add, Nat.pow_succ, Nat.mul_comm]
    omega
  · exact ⟨Int.emod_nonneg _ (by omega), Int.emod_lt_of_pos _ (by omega)⟩

/-- The numbers below `n` are values of a signed type exactly if `n` is at most half of its
range. -/
theorem forall_lt_fits_iff (hsigned : t.signed = true) {b n : Nat} (hbits : t.bits = b + 1) :
    (∀ i < n, t.Fits (i : Nat)) ↔ n ≤ 2 ^ b := by
  have hfits (i : Nat) : t.Fits (i : Nat) ↔ i < 2 ^ b := by
    have hcast : ((2 ^ b : Nat) : Int) = 2 ^ b := by push_cast; rfl
    rw [Fits, if_pos hsigned, hbits, pow_succ]
    omega
  simp only [hfits]
  constructor
  · intro h
    by_contra hlt
    exact absurd (h (2 ^ b) (by omega)) (Nat.lt_irrefl _)
  · exact fun h i hi => hi.trans_le h

/-- Conversion keeps the bits of the type. -/
theorem conv_emod (t : IntType) (x : Int) : t.conv x % 2 ^ t.bits = x % 2 ^ t.bits := by
  unfold conv
  split
  · have hemod : x.bmod (2 ^ t.bits) % (2 ^ t.bits : Nat) = x % (2 ^ t.bits : Nat) := Int.bmod_emod
    push_cast at hemod
    exact hemod
  · exact Int.emod_emod_of_dvd x (dvd_refl _)

/-- Conversion keeps numbers apart that differ in the bits of the type. -/
theorem conv_inj (hx : 0 ≤ x ∧ x < 2 ^ t.bits) (hy : 0 ≤ y ∧ y < 2 ^ t.bits) :
    t.conv x = t.conv y ↔ x = y := by
  refine ⟨fun h => ?_, fun h => by rw [h]⟩
  have hmod : x % 2 ^ t.bits = y % 2 ^ t.bits := by rw [← conv_emod, h, conv_emod]
  rwa [Int.emod_eq_of_lt hx.1 hx.2, Int.emod_eq_of_lt hy.1 hy.2] at hmod

theorem arith_of_fits (h : t.Fits x) : t.arith x = some x := by
  unfold arith
  split
  · rfl
  · rename_i hs
    rw [Fits, if_neg hs] at h
    rw [Int.emod_eq_of_lt h.1 h.2]

theorem Fits.of_le (h : t.Fits x) (h0 : 0 ≤ y) (hle : y ≤ x) : t.Fits y := by
  unfold Fits at h ⊢
  split at h
  · rw [if_pos ‹_›]
    have : (0 : Int) < 2 ^ t.bits := by positivity
    omega
  · rw [if_neg ‹_›]
    omega

/-- A value of a narrow type takes part in arithmetic unchanged. -/
theorem Fits.promote (h : t.Fits x) : t.promote.Fits x := by
  unfold IntType.promote
  split
  · rename_i hbits
    have hpow : (2 : Int) ^ t.bits ≤ 2 ^ 31 := pow_le_pow_right₀ (by norm_num) (by omega)
    unfold Fits at h ⊢
    simp only [if_true]
    split at h <;> norm_num at hpow ⊢ <;> omega
  · exact h

end IntType

/-! ## Buffers -/

variable {s rest : List UInt8} {n : Nat}

/-- `strlen`, for a buffer that has a NUL. -/
def strlen (buf : List UInt8) : Option Nat :=
  if 0 ∈ buf then some (buf.takeWhile (· ≠ 0)).length else none

/-- `memcmp(a, b, n) == 0` -/
def memcmpEq (a b : List UInt8) (n : Nat) : Option Bool :=
  if n ≤ a.length ∧ n ≤ b.length then some (a.take n == b.take n) else none

theorem strlen_append (h : 0 ∉ s) (rest : List UInt8) :
    strlen (s ++ 0 :: rest) = some s.length := by
  have hs : (s ++ 0 :: rest).takeWhile (fun c => decide (c ≠ 0)) = s := by
    have hall : ∀ c ∈ s, decide (c ≠ 0) = true := fun c hc =>
      decide_eq_true (ne_of_mem_of_not_mem hc h)
    rw [List.takeWhile_append_of_pos hall, List.takeWhile_cons_of_neg (by simp), List.append_nil]
  rw [strlen, if_pos (by simp), hs]

/-- A buffer with a length is a string, its NUL and what follows. -/
theorem exists_of_strlen {buf : List UInt8} (h : strlen buf = some n) :
    ∃ s rest, buf = s ++ 0 :: rest ∧ 0 ∉ s ∧ s.length = n := by
  have h0 : 0 ∈ buf := by
    by_contra h0
    rw [strlen, if_neg h0] at h
    cases h
  obtain ⟨s, rest, rfl, hs⟩ := List.eq_append_cons_of_mem h0
  rw [strlen_append hs] at h
  exact ⟨s, rest, rfl, hs, Option.some.inj h⟩

/-- The length of the string in a buffer does not depend on what follows its NUL. -/
theorem strlen_mono {buf : List UInt8} (h : strlen buf = some n) (rest : List UInt8) :
    strlen (buf ++ rest) = some n := by
  obtain ⟨s, rest', rfl, hs, rfl⟩ := exists_of_strlen h
  rw [List.append_assoc, List.cons_append, strlen_append hs]

/-- A comparison that is defined does not depend on what follows the buffers. -/
theorem memcmpEq_mono {a b : List UInt8} {r : Bool} (h : memcmpEq a b n = some r)
    (rest rest' : List UInt8) : memcmpEq (a ++ rest) (b ++ rest') n = some r := by
  unfold memcmpEq at h ⊢
  split at h
  · rename_i hn
    rw [if_pos (by simp only [List.length_append]; omega), List.take_append_of_le_length hn.1,
      List.take_append_of_le_length hn.2, h]
  · cases h

theorem memcmpEq_comm (a b : List UInt8) (n : Nat) : memcmpEq a b n = memcmpEq b a n := by
  simp only [memcmpEq, and_comm, Bool.beq_comm]

/-- Comparing two strings of the same length. -/
theorem memcmpEq_append {k : List UInt8} (h : k.length = s.length) (rest rest' : List UInt8) :
    memcmpEq (k ++ rest) (s ++ rest') s.length = some (k == s) := by
  have hn : s.length ≤ (k ++ rest).length ∧ s.length ≤ (s ++ rest').length := by
    simp only [List.length_append]
    omega
  rw [memcmpEq, if_pos hn, List.take_left' h, List.take_left' rfl]

theorem take_succ_min_iff {k : List UInt8} (hk : 0 ∉ k) (hs : 0 ∉ s) (rest : List UInt8) :
    (k ++ [0]).take (min s.length k.length + 1) =
      (s ++ 0 :: rest).take (min s.length k.length + 1) ↔ k = s := by
  induction k generalizing s with
  | nil =>
    cases s with
    | nil => simp
    | cons b s =>
      have hb : (0 : UInt8) ≠ b := fun h => hs (h ▸ List.mem_cons_self)
      simp [hb]
  | cons a k ih =>
    obtain ⟨ha, hk⟩ := not_or.mp (mt List.mem_cons.mpr hk)
    cases s with
    | nil => simp [Ne.symm ha]
    | cons b s =>
      obtain ⟨-, hs⟩ := not_or.mp (mt List.mem_cons.mpr hs)
      rw [List.length_cons, List.length_cons, Nat.succ_min_succ]
      simp only [List.cons_append, List.take_succ_cons, List.cons.injEq, ih hk hs]

theorem take_min_iff (k s rest : List UInt8) :
    (k ++ [0]).take (min s.length k.length) = (s ++ 0 :: rest).take (min s.length k.length) ↔
      k <+: s ∨ s <+: k := by
  rw [List.take_append_of_le_length (Nat.min_le_right _ _),
    List.take_append_of_le_length (Nat.min_le_left _ _)]
  rcases Nat.le_total s.length k.length with h | h
  · rw [Nat.min_eq_left h, List.take_length]
    refine ⟨fun heq => .inr (List.prefix_iff_eq_take.mpr heq.symm), ?_⟩
    rintro (hp | hp)
    · rw [hp.eq_of_length (Nat.le_antisymm hp.length_le h), List.take_length]
    · exact (List.prefix_iff_eq_take.mp hp).symm
  · rw [Nat.min_eq_right h, List.take_length]
    refine ⟨fun heq => .inl (List.prefix_iff_eq_take.mpr heq), ?_⟩
    rintro (hp | hp)
    · exact List.prefix_iff_eq_take.mp hp
    · rw [hp.eq_of_length (Nat.le_antisymm hp.length_le h), List.take_length]

/-- A comparison of one byte more than the shorter one of two strings has is a comparison of the
strings. -/
theorem memcmpEq_succ_min {k : List UInt8} (hk : 0 ∉ k) (hs : 0 ∉ s) (rest : List UInt8) :
    memcmpEq (k ++ [0]) (s ++ 0 :: rest) (1 + min s.length k.length) = some (k == s) := by
  rw [memcmpEq, if_pos (by simp; omega), Nat.add_comm]
  congr 1
  rw [Bool.eq_iff_iff, beq_iff_eq, beq_iff_eq]
  exact take_succ_min_iff hk hs rest

/-- A comparison of as many bytes as the shorter one of two strings has finds out whether one of
them is a prefix of the other. -/
theorem memcmpEq_min (k s rest : List UInt8) :
    memcmpEq (k ++ [0]) (s ++ 0 :: rest) (min s.length k.length) =
      some (decide (k <+: s ∨ s <+: k)) := by
  rw [memcmpEq, if_pos (by simp)]
  congr 1
  rw [Bool.eq_iff_iff, beq_iff_eq, decide_eq_true_eq]
  exact take_min_iff k s rest

/-- A comparison of as many bytes as a string has finds out whether the string is a prefix. -/
theorem memcmpEq_prefix (s rest buf : List UInt8) : memcmpEq (s ++ rest) buf s.length =
    if s.length ≤ buf.length then some (decide (s <+: buf)) else none := by
  have hs : s.length ≤ (s ++ rest).length := by simp
  rw [memcmpEq]
  split
  · rename_i h
    rw [if_pos h.2, List.take_left' rfl]
    congr 1
    rw [Bool.eq_iff_iff, beq_iff_eq, decide_eq_true_eq]
    exact List.prefix_iff_eq_take.symm
  · rename_i h
    rw [if_neg fun hle => h ⟨hs, hle⟩]

/-- Applied with the length of `s`, `f` returns one value on all buffers that start with `s`. -/
def GivenOnly {α : Type} (f : List UInt8 → Nat → Option α) (s : List UInt8) : Prop :=
  ∃ v, ∀ rest, f (s ++ rest) s.length = some v

end CValues
