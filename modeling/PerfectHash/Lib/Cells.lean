import Mathlib.Data.List.Basic
import Mathlib.Algebra.Order.Ring.Int
import Mathlib.Tactic.LinearCombination

/-! # Cells of fixed width in a byte string

Integers are stored in a byte string in cells of `w` bytes, low byte first, and what does not fit
is cut off. `encode w cells` is the string whose cells are `cells`: a read of a cell gives its
number modulo `256 ^ w`, and a write gives the string of the changed list. A read or a write that
is not inside the string is `none`. -/

namespace Cells

/-- The low `w` bytes of `x`, low byte first. -/
def le : Nat → Int → List UInt8
  | 0, _ => []
  | w + 1, x => UInt8.ofNat (x % 256).toNat :: le w (x / 256)

/-- The number of some bytes, low byte first. -/
def value (bytes : List UInt8) : Int := bytes.foldr (fun b v => b.toNat + 256 * v) 0

/-- Read `w` bytes at `pos`. -/
def load (s : List UInt8) (pos w : Nat) : Option Int :=
  if pos + w ≤ s.length then some (value ((s.drop pos).take w)) else none

/-- Write some bytes at `pos`. -/
def store (s : List UInt8) (pos : Nat) (bytes : List UInt8) : Option (List UInt8) :=
  if pos + bytes.length ≤ s.length then
    some (s.take pos ++ bytes ++ s.drop (pos + bytes.length))
  else none

/-- The string with the given cells. -/
def encode (w : Nat) (cells : List Int) : List UInt8 := cells.flatMap (le w)

variable {w i : Nat} {x y : Int} {s a b c : List UInt8} {cells front back : List Int}

/-! ## One cell -/

@[simp] theorem length_le (w : Nat) (x : Int) : (le w x).length = w := by
  induction w generalizing x with
  | zero => rfl
  | succ w ih => rw [le, List.length_cons, ih]

theorem le_zero (w : Nat) : le w 0 = List.replicate w 0 := by
  induction w with
  | zero => rfl
  | succ w ih => rw [le, Int.zero_ediv, ih]; rfl

/-- What is read back from a cell is the number without what was cut off. -/
theorem value_le (w : Nat) (x : Int) : value (le w x) = x % 256 ^ w := by
  induction w generalizing x with
  | zero => simp [le, value]
  | succ w ih =>
    have hbyte : ((UInt8.ofNat (x % 256).toNat).toNat : Int) = x % 256 := by
      rw [UInt8.toNat_ofNat']
      omega
    have hvalue : value (le (w + 1) x) = x % 256 + 256 * value (le w (x / 256)) := by
      rw [← hbyte]
      rfl
    have hpow : (0 : Int) < 256 ^ w := Int.pow_pos (by decide)
    have hlow := Int.emod_add_mul_ediv x 256
    have hhigh := Int.emod_add_mul_ediv (x / 256) (256 ^ w)
    have hnonneg := Int.emod_nonneg (x / 256) hpow.ne'
    have hlt := Int.emod_lt_of_pos (x / 256) hpow
    rw [hvalue, ih]
    have hunique := Int.ediv_emod_unique (a := x) (q := x / 256 / 256 ^ w)
      (r := x % 256 + 256 * (x / 256 % 256 ^ w)) (b := 256 ^ (w + 1)) (Int.pow_pos (by decide))
    refine (hunique.mpr ⟨?_, ?_, ?_⟩).2.symm
    · linear_combination 256 * hhigh + hlow
    · omega
    · rw [pow_succ]
      omega

theorem value_nonneg (a : List UInt8) : 0 ≤ value a := by
  induction a with
  | nil => exact Int.le_refl 0
  | cons x a ih =>
    change 0 ≤ (x.toNat : Int) + 256 * value a
    omega

theorem value_lt (a : List UInt8) : value a < 256 ^ a.length := by
  induction a with
  | nil => exact Int.zero_lt_one
  | cons x a ih =>
    have hx := x.toNat_lt
    change (x.toNat : Int) + 256 * value a < 256 ^ (a.length + 1)
    rw [pow_succ]
    omega

/-- Two byte strings of one length are equal if their numbers are. -/
theorem value_injective (h : a.length = b.length) (hvalue : value a = value b) : a = b := by
  induction a generalizing b with
  | nil => exact (List.length_eq_zero_iff.mp h.symm).symm
  | cons x a ih =>
    match b, h with
    | y :: b, h =>
      have hx := x.toNat_lt
      have hy := y.toNat_lt
      change (x.toNat : Int) + 256 * value a = (y.toNat : Int) + 256 * value b at hvalue
      rw [ih (Nat.succ.inj h) (by omega), UInt8.toNat_inj.mp (show x.toNat = y.toNat by omega)]

/-- The bytes of the number of some bytes. -/
theorem le_value (a : List UInt8) : le a.length (value a) = a := by
  refine value_injective (length_le _ _) ?_
  rw [value_le, Int.emod_eq_of_lt (value_nonneg a) (value_lt a)]

/-! ## Reads and writes -/

theorem load_append (a b c : List UInt8) :
    load (a ++ b ++ c) a.length b.length = some (value b) := by
  rw [load, if_pos (by simp only [List.length_append]; omega), List.append_assoc,
    List.drop_left' rfl, List.take_left' rfl]

theorem store_append (a : List UInt8) (h : b.length = s.length) (c : List UInt8) :
    store (a ++ s ++ c) a.length b = some (a ++ b ++ c) := by
  have hlength : (a ++ s).length = a.length + b.length := by rw [List.length_append, h]
  rw [store, if_pos (by simp only [List.length_append]; omega), List.drop_left' hlength,
    List.append_assoc a s c, List.take_left' rfl]

theorem length_store (h : store s i b = some c) : c.length = s.length := by
  unfold store at h
  split at h
  · cases h
    simp only [List.length_append, List.length_take, List.length_drop]
    omega
  · cases h

theorem load_one (s : List UInt8) (pos : Nat) :
    load s pos 1 = s[pos]?.map fun b => (b.toNat : Int) := by
  unfold load
  split
  · rename_i h
    have hpos : pos < s.length := by omega
    have htake : (s.drop pos).take 1 = [s[pos]] := by rw [List.drop_eq_getElem_cons hpos]; rfl
    rw [htake, List.getElem?_eq_getElem hpos]
    simp [value]
  · rw [List.getElem?_eq_none (by omega)]
    rfl

/-! ## Strings of cells -/

@[simp] theorem encode_nil (w : Nat) : encode w [] = [] := rfl

theorem encode_append (w : Nat) (front back : List Int) :
    encode w (front ++ back) = encode w front ++ encode w back := List.flatMap_append

theorem encode_middle (w : Nat) (front : List Int) (x : Int) (back : List Int) :
    encode w (front ++ x :: back) = encode w front ++ le w x ++ encode w back := by
  rw [encode_append, encode, encode, List.flatMap_cons, List.append_assoc]
  rfl

@[simp] theorem length_encode (w : Nat) (cells : List Int) :
    (encode w cells).length = w * cells.length := by
  induction cells with
  | nil => rfl
  | cons x cells ih =>
    have h := congrArg List.length (encode_middle w [] x cells)
    simp only [List.nil_append, List.length_append, encode_nil, length_le, ih] at h
    rw [h, List.length_cons, Nat.mul_succ]
    omega

/-- A string of zero bytes is a string of zero cells. -/
theorem encode_replicate_zero (w n : Nat) :
    encode w (List.replicate n 0) = List.replicate (w * n) 0 := by
  induction n with
  | zero => rfl
  | succ n ih =>
    rw [List.replicate_succ', encode_middle, ih, le_zero, encode_nil, List.append_nil,
      List.replicate_append_replicate, Nat.mul_succ]

/-- A read of a cell. -/
theorem load_encode (h : cells[i]? = some x) :
    load (encode w cells) (w * i) w = some (x % 256 ^ w) := by
  obtain ⟨hi, rfl⟩ := List.getElem?_eq_some_iff.mp h
  have hload := load_append (encode w (cells.take i)) (le w cells[i])
    (encode w (cells.drop (i + 1)))
  rw [← encode_middle, List.getElem_cons_drop, List.take_append_drop, length_encode, length_le,
    value_le, List.length_take, Nat.min_eq_left (Nat.le_of_lt hi)] at hload
  exact hload

/-- A write of a cell. -/
theorem store_encode (w : Nat) (front : List Int) (x y : Int) (back : List Int) :
    store (encode w (front ++ x :: back)) (w * front.length) (le w y) =
      some (encode w (front ++ y :: back)) := by
  rw [encode_middle, encode_middle, ← length_encode]
  exact store_append _ (by rw [length_le, length_le]) _

end Cells
