import Mathlib.Data.List.Basic
import Mathlib.Data.List.Flatten
import Mathlib.Algebra.Order.Ring.Nat

/-! # Bit strings in tables of words

The bits of a table of words, the low bit of the first word first. A word that is written changes
its bits only (`getElem?_bits_set`). -/

namespace BitString

variable {w : Nat} {ws : List (BitVec w)} {i k : Nat}

/-- The low `n` bits of a word, low bit first. -/
def word (n : Nat) (x : BitVec w) : List Bool := (List.range n).map x.getLsbD

/-- The bits of some words. -/
def bits (ws : List (BitVec w)) : List Bool := ws.flatMap (word w)

@[simp] theorem length_word (n : Nat) (x : BitVec w) : (word n x).length = n := by
  rw [word, List.length_map, List.length_range]

theorem getElem?_word {n : Nat} {x : BitVec w} (hk : k < n) :
    (word n x)[k]? = some (x.getLsbD k) := by
  rw [word, List.getElem?_map, List.getElem?_range hk]
  rfl

@[simp] theorem bits_nil : bits ([] : List (BitVec w)) = [] := rfl

@[simp] theorem bits_cons (x : BitVec w) (ws : List (BitVec w)) :
    bits (x :: ws) = word w x ++ bits ws := List.flatMap_cons

theorem bits_append (ws ws' : List (BitVec w)) : bits (ws ++ ws') = bits ws ++ bits ws' :=
  List.flatMap_append

@[simp] theorem length_bits (ws : List (BitVec w)) : (bits ws).length = w * ws.length := by
  induction ws with
  | nil => rfl
  | cons x ws ih =>
    rw [bits_cons, List.length_append, length_word, ih, List.length_cons, Nat.mul_succ]
    omega

/-- The bit number `k` is in the word number `k / w`. -/
theorem getElem?_bits (hw : 0 < w) (ws : List (BitVec w)) (k : Nat) :
    (bits ws)[k]? = ws[k / w]?.map (·.getLsbD (k % w)) := by
  induction ws generalizing k with
  | nil => rfl
  | cons x ws ih =>
    rw [bits_cons]
    by_cases hk : k < w
    · rw [List.getElem?_append_left (by rwa [length_word]), getElem?_word hk,
        Nat.div_eq_of_lt hk, Nat.mod_eq_of_lt hk]
      rfl
    · have hle := Nat.le_of_not_lt hk
      rw [List.getElem?_append_right (by rwa [length_word]), length_word, ih,
        Nat.div_eq_sub_div hw hle, List.getElem?_cons_succ, Nat.mod_eq_sub_mod hle]

theorem getElem?_bits_set (hw : 0 < w) (hi : i < ws.length) (x : BitVec w) (k : Nat) :
    (bits (ws.set i x))[k]? = if k / w = i then some (x.getLsbD (k % w)) else (bits ws)[k]? := by
  rw [getElem?_bits hw, getElem?_bits hw]
  split
  · rename_i hk
    rw [hk, List.getElem?_set_self hi]
    rfl
  · rename_i hk
    rw [List.getElem?_set_ne (Ne.symm hk)]

theorem bits_replicate_zero (n : Nat) :
    bits (List.replicate n (0 : BitVec w)) = List.replicate (w * n) false := by
  have hword : word w (0 : BitVec w) = List.replicate w false := by
    refine List.eq_replicate_iff.mpr ⟨length_word _ _, fun b hb => ?_⟩
    obtain ⟨i, -, rfl⟩ := List.mem_map.mp hb
    exact BitVec.getLsbD_zero
  induction n with
  | zero => rfl
  | succ n ih =>
    rw [List.replicate_succ, bits_cons, ih, hword, List.replicate_append_replicate, Nat.mul_succ,
      Nat.add_comm]

end BitString
