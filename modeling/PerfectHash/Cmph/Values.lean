import PerfectHash.Cmph.Bitbool

/-! # Values of two bits in tables (`bitbool.h`)

`values` are the values of a table, four in each byte. A read gives one of them, and a write where the
value is 3 replaces it (`setValue1_spec`). -/

namespace PerfectHash.Cmph

/-- `valuemask`, the table of the bytes without one of their values -/
def valuemask (i : Nat) : UInt8 := ~~~(3 <<< UInt8.ofNat (2 * i))

/-- `GETVALUE(array, i)` -/
def getValue (array : Bytes) (i : Nat) : Option Nat := do
  let x ← array[i >>> 2]?
  return (x >>> UInt8.ofNat ((i &&& 0x3) <<< 1) &&& 0x3).toNat

/-- `SETVALUE1(array, i, v)` -/
def setValue1 (array : Bytes) (i v : Nat) : Option Bytes := do
  let x ← array[i >>> 2]?
  write array (i >>> 2) (x &&& (UInt8.ofNat (v <<< ((i &&& 0x3) <<< 1)) ||| valuemask (i &&& 0x3)))

/-- The four values of a byte. -/
def byteValues (b : UInt8) : List Nat := (List.range 4).map fun j => b.toNat / 4 ^ j % 4

/-- The values of a table. -/
def values (array : Bytes) : List Nat := array.flatMap byteValues

variable {array : Bytes} {i v : Nat}

theorem shiftRight_two (i : Nat) : i >>> 2 = i / 4 := Nat.shiftRight_eq_div_pow i 2
theorem and_three (i : Nat) : i &&& 0x3 = i % 4 := Nat.and_two_pow_sub_one_eq_mod i 2

theorem values_cons (b : UInt8) (array : Bytes) :
    values (b :: array) = byteValues b ++ values array := List.flatMap_cons

@[simp] theorem length_values (array : Bytes) : (values array).length = 4 * array.length := by
  induction array with
  | nil => rfl
  | cons b array ih =>
    rw [values_cons, List.length_append, ih, List.length_cons]
    change 4 + _ = _
    omega

/-- The value number `i` is in the byte number `i / 4`. -/
theorem getElem?_values (array : Bytes) (i : Nat) :
    (values array)[i]? = array[i / 4]?.map fun b => b.toNat / 4 ^ (i % 4) % 4 := by
  induction array generalizing i with
  | nil => rfl
  | cons b array ih =>
    rw [values_cons]
    rcases Nat.lt_or_ge i 4 with hi | hi
    · rw [List.getElem?_append_left (by exact hi), Nat.div_eq_of_lt hi, Nat.mod_eq_of_lt hi,
        byteValues, List.getElem?_map, List.getElem?_range hi]
      rfl
    · rw [List.getElem?_append_right (by exact hi), Nat.div_eq_sub_div (by decide) hi,
        List.getElem?_cons_succ, Nat.mod_eq_sub_mod hi]
      exact ih (i - 4)

theorem values_lt {x : Nat} (h : (values array)[i]? = some x) : x < 4 := by
  rw [getElem?_values] at h
  obtain ⟨b, -, rfl⟩ := Option.map_eq_some_iff.mp h
  exact Nat.mod_lt _ (by decide)

theorem getValue_eq (array : Bytes) (i : Nat) : getValue array i = (values array)[i]? := by
  rw [getElem?_values, getValue, shiftRight_two, and_three]
  cases h : array[i / 4]? with
  | none => rfl
  | some x =>
    have main : ∀ (x : BitVec 8) (j : Fin 4),
        (UInt8.ofBitVec x >>> UInt8.ofNat ((j : Nat) <<< 1) &&& 0x3).toNat =
          x.toNat / 4 ^ (j : Nat) % 4 := by
      decide +kernel
    exact congrArg some (main x.toBitVec ⟨i % 4, Nat.mod_lt _ (by decide)⟩)

/-- A value that is 3 is replaced. -/
theorem setValue1_spec (hi : (values array)[i]? = some 3) (hv : v < 4) :
    ∃ array', setValue1 array i v = some array' ∧ array'.length = array.length ∧
      values array' = (values array).set i v := by
  rw [getElem?_values] at hi
  obtain ⟨x, hx, hthree⟩ := Option.map_eq_some_iff.mp hi
  have hdiv := (List.getElem?_eq_some_iff.mp hx).1
  rw [setValue1, shiftRight_two, and_three, hx]
  refine ⟨_, write_of_lt hdiv _, List.length_set, List.ext_getElem? fun k => ?_⟩
  have main : ∀ (x : BitVec 8) (j m v : Fin 4), x.toNat / 4 ^ (j : Nat) % 4 = 3 →
      (UInt8.ofBitVec x &&& (UInt8.ofNat ((v : Nat) <<< ((j : Nat) <<< 1)) ||| valuemask j)).toNat /
        4 ^ (m : Nat) % 4 = if j = m then (v : Nat) else x.toNat / 4 ^ (m : Nat) % 4 := by
    decide +kernel
  have hvalue := main x.toBitVec ⟨i % 4, Nat.mod_lt _ (by decide)⟩ ⟨k % 4, Nat.mod_lt _ (by decide)⟩
    ⟨v, hv⟩ hthree
  simp only [Fin.mk.injEq] at hvalue
  rw [getElem?_values, List.getElem?_set, List.getElem?_set, length_values]
  by_cases hk : i / 4 = k / 4
  · rw [if_pos hk, if_pos hdiv]
    refine (congrArg some hvalue).trans ?_
    by_cases hik : i = k
    · rw [if_pos (by rw [hik]), if_pos hik, if_pos (by omega)]
    · rw [if_neg (by omega), if_neg hik, getElem?_values, ← hk, hx]
      rfl
  · rw [if_neg hk, if_neg (by rintro rfl; exact hk rfl), getElem?_values]

/-- Writing 3 where the value is 3 changes nothing. -/
theorem setValue1_three (hi : (values array)[i]? = some 3) :
    ∃ array', setValue1 array i 3 = some array' ∧ array'.length = array.length ∧
      values array' = values array := by
  obtain ⟨array', hset, hlen, hvalues⟩ := setValue1_spec hi (by decide : 3 < 4)
  refine ⟨array', hset, hlen, hvalues.trans (List.ext_getElem? fun k => ?_)⟩
  rw [List.getElem?_set]
  split
  · rename_i hik
    rw [← hik, hi, if_pos (List.getElem?_eq_some_iff.mp hi).1]
  · rfl

end PerfectHash.Cmph
