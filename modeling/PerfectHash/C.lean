import PerfectHash.Dict
import PerfectHash.Lib.CValues
import Mathlib.Data.List.MinMax

/-! # Helpers of the C output (`Perfect::Hash::C`)

The C types that are chosen by size, and the rows in which an array is printed. The generated code
is read as C for x86-64: `char` is signed and a conversion to a signed type wraps. -/

namespace PerfectHash.C

open CValues

def signedChar : IntType := ⟨true, 8⟩
def unsignedChar : IntType := ⟨false, 8⟩
def short : IntType := ⟨true, 16⟩
def unsignedShort : IntType := ⟨false, 16⟩
def int : IntType := ⟨true, 32⟩
def unsignedInt : IntType := ⟨false, 32⟩
def long : IntType := ⟨true, 64⟩
def unsignedLong : IntType := ⟨false, 64⟩

/-- `u_csize $size` -/
def uCsize (size : Nat) : IntType :=
  if size > 4294967296 then unsignedLong
  else if size > 65536 then unsignedInt
  else if size > 256 then unsignedShort
  else unsignedChar

/-- `s_csize $size` -/
def sCsize (size : Nat) : IntType :=
  if size > 2147483648 then long
  else if size > 32768 then int
  else if size > 128 then short
  else signedChar

/-- `s/unsigned //` -/
def stripUnsigned (t : IntType) : IntType := { t with signed := true }

theorem int_fits_natCast {n : Nat} (hn : n < 2 ^ 31) : int.Fits n :=
  ⟨by norm_num [int]; omega, by norm_num [int]; omega⟩

theorem int_conv_natCast {n : Nat} (hn : n < 2 ^ 31) : int.conv n = n :=
  IntType.conv_of_fits (int_fits_natCast hn)

theorem int_conv (x : Int) : int.conv x = x.bmod 4294967296 := by
  simp [IntType.conv, int]

theorem int_conv_lt (x : Int) : int.conv x < 2 ^ 31 := by
  have hlt : x.bmod (2 ^ 32) < ((2 ^ 32 : Nat) + 1) / 2 := Int.bmod_lt (by decide)
  exact hlt

theorem int_conv_natCast_le (n : Nat) : int.conv n ≤ n := by
  rw [int_conv, Int.bmod_def]
  omega

theorem arith_succ {i : Nat} (h : i + 1 < 2 ^ 31) :
    int.arith (i + 1) = some ((i + 1 : Nat) : Int) :=
  IntType.arith_of_fits (int_fits_natCast h)

theorem arith_overflow {i : Nat} (h : ¬ i + 1 < 2 ^ 31) : int.arith (i + 1) = none := by
  have hfits : ¬ int.Fits (i + 1) := by
    rintro ⟨-, hlt⟩
    norm_num [int] at hlt
    omega
  rw [IntType.arith, if_pos (show int.signed = true from rfl), if_neg hfits]

theorem long_conv_natCast {n : Nat} (hn : n < 2 ^ 63) : long.conv n = n :=
  IntType.conv_of_fits ⟨by norm_num [long]; omega, by norm_num [long]; omega⟩

theorem unsignedChar_conv_natCast {n : Nat} (hn : n < 256) : unsignedChar.conv n = n :=
  Int.emod_eq_of_lt (by omega) (by norm_num [unsignedChar]; omega)

theorem unsignedShort_conv_natCast {n : Nat} (hn : n < 65536) : unsignedShort.conv n = n :=
  Int.emod_eq_of_lt (by omega) (by norm_num [unsignedShort]; omega)

theorem unsignedInt_conv_natCast {n : Nat} (hn : n < 2 ^ 32) : unsignedInt.conv n = n :=
  Int.emod_eq_of_lt (by omega) (by norm_num [unsignedInt]; omega)

theorem unsignedLong_conv_natCast {n : Nat} (hn : n < 2 ^ 64) : unsignedLong.conv n = n :=
  Int.emod_eq_of_lt (by omega) (by norm_num [unsignedLong]; omega)

/-- The rows of up to 16 elements in which `_save_c_array` prints an array. -/
def saveCArray (G : List α) : List (List α) :=
  (List.range (G.length / 16 + 1)).map fun row => (G.drop (row * 16)).take 16

/-- The rows together are the array. -/
@[simp] theorem flatten_saveCArray (G : List α) : (saveCArray G).flatten = G := by
  have main (m : Nat) :
      ((List.range m).map fun row => (G.drop (row * 16)).take 16).flatten = G.take (m * 16) := by
    induction m with
    | zero => simp
    | succ m ih =>
      rw [List.range_succ, List.map_append, List.flatten_append, ih, Nat.succ_mul, List.take_add]
      simp
  rw [saveCArray, main, List.take_of_length_le (by omega)]

/-- A number below the length, or a length that is not a multiple of 8, fits the type that is
chosen for the length. -/
theorem uCsize_fits {x : Int} {n : Nat} (h0 : 0 ≤ x) (hle : x ≤ n) (hne : x = n → n % 8 ≠ 0)
    (hn : n ≤ 2 ^ 64) : (uCsize n).Fits x := by
  unfold uCsize
  split
  · exact ⟨h0, by norm_num [unsignedLong]; omega⟩
  · split
    · exact ⟨h0, by norm_num [unsignedInt]; omega⟩
    · split
      · exact ⟨h0, by norm_num [unsignedShort]; omega⟩
      · exact ⟨h0, by norm_num [unsignedChar]; omega⟩

/-- The type that `u_csize` chooses for the maximum `m` can represent it: it is meant for sizes,
whose indices end below them. -/
def Storable (m : Nat) : Prop := m < 2 ^ 64 ∧ m ≠ 2 ^ 8 ∧ m ≠ 2 ^ 16 ∧ m ≠ 2 ^ 32

instance (m : Nat) : Decidable (Storable m) := inferInstanceAs (Decidable (_ ∧ _))

theorem uCsize_fits_self_iff {m : Nat} : (uCsize m).Fits m ↔ Storable m := by
  unfold uCsize Storable
  split_ifs <;>
    norm_num [IntType.Fits, unsignedLong, unsignedInt, unsignedShort, unsignedChar] <;> omega

/-- A type chosen for the largest number of a list can represent all of them exactly if it can
represent this one. -/
theorem forall_uCsize_fits_iff {l : List Nat} :
    (∀ n ∈ l, (uCsize (l.foldr max 0)).Fits n) ↔ Storable (l.foldr max 0) := by
  rw [← uCsize_fits_self_iff]
  constructor
  · intro h
    rcases eq_or_ne l [] with rfl | hne
    · decide
    · apply h
      have hmax := List.foldr_max_of_ne_nil hne
      exact List.maximum_mem hmax.symm
  · intro h n hn
    have hle : n ≤ l.foldr max 0 := List.le_max_of_le hn (Nat.le_refl n)
    exact h.of_le (by omega) (by omega)

end PerfectHash.C
