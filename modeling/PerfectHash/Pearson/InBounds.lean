import PerfectHash.Dict.KeyList
import PerfectHash.Pearson.Collisions

/-! # The reads of the table

The sizing loop of `Pearson::new` gives a power of two, and `PearsonNP::new` takes one (`length_H`).
However often the table is shuffled after that, `hash` reads no element outside of it, also on the
path for 256 entries, which has no modulus (`InBounds`). Only its last modulus can fail: with the
empty dictionary, for which `new` makes an object of size 0 (`inBounds_iff`). -/

namespace PerfectHash.Pearson

variable {α : Type} {size : Nat} {H : List Nat} {key : Bytes} {d i : Nat}

/-- Calls of `shuffle`, one after the other. -/
def shuffles (draws : List (Nat → Nat)) (H : List Nat) : List Nat :=
  draws.foldl (fun H draw => shuffle draw H) H

/-- The indices that `hash` reads from `d` on. -/
def indices (H : List Nat) : Nat → Bytes → List Nat
  | _, [] => []
  | d, c :: key => index H d c :: indices H (H.getD (index H d c) 0) key

/-- The path of `hash` that reduces every index by `% $hsize`. -/
def slowWalk (H : List Nat) (d : Nat) (key : Bytes) : Nat :=
  key.foldl (fun d c => H.getD ((d ^^^ c.toNat) % H.length) 0) d

/-- What `hash` relies on, for a table `H` and a size. -/
structure InBounds (size : Nat) (H : List Nat) : Prop where
  perm : H.Perm (List.range H.length)
  length : ∃ bits ≥ 8, H.length = 2 ^ bits
  indices_lt : ∀ key, ∀ i ∈ indices H 0 key, i < H.length
  fast : ∀ key : Bytes, key.foldlM (step H) 0 = .ok (slowWalk H 0 key)
  hash_lt : ∀ key, ∃ h, hash (object size H) key = .ok h ∧ h < size

/-! ## The size of the table -/

/-- The sizing loop stops at a power of two, and not before it has reached the size. -/
theorem exists_roundUp (size turns i : Nat) : ∃ bits ≥ i, roundUp size turns i = 2 ^ bits ∧
    (size ≤ 2 ^ (i + turns) → size ≤ 2 ^ bits) := by
  induction turns generalizing i with
  | zero => exact ⟨i, Nat.le_refl i, rfl, id⟩
  | succ turns ih =>
    unfold roundUp
    split
    · obtain ⟨bits, hbits, heq, hle⟩ := ih (i + 1)
      exact ⟨bits, by omega, heq, fun h => hle (by rwa [Nat.add_right_comm])⟩
    · exact ⟨i, Nat.le_refl i, rfl, fun _ => by omega⟩

/-- The table of `Pearson::new` is at least as large as the dictionary. -/
theorem le_roundUp (size : Nat) : size ≤ roundUp size size 8 := by
  obtain ⟨bits, -, heq, hle⟩ := exists_roundUp size size 8
  rw [heq]
  refine hle (Nat.le_of_lt (Nat.lt_two_pow_self.trans_le ?_))
  exact Nat.pow_le_pow_right (by decide) (Nat.le_add_left _ _)

/-- The tables of the two classes. -/
theorem length_H {variant : Variant} [Scalar α] {dict : Dict α} {draws : Nat → Nat → Nat}
    {inTime : Nat → Bool} {args : List String} {ph : Pearson α} (hvariant : variant ≠ .pearson8)
    (hnew : variant.new draws inTime dict args = .ok (some ph)) :
    (∃ keys values, dictInit dict = .ok (keys, values) ∧ ph.size = keys.length) ∧
      ∃ bits ≥ 8, ph.H.Perm (List.range (2 ^ bits)) := by
  cases variant with
  | pearson =>
    obtain ⟨ph', hbuild, hph⟩ := map_eq_ok hnew
    cases hph
    obtain ⟨keys, values, hinit, hsize, hperm, -⟩ := build_ok hbuild
    obtain ⟨bits, hbits, heq, -⟩ := exists_roundUp keys.length keys.length 8
    exact ⟨⟨keys, values, hinit, hsize⟩, bits, hbits, heq ▸ hperm⟩
  | pearsonNP =>
    obtain ⟨ph', hbuild, hph⟩ := map_eq_ok hnew
    cases hph
    obtain ⟨keys, values, hinit, hsize, hperm, -⟩ := build_ok hbuild
    exact ⟨⟨keys, values, hinit, hsize⟩, 8, Nat.le_refl 8, hperm⟩
  | pearson8 => exact absurd rfl hvariant

/-! ## A run of shuffles -/

theorem shuffles_perm (draws : List (Nat → Nat)) (H : List Nat) : (shuffles draws H).Perm H := by
  induction draws generalizing H with
  | nil => exact .refl H
  | cons draw draws ih => exact (ih _).trans (shuffle_perm draw H)

/-! ## The reads of `hash` -/

theorem lt_of_mem_indices (ht : Table .pearson H) (hd : d < H.length) (key : Bytes) :
    ∀ i ∈ indices H d key, i < H.length := by
  induction key generalizing d with
  | nil => exact nofun
  | cons c key ih =>
    intro i hi
    rcases List.mem_cons.mp hi with rfl | hi
    · exact index_lt ht hd c
    · exact ih (getElem?_index ht hd c).2 i hi

/-- Where the table has 256 entries, the modulus would change nothing. -/
theorem walk_eq_slowWalk (ht : Table .pearson H) (hd : d < H.length) (key : Bytes) :
    walk H d key = slowWalk H d key := by
  induction key generalizing d with
  | nil => rfl
  | cons c key ih =>
    have hindex : index H d c = (d ^^^ c.toNat) % H.length := by
      have hlt := index_lt ht hd c
      unfold index at hlt ⊢
      split
      · rename_i h256
        rw [if_pos h256] at hlt
        exact (Nat.mod_eq_of_lt hlt).symm
      · rfl
    rw [walk_cons, ih (getElem?_index ht hd c).2, hindex]
    rfl

/-- A permutation of the numbers below a power of two is a table for every size but 0. -/
theorem InBounds.of_perm {bits : Nat} (hbits : 8 ≤ bits) (hH : H.Perm (List.range (2 ^ bits)))
    (hsize : 0 < size) : InBounds size H := by
  have hlength := length_of_perm_range hH
  have hpos : 0 < H.length := hlength ▸ Nat.two_pow_pos bits
  have ht : Table .pearson H := table_of_perm hH (Nat.two_pow_pos bits) (absurd rfl)
  exact {
    perm := hlength ▸ hH
    length := ⟨bits, hbits, hlength⟩
    indices_lt := lt_of_mem_indices ht hpos
    fast := fun key => by rw [foldlM_step ht.ne_nil, walk_eq_slowWalk ht hpos]
    hash_lt := fun key => ⟨_, hash_object ht.ne_nil hsize key, slot_lt hsize key⟩ }

/-- With size 0 `hash` dies. -/
theorem InBounds.size_pos (h : InBounds size H) : 0 < size := by
  obtain ⟨h, -, hlt⟩ := h.hash_lt []
  omega

/-- The table that `new` starts with and the one of the object it returns stay in bounds under all
shuffles exactly if the dictionary has a key. -/
theorem inBounds_iff [Scalar α] {variant : Variant} {dict : Dict α} {draws : Nat → Nat → Nat}
    {inTime : Nat → Bool} {args : List String} {ph : Pearson α} (hvariant : variant ≠ .pearson8)
    (hnew : variant.new draws inTime dict args = .ok (some ph)) :
    (∀ more, InBounds ph.size (shuffles more (List.range ph.H.length)) ∧
      InBounds ph.size (shuffles more ph.H)) ↔ dict.given ≠ [] := by
  obtain ⟨⟨keys, values, hinit, hsize⟩, bits, hbits, hH⟩ := length_H hvariant hnew
  obtain ⟨own, hperm, rfl⟩ := dictInit_perm hinit
  have hpos : 0 < ph.size ↔ dict.given ≠ [] := by
    rw [hsize, List.length_pos_iff, Ne, pad_eq_nil, ← List.length_eq_zero_iff, hperm.length_eq,
      List.length_eq_zero_iff]
  rw [← hpos]
  constructor
  · exact fun h => (h []).1.size_pos
  · intro hsize more
    have hlength := length_of_perm_range hH
    refine ⟨.of_perm hbits ?_ hsize, .of_perm hbits ((shuffles_perm more _).trans hH) hsize⟩
    rw [hlength]
    exact shuffles_perm more _

theorem inBounds_iff_cab : ∃ ph,
    Variant.pearson.new (α := Int) (fun _ _ => 0) (fun _ => true) (.array cab) [] =
        .ok (some ph) ∧
      ∀ more, InBounds ph.size (shuffles more (List.range ph.H.length)) ∧
        InBounds ph.size (shuffles more ph.H) := by
  obtain ⟨ph, hph⟩ := build_returns (α := Int) (fun size => size - 1) (fun _ _ => 0)
    (fun _ => true) [] (show dictInit (.array cab) = .ok (cab, []) from rfl) (by decide)
    fun size => roundUp_pos size size 8
  have hnew : Variant.pearson.new (fun _ _ => 0) (fun _ => true) (.array cab) [] =
      .ok (some ph) := by
    rw [Variant.new, Pearson.new, hph]
    rfl
  have hvariant : Variant.pearson ≠ .pearson8 := by rintro ⟨⟩
  exact ⟨ph, hnew, (inBounds_iff hvariant hnew).mpr (by decide)⟩

/-- The empty dictionary gives an object of size 0. -/
theorem not_inBounds_empty : ∃ ph,
    Variant.pearson.new (α := Int) (fun _ _ => 0) (fun _ => true) (.array []) [] =
        .ok (some ph) ∧
      ¬ ∀ more, InBounds ph.size (shuffles more (List.range ph.H.length)) ∧
        InBounds ph.size (shuffles more ph.H) := by
  refine ⟨_, rfl, fun h => ?_⟩
  exact Nat.lt_irrefl 0 (h []).1.size_pos

end PerfectHash.Pearson
