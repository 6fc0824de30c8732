import Mathlib.Data.List.Basic
import Mathlib.Data.List.Perm.Basic

/-! # Shuffling a list by swaps

`shuffle f l` swaps the elements at `i` and `i + f i`, for every position `i` in order. Offsets that
stay inside the list are enough for every permutation (`exists_shuffle_eq`). -/

namespace Swaps

/-- Swap the elements at two positions of the list. -/
def swap (l : List α) (i j : Nat) : List α :=
  match l[i]?, l[j]? with
  | some a, some b => (l.set i b).set j a
  | _, _ => l

/-- Swap the elements at `i` and `i + f i` for each of the positions. -/
def swaps (f : Nat → Nat) (positions : List Nat) (l : List α) : List α :=
  positions.foldl (fun l i => swap l i (i + f i)) l

/-- Swap each element of the list, in order, with the one that is `f i` further. -/
def shuffle (f : Nat → Nat) (l : List α) : List α := swaps f (List.range l.length) l

variable {l r p t : List α} {x : α} {i j k : Nat} {f g : Nat → Nat} {positions : List Nat}

/-! ## One swap -/

theorem swap_eq (hi : i < l.length) (hj : j < l.length) :
    swap l i j = (l.set i l[j]).set j l[i] := by
  rw [swap, List.getElem?_eq_getElem hi, List.getElem?_eq_getElem hj]

theorem swap_perm (l : List α) (i j : Nat) : (swap l i j).Perm l := by
  unfold swap
  split
  · rename_i a b ha hb
    obtain ⟨hi, rfl⟩ := List.getElem?_eq_some_iff.mp ha
    obtain ⟨hj, rfl⟩ := List.getElem?_eq_some_iff.mp hb
    exact List.set_set_perm hi hj
  · exact .refl l

@[simp] theorem length_swap (l : List α) (i j : Nat) : (swap l i j).length = l.length :=
  (swap_perm l i j).length_eq

theorem swap_cons_succ (x : α) (l : List α) (i j : Nat) :
    swap (x :: l) (i + 1) (j + 1) = x :: swap l i j := by
  simp only [swap, List.getElem?_cons_succ, List.set_cons_succ]
  split <;> rfl

/-- A swap inside a prefix of the list. -/
theorem swap_append (hi : i < l.length) (hj : j < l.length) (r : List α) :
    swap (l ++ r) i j = swap l i j ++ r := by
  have hlength : l.length ≤ (l ++ r).length := by rw [List.length_append]; omega
  rw [swap_eq (Nat.lt_of_lt_of_le hi hlength) (Nat.lt_of_lt_of_le hj hlength), swap_eq hi hj,
    List.getElem_append_left hi, List.getElem_append_left hj, List.set_append_left _ _ hi,
    List.set_append_left _ _ (by rwa [List.length_set])]

/-- Every element can be brought to the front. -/
theorem exists_swap_zero (hk : l[k]? = some x) : ∃ t, swap l 0 k = x :: t := by
  obtain ⟨hlt, rfl⟩ := List.getElem?_eq_some_iff.mp hk
  have hpos : 0 < l.length := Nat.zero_lt_of_lt hlt
  obtain ⟨a, l, rfl⟩ := List.exists_cons_of_length_pos hpos
  rw [swap_eq hpos hlt]
  cases k with
  | zero => exact ⟨_, rfl⟩
  | succ k => exact ⟨_, rfl⟩

/-! ## A sequence of swaps -/

theorem swaps_congr (h : ∀ i ∈ positions, f i = g i) : swaps f positions l = swaps g positions l :=
  List.foldl_ext _ _ _ fun _ i hi => by rw [h i hi]

@[simp] theorem length_swaps (f : Nat → Nat) (positions : List Nat) (l : List α) :
    (swaps f positions l).length = l.length := by
  induction positions generalizing l with
  | nil => rfl
  | cons i positions ih => exact (ih _).trans (length_swap ..)

theorem swaps_map_succ (f : Nat → Nat) (positions : List Nat) (x : α) (l : List α) :
    swaps f (positions.map Nat.succ) (x :: l) = x :: swaps (fun i => f (i + 1)) positions l := by
  induction positions generalizing l with
  | nil => rfl
  | cons i positions ih =>
    have hswap : swap (x :: l) (i + 1) (i + 1 + f (i + 1)) = x :: swap l i (i + f (i + 1)) := by
      rw [Nat.add_right_comm, swap_cons_succ]
    have hcons (l : List α) : swaps f ((i :: positions).map Nat.succ) l =
        swaps f (positions.map Nat.succ) (swap l (i + 1) (i + 1 + f (i + 1))) := rfl
    rw [hcons, hswap, ih]
    rfl

/-- The elements that swaps at the first position bring to the front, and the swaps of the rest. -/
theorem shuffle_cons (hswap : swap l 0 (f 0) = x :: t) :
    shuffle f l = x :: shuffle (fun i => f (i + 1)) t := by
  have hlength : l.length = t.length + 1 := by
    rw [← length_swap l 0 (f 0), hswap, List.length_cons]
  have hfirst : swaps f (0 :: (List.range t.length).map Nat.succ) l =
      swaps f ((List.range t.length).map Nat.succ) (swap l 0 (0 + f 0)) := rfl
  rw [shuffle, hlength, List.range_succ_eq_map, hfirst, Nat.zero_add, hswap, swaps_map_succ]
  rfl

/-- Every permutation is reached by swaps with the element itself or with a later one. -/
theorem exists_shuffle_eq (h : p.Perm l) :
    ∃ f, (∀ i < l.length, i + f i < l.length) ∧ shuffle f l = p := by
  induction p generalizing l with
  | nil =>
    obtain rfl := List.nil_perm.mp h
    exact ⟨fun _ => 0, nofun, rfl⟩
  | cons x p ih =>
    obtain ⟨k, hk⟩ := List.mem_iff_getElem?.mp (h.mem_iff.mp List.mem_cons_self)
    obtain ⟨t, ht⟩ := exists_swap_zero hk
    have hperm : p.Perm t := (List.perm_cons x).mp (h.trans (ht ▸ (swap_perm l 0 k).symm))
    obtain ⟨f, hf, hshuffle⟩ := ih hperm
    have hlength : l.length = t.length + 1 := by
      rw [← length_swap l 0 k, ht, List.length_cons]
    refine ⟨fun i => Nat.casesOn i k f, fun i hi => ?_, ?_⟩
    · cases i with
      | zero =>
        obtain ⟨hlt, -⟩ := List.getElem?_eq_some_iff.mp hk
        rwa [Nat.zero_add]
      | succ i =>
        have := hf i (by omega)
        change i + 1 + f i < l.length
        omega
    · rw [shuffle_cons ht, hshuffle]

end Swaps
