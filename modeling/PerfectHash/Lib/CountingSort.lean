import PerfectHash.Lib.Buckets
import Mathlib.Algebra.BigOperators.Group.Finset.Basic
import Mathlib.Algebra.BigOperators.Group.Finset.Piecewise
import Mathlib.Algebra.Order.BigOperators.Group.Finset

/-! # Groups of cells

The elements of a list are stored in a table of cells, those with the same key one after the other.
Group `b` starts where the groups in front of it end, and a counter of each group tells where it
starts and how many cells of it are filled. To store an element is to write the next cell of its group
and to increment the counter (`Filled.insert`). -/

open Finset (sum_range_succ)

namespace CountingSort

variable {α β γ : Type*} {mk : Nat → Nat → γ} {k : α → Nat} {g : α → β} {n b b' : Nat}
  {size : Nat → Nat} {done : List α} {x : α} {counters : List γ} {cells : List β}

/-- The elements with a key, as they are stored. -/
def group (k : α → Nat) (g : α → β) (xs : List α) (b : Nat) : List β := (xs.filter (k · = b)).map g

theorem group_concat_self : group k g (done ++ [x]) (k x) = group k g done (k x) ++ [g x] := by
  simp [group]

theorem group_concat_ne (h : b ≠ k x) : group k g (done ++ [x]) b = group k g done b := by
  simp [group, h.symm]

theorem mem_group {y : β} : y ∈ group k g done b ↔ ∃ x ∈ done, k x = b ∧ g x = y := by
  simp [group, and_assoc]

/-! ## Where the groups start -/

/-- The number of cells of the groups in front of a group. -/
def start (size : Nat → Nat) (b : Nat) : Nat := ∑ i ∈ Finset.range b, size i

theorem start_succ (size : Nat → Nat) (b : Nat) : start size (b + 1) = start size b + size b :=
  sum_range_succ size b

theorem start_succ' (size : Nat → Nat) (b : Nat) :
    start size (b + 1) = size 0 + start (fun b => size (b + 1)) b := by
  rw [start, Finset.sum_range_succ', Nat.add_comm]
  rfl

theorem start_mono (size : Nat → Nat) : Monotone (start size) :=
  monotone_nat_of_le_succ fun b => by rw [start_succ]; exact Nat.le_add_right _ _

/-- A group ends where the groups behind it start, or before. -/
theorem start_add_le (size : Nat → Nat) (h : b < b') : start size b + size b ≤ start size b' := by
  rw [← start_succ]
  exact start_mono size h

/-- The cells of all groups. -/
theorem start_length_filter {xs : List α} (h : ∀ x ∈ xs, k x < n) :
    start (fun b => (xs.filter (k · = b)).length) n = xs.length := by
  rw [← Buckets.sum_length_filter h]
  rfl

/-- The sum of the keys, group by group. -/
theorem start_mul_length_filter {xs : List α} (h : ∀ x ∈ xs, k x < n) :
    start (fun b => b * (xs.filter (k · = b)).length) n = (xs.map k).sum := by
  induction xs with
  | nil => simp [start]
  | cons x xs ih =>
    obtain ⟨hx, hxs⟩ := List.forall_mem_cons.mp h
    have hcons (b : Nat) : b * ((x :: xs).filter (k · = b)).length =
        b * (xs.filter (k · = b)).length + if k x = b then b else 0 := by
      by_cases hb : k x = b
      · simp [hb, Nat.mul_succ]
      · simp [hb]
    rw [List.map_cons, List.sum_cons, ← ih hxs, start, start, Nat.add_comm]
    simp only [hcons, Finset.sum_add_distrib]
    rw [Finset.sum_ite_eq, if_pos (Finset.mem_range.mpr hx)]

/-- The groups together hold every element once. -/
theorem flatMap_filter_perm {xs : List α} (h : ∀ x ∈ xs, k x < n) :
    ((List.range n).flatMap fun b => xs.filter (k · = b)).Perm xs := by
  refine .trans (.of_eq ?_) (Buckets.flatten_distribute_perm h)
  rw [List.flatMap_def]
  congr 1
  refine List.ext_getElem? fun b => ?_
  rw [List.getElem?_map]
  rcases Nat.lt_or_ge b n with hb | hb
  · rw [List.getElem?_range hb, Buckets.getElem?_distribute hb]
    rfl
  · rw [List.getElem?_eq_none (by rwa [List.length_range]),
      List.getElem?_eq_none (by rwa [Buckets.length_distribute])]
    rfl

/-! ## Storing an element -/

/-- The counters and the cells when some elements are stored. -/
structure Filled (mk : Nat → Nat → γ) (k : α → Nat) (g : α → β) (n : Nat) (size : Nat → Nat)
    (done : List α) (counters : List γ) (cells : List β) : Prop where
  length : counters.length = n
  counters : ∀ b < n, counters[b]? = some (mk (start size b) (group k g done b).length)
  cells : ∀ b j y, (group k g done b)[j]? = some y → cells[start size b + j]? = some y

theorem Filled.nil (hlen : counters.length = n)
    (hcounters : ∀ b < n, counters[b]? = some (mk (start size b) 0)) (cells : List β) :
    Filled mk k g n size [] counters cells := ⟨hlen, hcounters, nofun⟩

/-- The element is written to the next cell of its group. -/
theorem Filled.insert (h : Filled mk k g n size done counters cells) (hx : k x < n)
    (hsize : ∀ b < n, (group k g (done ++ [x]) b).length ≤ size b)
    (hcells : start size n ≤ cells.length) :
    start size (k x) + (group k g done (k x)).length < cells.length ∧
      Filled mk k g n size (done ++ [x])
        (counters.set (k x) (mk (start size (k x)) ((group k g done (k x)).length + 1)))
        (cells.set (start size (k x) + (group k g done (k x)).length) (g x)) := by
  have hroom := hsize (k x) hx
  rw [group_concat_self, List.length_append, List.length_singleton] at hroom
  have hlt : start size (k x) + (group k g done (k x)).length < cells.length := by
    have := start_add_le size hx
    omega
  refine ⟨hlt, by rw [List.length_set, h.length], fun b hb => ?_, fun b j y hy => ?_⟩
  · rw [List.getElem?_set, h.length]
    split_ifs with hbx
    · rw [← hbx, group_concat_self, List.length_append, List.length_singleton]
    · rw [h.counters b hb, group_concat_ne (Ne.symm hbx)]
  · rcases eq_or_ne b (k x) with rfl | hbx
    · rw [group_concat_self, List.getElem?_append] at hy
      split_ifs at hy with hj
      · rw [List.getElem?_set_ne (by omega), h.cells _ j y hy]
      · obtain ⟨hj', rfl⟩ := List.getElem?_eq_some_iff.mp hy
        rw [List.length_singleton] at hj'
        rw [List.getElem_singleton, show j = (group k g done (k x)).length by omega,
          List.getElem?_set_self hlt]
    · have hj := (List.getElem?_eq_some_iff.mp hy).1
      rw [group_concat_ne hbx] at hy hj
      refine (List.getElem?_set_ne ?_).trans (h.cells b j y hy)
      rcases Nat.lt_or_gt_of_ne hbx with hlt | hgt
      · have hle := hsize b (hlt.trans hx)
        rw [group_concat_ne hbx] at hle
        have := start_add_le size hlt
        omega
      · have := start_add_le size hgt
        omega

end CountingSort
