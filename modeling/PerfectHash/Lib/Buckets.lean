import Mathlib.Algebra.BigOperators.Group.List.Basic
import Mathlib.Algebra.Order.Ring.Nat
import Mathlib.Data.List.Range

/-! # Distributing a list over buckets

`distribute f n l` puts every element `x` of `l` at the end of bucket `f x`. Bucket `b` then holds
the elements that `f` sends to `b`, in their order, and the buckets together hold every element
once. -/

namespace Buckets

variable {α : Type*} {f : α → Nat} {n b : Nat} {l : List α}

/-- The `n` buckets of the elements of `l` under `f`. -/
def distribute (f : α → Nat) (n : Nat) (l : List α) : List (List α) :=
  l.foldl (fun buckets x => buckets.modify (f x) (· ++ [x])) (List.replicate n [])

private theorem length_foldl (l : List α) (acc : List (List α)) :
    (l.foldl (fun buckets x => buckets.modify (f x) (· ++ [x])) acc).length = acc.length := by
  induction l generalizing acc with
  | nil => rfl
  | cons x l ih => rw [List.foldl_cons, ih, List.length_modify]

@[simp] theorem length_distribute : (distribute f n l).length = n := by
  rw [distribute, length_foldl, List.length_replicate]

private theorem getElem?_foldl (l : List α) (acc : List (List α)) :
    (l.foldl (fun buckets x => buckets.modify (f x) (· ++ [x])) acc)[b]? =
      acc[b]?.map (· ++ l.filter (f · = b)) := by
  induction l generalizing acc with
  | nil => simp
  | cons x l ih =>
    rw [List.foldl_cons, ih, List.getElem?_modify]
    by_cases hx : f x = b <;> cases acc[b]? <;> simp [hx]

theorem getElem?_distribute (hb : b < n) :
    (distribute f n l)[b]? = some (l.filter (f · = b)) := by
  rw [distribute, getElem?_foldl, List.getElem?_replicate_of_lt hb]
  rfl

theorem getD_distribute (hb : b < n) : (distribute f n l).getD b [] = l.filter (f · = b) := by
  rw [List.getD_eq_getElem?_getD, getElem?_distribute hb]
  rfl

private theorem flatten_modify_perm {L : List (List α)} {i : Nat} (hi : i < L.length) (x : α) :
    (L.modify i (· ++ [x])).flatten.Perm (L.flatten ++ [x]) := by
  induction L generalizing i with
  | nil => exact absurd hi (Nat.not_lt_zero i)
  | cons bucket L ih =>
    cases i with
    | zero =>
      rw [List.modify_zero_cons, List.flatten_cons, List.flatten_cons, List.append_assoc,
        List.append_assoc]
      exact List.perm_append_comm.append_left bucket
    | succ i =>
      rw [List.modify_succ_cons, List.flatten_cons, List.flatten_cons, List.append_assoc]
      exact (ih (Nat.lt_of_succ_lt_succ hi)).append_left bucket

/-- The buckets together hold every element once. -/
theorem flatten_distribute_perm (h : ∀ x ∈ l, f x < n) : (distribute f n l).flatten.Perm l := by
  induction l using List.reverseRecOn with
  | nil => simp [distribute]
  | append_singleton l x ih =>
    obtain ⟨hl, hx⟩ := List.forall_mem_append.mp h
    have hlast : f x < (distribute f n l).length := by
      rw [length_distribute]
      exact hx x (List.mem_singleton_self x)
    rw [distribute, List.foldl_append]
    exact (flatten_modify_perm hlast x).trans ((ih hl).append_right [x])

private theorem sum_indicator (c n : Nat) :
    ((List.range n).map fun b => if c = b then 1 else 0).sum = if c < n then 1 else 0 := by
  induction n with
  | zero => rfl
  | succ n ih =>
    rw [List.range_succ, List.map_append, List.sum_append, ih]
    simp only [List.map_cons, List.map_nil, List.sum_cons, List.sum_nil]
    split <;> split <;> split <;> omega

/-- The sizes of the buckets add up to the length of the list. -/
theorem sum_length_filter (h : ∀ x ∈ l, f x < n) :
    ((List.range n).map fun b => (l.filter (f · = b)).length).sum = l.length := by
  induction l with
  | nil => simp
  | cons x l ih =>
    have hcons : ∀ b, ((x :: l).filter (f · = b)).length =
        (l.filter (f · = b)).length + if f x = b then 1 else 0 := by
      intro b
      by_cases hx : f x = b <;> simp [hx]
    simp only [hcons, List.sum_map_add, ih fun y hy => h y (List.mem_cons_of_mem _ hy),
      List.length_cons, sum_indicator, if_pos (h x List.mem_cons_self)]

end Buckets
