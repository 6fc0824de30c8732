import Mathlib.Data.List.Basic
import Mathlib.Data.List.Nodup
import Mathlib.Algebra.Order.Ring.Nat

/-! # Rank and select in bit strings

`rank l i` is the number of ones in front of position `i`, and `select l j` is the position of the
one number `j`. The unary code of an ascending list of numbers has a one for each of them, with as
many zeros in front of it as the number says (`select_unary`). -/

namespace RankSelect

variable {a b l : List Bool} {i j k m p : Nat} {ks : List Nat}

/-- The number of ones. -/
def ones (l : List Bool) : Nat := l.count true

/-- The number of ones in front of a position. -/
def rank (l : List Bool) (i : Nat) : Nat := ones (l.take i)

/-- The position of the one number `j`, counted from 0. -/
def select : List Bool → Nat → Option Nat
  | [], _ => none
  | true :: _, 0 => some 0
  | true :: l, j + 1 => (select l j).map (· + 1)
  | false :: l, j => (select l j).map (· + 1)

@[simp] theorem ones_nil : ones [] = 0 := rfl

@[simp] theorem ones_cons_true (l : List Bool) : ones (true :: l) = ones l + 1 :=
  List.count_cons_self

@[simp] theorem ones_cons_false (l : List Bool) : ones (false :: l) = ones l :=
  List.count_cons_of_ne (by decide)

@[simp] theorem ones_append (a b : List Bool) : ones (a ++ b) = ones a + ones b :=
  List.count_append

@[simp] theorem ones_replicate_false (n : Nat) : ones (List.replicate n false) = 0 := by
  rw [ones, List.count_replicate]
  rfl

theorem ones_le_length (l : List Bool) : ones l ≤ l.length := List.count_le_length

theorem rank_le (l : List Bool) (i : Nat) : rank l i ≤ ones l :=
  (List.take_sublist i l).count_le true

theorem rank_succ (l : List Bool) (i : Nat) :
    rank l (i + 1) = rank l i + if l[i]? = some true then 1 else 0 := by
  rw [rank, List.take_add_one, ones_append]
  cases h : l[i]? with
  | none => rfl
  | some c => cases c <;> rfl

/-! ## Select -/

theorem select_cons_false (l : List Bool) (j : Nat) :
    select (false :: l) j = (select l j).map (· + 1) := by
  cases j <;> rfl

/-- There is a one number `j` exactly if there are more than `j` ones. -/
theorem select_isSome_iff : (select l j).isSome ↔ j < ones l := by
  induction l generalizing j with
  | nil => simp [select]
  | cons c l ih =>
    cases c with
    | false => rw [select_cons_false, Option.isSome_map, ih, ones_cons_false]
    | true =>
      cases j with
      | zero => simp [select]
      | succ j => rw [select, Option.isSome_map, ih, ones_cons_true, Nat.succ_lt_succ_iff]

theorem select_append (a b : List Bool) (j : Nat) :
    select (a ++ b) j =
      if j < ones a then select a j else (select b (j - ones a)).map (· + a.length) := by
  induction a generalizing j with
  | nil => simp
  | cons c a ih =>
    cases c with
    | false =>
      rw [List.cons_append, select_cons_false, select_cons_false, ih, ones_cons_false]
      split
      · rfl
      · rw [Option.map_map]
        rfl
    | true =>
      cases j with
      | zero => rw [List.cons_append, ones_cons_true, if_pos (Nat.succ_pos _)]; rfl
      | succ j =>
        rw [List.cons_append, select, ih, ones_cons_true, Nat.add_sub_add_right]
        simp only [Nat.add_lt_add_iff_right]
        split
        · rfl
        · rw [Option.map_map]
          rfl

/-- The one number `j` is the one with `j` ones in front of it. -/
theorem select_eq_some_iff : select l j = some p ↔ l[p]? = some true ∧ rank l p = j := by
  induction l generalizing j p with
  | nil => simp [select]
  | cons c l ih =>
    cases p with
    | zero =>
      cases c with
      | false => simp [select_cons_false]
      | true => cases j <;> simp [select, rank]
    | succ p =>
      rw [List.getElem?_cons_succ, rank, List.take_succ_cons]
      cases c with
      | false =>
        rw [select_cons_false, Option.map_eq_some_iff, ones_cons_false, ← rank, ← ih]
        simp
      | true =>
        rw [ones_cons_true, ← rank]
        cases j with
        | zero => simp [select]
        | succ j =>
          rw [select, Option.map_eq_some_iff, Nat.succ_inj, ← ih]
          simp

/-- Select in what is left behind a position that does not come after the one. -/
theorem select_drop (h : select l j = some p) (hi : rank l i ≤ j) :
    i ≤ p ∧ select (l.drop i) (j - rank l i) = some (p - i) := by
  have happend := select_append (l.take i) (l.drop i) j
  rw [List.take_append_drop, ← rank, if_neg (Nat.not_lt.mpr hi), h] at happend
  obtain ⟨p', hp', rfl⟩ := Option.map_eq_some_iff.mp happend.symm
  have hlt : i < l.length := by
    by_contra hge
    rw [List.drop_eq_nil_of_le (Nat.le_of_not_lt hge)] at hp'
    cases hp'
  rw [List.length_take, Nat.min_eq_left (Nat.le_of_lt hlt), Nat.add_sub_cancel]
  exact ⟨Nat.le_add_left _ _, hp'⟩

theorem select_append_left (h : select a j = some p) (b : List Bool) :
    select (a ++ b) j = some p := by
  rw [select_append, if_pos (select_isSome_iff.mp (Option.isSome_of_mem h)), h]

/-- The ranks of all ones are the numbers below their number. -/
theorem map_rank_perm {ps : List Nat} (hnodup : ps.Nodup)
    (hps : ∀ p : Nat, l[p]? = some true ↔ p ∈ ps) :
    (ps.map (rank l)).Perm (List.range (ones l)) := by
  have hinj : ∀ p ∈ ps, ∀ q ∈ ps, rank l p = rank l q → p = q := by
    intro p hp q hq heq
    have hp := select_eq_some_iff.mpr ⟨(hps p).mpr hp, heq⟩
    have hq := select_eq_some_iff.mpr ⟨(hps q).mpr hq, rfl⟩
    exact Option.some.inj (hp.symm.trans hq)
  refine (List.perm_ext_iff_of_nodup (List.Nodup.map_on hinj hnodup) List.nodup_range).mpr fun j => ?_
  rw [List.mem_map, List.mem_range, ← select_isSome_iff, Option.isSome_iff_exists]
  refine exists_congr fun p => ?_
  rw [select_eq_some_iff, hps]

theorem rank_of_select (h : select l j = some p) : rank l p = j := (select_eq_some_iff.mp h).2

theorem rank_add (l : List Bool) (i k : Nat) : rank l (i + k) = rank l i + rank (l.drop i) k := by
  rw [rank, List.take_add, ones_append]
  rfl

theorem rank_le_self (l : List Bool) (i : Nat) : rank l i ≤ i :=
  (ones_le_length _).trans (List.length_take_le _ _)

theorem lt_of_select (h : select l j = some p) : p < l.length :=
  (List.getElem?_eq_some_iff.mp (select_eq_some_iff.mp h).1).1

/-! ## The unary code -/

/-- The unary code of an ascending list of numbers, from the number `i` on. -/
def unary (i : Nat) : List Nat → List Bool
  | [] => []
  | k :: ks => List.replicate (k - i) false ++ true :: unary k ks

@[simp] theorem ones_unary (i : Nat) (ks : List Nat) : ones (unary i ks) = ks.length := by
  induction ks generalizing i with
  | nil => rfl
  | cons k ks ih => simp [unary, ih]

/-- The one number `j` of the code has the number `j` of the list, and `j` ones, in front of it. -/
theorem select_unary (hks : (i :: ks).Pairwise (· ≤ ·)) (hj : ks[j]? = some k) (rest : List Bool) :
    select (unary i ks ++ rest) j = some (k - i + j) := by
  induction ks generalizing i j with
  | nil => cases hj
  | cons k' ks ih =>
    obtain ⟨hi, hks⟩ := List.pairwise_cons.mp hks
    have hle := hi k' List.mem_cons_self
    rw [unary, List.append_assoc, select_append, ones_replicate_false, if_neg (Nat.not_lt_zero j),
      Nat.sub_zero, List.length_replicate, List.cons_append]
    cases j with
    | zero =>
      cases hj
      simp [select]
    | succ j =>
      have hk := (List.pairwise_cons.mp hks).1 k (List.mem_of_getElem? hj)
      rw [select, ih hks hj, Option.map_some, Option.map_some]
      congr 1
      omega

theorem length_unary (hks : (i :: ks).Pairwise (· ≤ ·)) (hm : ∀ k ∈ i :: ks, k ≤ m) :
    (unary i ks).length ≤ m - i + ks.length := by
  induction ks generalizing i with
  | nil => simp [unary]
  | cons k ks ih =>
    obtain ⟨hi, hks⟩ := List.pairwise_cons.mp hks
    have hle := hi k List.mem_cons_self
    obtain ⟨-, hm⟩ := List.forall_mem_cons.mp hm
    have hk := hm k List.mem_cons_self
    have := ih hks hm
    rw [unary, List.length_append, List.length_replicate, List.length_cons, List.length_cons]
    omega

/-- The ones of a unary code, and zeros behind it. -/
theorem getElem?_unary_iff (hks : (0 :: ks).Pairwise (· ≤ ·)) (z : Nat) :
    (unary 0 ks ++ List.replicate z false)[p]? = some true ↔
      ∃ j k, ks[j]? = some k ∧ p = k + j := by
  constructor
  · intro h
    have hsel := select_eq_some_iff.mpr ⟨h, rfl⟩
    have hlt := select_isSome_iff.mp (Option.isSome_of_mem hsel)
    rw [ones_append, ones_unary, ones_replicate_false, Nat.add_zero] at hlt
    have hk := List.getElem?_eq_getElem hlt
    rw [select_unary hks hk] at hsel
    exact ⟨_, _, hk, (Option.some.inj hsel).symm⟩
  · rintro ⟨j, k, hk, rfl⟩
    exact (select_eq_some_iff.mp (select_unary hks hk _)).1

/-! ## Ranks in an ascending list -/

/-- The entries that satisfy a property are the first ones of the list when it holds of an entry
only if it holds of all entries before it. -/
theorem lt_countP_iff {α : Type*} {l : List α} {P : α → Bool} {x : α}
    (hl : l.Pairwise fun x y => P y → P x) (hx : l[i]? = some x) : i < l.countP P ↔ P x := by
  induction l generalizing i with
  | nil => cases hx
  | cons y l ih =>
    obtain ⟨hy, hl⟩ := List.pairwise_cons.mp hl
    by_cases hP : P y
    · rw [List.countP_cons_of_pos hP]
      cases i with
      | zero =>
        cases hx
        exact iff_of_true (Nat.succ_pos _) hP
      | succ i => rw [← ih hl hx, Nat.succ_lt_succ_iff]
    · have hnone : l.countP P = 0 := List.countP_eq_zero.mpr fun z hz h => hP (hy z hz h)
      rw [List.countP_cons_of_neg hP, hnone]
      refine iff_of_false (Nat.not_lt_zero _) fun h => ?_
      cases i with
      | zero =>
        cases hx
        exact hP h
      | succ i => exact hP (hy x (List.mem_of_getElem? hx) h)

end RankSelect
