import Mathlib.Algebra.Order.Ring.Nat
import Mathlib.Data.List.Basic
import Mathlib.Data.List.Flatten

/-! # Codes that are stored one after the other

The codes of a list have different lengths, and `ends` says where each of them ends. -/

namespace Codes

variable {α β : Type*} {f : α → List β} {l : List α} {x : α} {i r start n e : Nat} {ns : List Nat}

/-- Where the codes of some lengths end when the first of them begins at `start`. -/
def ends (start : Nat) : List Nat → List Nat
  | [] => []
  | n :: ns => (start + n) :: ends (start + n) ns

@[simp] theorem length_ends (start : Nat) (ns : List Nat) : (ends start ns).length = ns.length := by
  induction ns generalizing start with
  | nil => rfl
  | cons n ns ih => rw [ends, List.length_cons, ih, List.length_cons]

theorem getElem?_ends (h : ns[i]? = some n) :
    (ends start ns)[i]? = some (start + (ns.take i).sum + n) := by
  induction ns generalizing start i with
  | nil => cases h
  | cons n' ns ih =>
    cases i with
    | zero =>
      cases h
      rfl
    | succ i =>
      rw [ends, List.getElem?_cons_succ, ih h, List.take_succ_cons, List.sum_cons]
      congr 2
      omega

theorem pairwise_ends (start : Nat) (ns : List Nat) :
    (start :: ends start ns).Pairwise (· ≤ ·) := by
  induction ns generalizing start with
  | nil => exact List.pairwise_singleton _ _
  | cons n ns ih =>
    have hns := ih (start + n)
    refine List.pairwise_cons.mpr ⟨fun e he => ?_, hns⟩
    rcases List.mem_cons.mp he with rfl | he
    · exact Nat.le_add_right _ _
    · exact Nat.le_trans (Nat.le_add_right _ _) ((List.pairwise_cons.mp hns).1 e he)

theorem le_of_mem_ends (he : e ∈ ends start ns) : e ≤ start + ns.sum := by
  induction ns generalizing start with
  | nil => cases he
  | cons n ns ih =>
    rw [List.sum_cons]
    rcases List.mem_cons.mp he with rfl | he
    · omega
    · have := ih he
      omega

/-- A code between the codes before it and the codes behind it. -/
theorem flatMap_of_getElem? (f : α → List β) (h : l[i]? = some x) :
    l.flatMap f = (l.take i).flatMap f ++ f x ++ (l.drop (i + 1)).flatMap f := by
  obtain ⟨hi, rfl⟩ := List.getElem?_eq_some_iff.mp h
  conv_lhs => rw [← List.take_append_drop i l, List.drop_eq_getElem_cons hi]
  rw [List.flatMap_append, List.flatMap_cons, List.append_assoc]

/-- Codes of one length. -/
theorem length_flatMap_of_length (h : ∀ x ∈ l, (f x).length = r) :
    (l.flatMap f).length = l.length * r := by
  induction l with
  | nil => rw [List.flatMap_nil, List.length_nil, List.length_nil, Nat.zero_mul]
  | cons x l ih =>
    obtain ⟨hx, hl⟩ := List.forall_mem_cons.mp h
    rw [List.flatMap_cons, List.length_append, hx, ih hl, List.length_cons, Nat.succ_mul,
      Nat.add_comm]

end Codes
