import Mathlib.Data.Finset.Card
import Mathlib.Order.Bounds.Defs
import Mathlib.Algebra.Order.BigOperators.Group.Finset

/-! # Hitting sets

A set hits a family of sets when it meets every one of them. A family resists `n` elements when no
`n` elements hit it, so that one of its sets is disjoint from them whichever they are. That is so
when the sets are many and no element lies in many of them (`resists_of_card_lt`). -/

namespace HittingSets

open Finset

variable {α δ : Type*} {F : Set (Finset α)} {X S : Finset α} {n : Nat}

/-- No `n` elements of `X` hit the family. -/
def Resists (F : Set (Finset α)) (X : Finset α) (n : Nat) : Prop :=
  ∀ S ⊆ X, #S ≤ n → ∃ A ∈ F, Disjoint A S

theorem resists_zero_iff : Resists F X 0 ↔ F.Nonempty := by
  constructor
  · intro h
    obtain ⟨A, hA, -⟩ := h ∅ (Finset.empty_subset X) (Nat.le_refl 0)
    exact ⟨A, hA⟩
  · rintro ⟨A, hA⟩ S - hcard
    obtain rfl : S = ∅ := card_eq_zero.mp (Nat.le_zero.mp hcard)
    exact ⟨A, hA, disjoint_empty_right A⟩

/-- Each element lies in at most `c` of the sets, so `n` elements meet at most `n * c` of them. -/
theorem resists_of_card_lt [DecidableEq α] {D : Finset δ} {A : δ → Finset α}
    (hA : ∀ d ∈ D, A d ∈ F) (hc : ∀ x ∈ X, #{d ∈ D | x ∈ A d} ≤ c) (h : n * c < #D) :
    Resists F X n := by
  classical
  intro S hS hcard
  have hle : #(S.biUnion fun x => {d ∈ D | x ∈ A d}) < #D :=
    calc #(S.biUnion fun x => {d ∈ D | x ∈ A d})
      _ ≤ #S * c := card_biUnion_le_card_mul _ _ _ fun x hx => hc x (hS hx)
      _ ≤ n * c := Nat.mul_le_mul_right c hcard
      _ < #D := h
  obtain ⟨d, hd, hout⟩ := exists_mem_notMem_of_card_lt_card hle
  refine ⟨A d, hA d hd, disjoint_left.mpr fun x hx hxS => hout ?_⟩
  exact mem_biUnion.mpr ⟨x, hxS, mem_filter.mpr ⟨hd, hx⟩⟩

end HittingSets
