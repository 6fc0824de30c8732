import Mathlib.Data.List.Perm.Subperm

/-! # Linked lists in a table

`next` has the index of the entry behind each entry, and `nil` behind the last one. -/

namespace NextTable

variable {next is : List Nat} {nil i j k : Nat}

/-- The indices of the linked list that starts at an index. -/
inductive Chain (next : List Nat) (nil : Nat) : Nat → List Nat → Prop
  | nil : Chain next nil nil []
  | cons {i j : Nat} {is : List Nat} (hne : i ≠ nil) (hnext : next[i]? = some j)
      (his : Chain next nil j is) : Chain next nil i (i :: is)

/-- An entry that is not in the list changes. -/
theorem Chain.set (h : Chain next nil i is) (hk : k ∉ is) (x : Nat) :
    Chain (next.set k x) nil i is := by
  induction h with
  | nil => exact .nil
  | cons hne hnext _ ih =>
    obtain ⟨hki, hk⟩ := not_or.mp (mt List.mem_cons.mpr hk)
    exact .cons hne (by rwa [List.getElem?_set_ne hki]) (ih hk)

/-- A new entry in front of the list. -/
theorem Chain.push (h : Chain next nil i is) (hk : k ∉ is) (hlt : k < next.length) (hne : k ≠ nil) :
    Chain (next.set k i) nil k (k :: is) :=
  .cons hne (List.getElem?_set_self hlt) (h.set hk i)

/-- The entry behind another one is taken out. -/
theorem Chain.unlink {as bs : List Nat} {p x : Nat} (h : Chain next nil i (as ++ p :: k :: bs))
    (hnodup : (as ++ p :: k :: bs).Nodup) (hk : next[k]? = some x) :
    Chain (next.set p x) nil i (as ++ p :: bs) := by
  induction as generalizing i with
  | nil =>
    cases h with
    | cons hne hnext htail =>
      cases htail with
      | cons hne' hnext' htail' =>
        obtain rfl := Option.some.inj (hk.symm.trans hnext')
        have hp : p ∉ bs := fun hmem =>
          (List.nodup_cons.mp hnodup).1 (List.mem_cons_of_mem k hmem)
        exact .cons hne (List.getElem?_set_self (List.getElem?_eq_some_iff.mp hnext).1)
          (htail'.set hp x)
  | cons a as ih =>
    cases h with
    | cons hne hnext htail =>
      obtain ⟨hnew, hnodup⟩ := List.nodup_cons.mp hnodup
      refine .cons hne ?_ (ih htail hnodup)
      rwa [List.getElem?_set_ne]
      rintro rfl
      exact hnew (List.mem_append_right as List.mem_cons_self)

theorem Chain.lt (h : Chain next nil i is) : ∀ j ∈ is, j < next.length := by
  induction h with
  | nil => exact fun j hj => absurd hj List.not_mem_nil
  | cons _ hnext _ ih =>
    exact List.forall_mem_cons.mpr ⟨(List.getElem?_eq_some_iff.mp hnext).1, ih⟩

theorem Chain.length_le (h : Chain next nil i is) (hnodup : is.Nodup) :
    is.length ≤ next.length := by
  have hsub := hnodup.subperm fun j hj => List.mem_range.mpr (h.lt j hj)
  have hle := hsub.length_le
  rwa [List.length_range] at hle

end NextTable
