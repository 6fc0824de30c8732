import Mathlib.Data.List.Perm.Subperm
import Mathlib.Data.List.Range
import Mathlib.Data.List.Nodup
import Mathlib.Data.Option.Basic

/-! # Tables of slots

A table is a list of slots, each empty (`none`) or holding a value. The library counts the empty
slots, writes a group of values into distinct empty slots at once (`fill`), and derives from a
table that holds the numbers `0 .. n-1` at given slots that it is a permutation of them. -/

namespace SlotTable

variable {α : Type*} {V : List (Option α)} {ps : List (Nat × Option α)} {i j : Nat}

/-- The value in slot `i`; a position outside the table counts as empty. -/
def get (V : List (Option α)) (i : Nat) : Option α := V[i]?.join

theorem getElem?_eq_get (h : i < V.length) : V[i]? = some (get V i) := by
  rw [get, List.getElem?_eq_getElem h]
  rfl

theorem getElem?_of_get {v : α} (h : get V i = some v) : V[i]? = some (some v) :=
  Option.join_eq_some_iff.mp h

theorem mem_of_get {v : α} (h : get V i = some v) : some v ∈ V :=
  List.mem_of_getElem? (getElem?_of_get h)

/-- The number of empty slots. -/
def free (V : List (Option α)) : Nat := V.countP Option.isNone

/-- The empty slots in ascending order. -/
def freelist (V : List (Option α)) : List Nat :=
  (List.range V.length).filter fun i => (get V i).isNone

/-- Write every pair of `ps` into its slot. -/
def fill (V : List (Option α)) (ps : List (Nat × Option α)) : List (Option α) :=
  ps.foldl (fun V p => V.set p.1 p.2) V

@[simp] theorem fill_nil (V : List (Option α)) : fill V [] = V := rfl

@[simp] theorem fill_cons (V : List (Option α)) (p ps) :
    fill V (p :: ps) = fill (V.set p.1 p.2) ps := rfl

@[simp] theorem length_fill (V : List (Option α)) (ps) : (fill V ps).length = V.length := by
  induction ps generalizing V with
  | nil => rfl
  | cons p ps ih => rw [fill_cons, ih, List.length_set]

theorem forall_mem_fill {P : Option α → Prop} (hV : ∀ v ∈ V, P v) (hps : ∀ p ∈ ps, P p.2) :
    ∀ v ∈ fill V ps, P v := by
  induction ps generalizing V with
  | nil => exact hV
  | cons p ps ih =>
    obtain ⟨hp, hps⟩ := List.forall_mem_cons.mp hps
    refine ih (fun v hv => ?_) hps
    rcases List.mem_or_eq_of_mem_set hv with hv | rfl
    · exact hV v hv
    · exact hp

theorem get_set_self {v : Option α} (h : i < V.length) : get (V.set i v) i = v := by
  simp [get, h]

theorem get_set_ne {v : Option α} (h : i ≠ j) : get (V.set i v) j = get V j := by
  simp [get, List.getElem?_set_ne h]

theorem get_replicate (n i : Nat) : get (List.replicate n (none : Option α)) i = none := by
  unfold get
  rw [List.getElem?_replicate]
  split <;> rfl

theorem get_fill_of_notMem (h : j ∉ ps.map Prod.fst) :
    get (fill V ps) j = get V j := by
  induction ps generalizing V with
  | nil => rfl
  | cons p ps ih =>
    simp only [List.map_cons, List.mem_cons, not_or] at h
    rw [fill_cons, ih h.2, get_set_ne (Ne.symm h.1)]

theorem get_fill_of_mem {p : Nat × Option α} (hnd : (ps.map Prod.fst).Nodup)
    (hlt : ∀ p ∈ ps, p.1 < V.length) (hp : p ∈ ps) : get (fill V ps) p.1 = p.2 := by
  induction ps generalizing V with
  | nil => simp at hp
  | cons q ps ih =>
    obtain ⟨hq, hnd⟩ := List.nodup_cons.mp hnd
    rw [fill_cons]
    rcases List.mem_cons.mp hp with rfl | hp
    · rw [get_fill_of_notMem hq, get_set_self (hlt _ List.mem_cons_self)]
    · refine ih hnd (fun p hp => ?_) hp
      rw [List.length_set]
      exact hlt p (List.mem_cons_of_mem _ hp)

/-- A filled slot that no write of `ps` is aimed at stays filled with its value. -/
theorem get_fill_of_some {v : α} (hempty : ∀ p ∈ ps, get V p.1 = none)
    (h : get V j = some v) : get (fill V ps) j = some v := by
  rw [get_fill_of_notMem, h]
  intro hj
  obtain ⟨p, hp, rfl⟩ := List.mem_map.mp hj
  rw [hempty p hp] at h
  contradiction

/-! ## Counting empty slots -/

@[simp] theorem free_replicate (n : Nat) : free (List.replicate n (none : Option α)) = n := by
  simp [free, List.countP_replicate]

private theorem free_set (v : Option α) (h : i < V.length) (hi : get V i = none) :
    free (V.set i v) + (if v.isSome then 1 else 0) = free V := by
  have hVi : V[i] = none := by simpa [get, h] using hi
  have hpos : 0 < V.countP Option.isNone :=
    List.countP_pos_iff.mpr ⟨none, hVi ▸ List.getElem_mem h, rfl⟩
  unfold free
  rw [List.countP_set h, hVi]
  cases v <;> simp <;> omega

/-- Filling distinct empty slots uses up one empty slot for each value that is there. -/
theorem free_fill (hnd : (ps.map Prod.fst).Nodup)
    (hlt : ∀ p ∈ ps, p.1 < V.length) (hempty : ∀ p ∈ ps, get V p.1 = none) :
    free (fill V ps) + ps.countP (fun p => p.2.isSome) = free V := by
  induction ps generalizing V with
  | nil => simp
  | cons p ps ih =>
    obtain ⟨hp, hnd⟩ := List.nodup_cons.mp hnd
    have hset := free_set p.2 (hlt p List.mem_cons_self) (hempty p List.mem_cons_self)
    have hne : ∀ q ∈ ps, p.1 ≠ q.1 := fun q hq e => hp (e ▸ List.mem_map_of_mem hq)
    have := ih (V := V.set p.1 p.2) hnd
      (fun q hq => by rw [List.length_set]; exact hlt q (List.mem_cons_of_mem _ hq))
      (fun q hq => by rw [get_set_ne (hne q hq)]; exact hempty q (List.mem_cons_of_mem _ hq))
    rw [fill_cons, List.countP_cons]
    omega

theorem free_le_free_fill (hnd : (ps.map Prod.fst).Nodup)
    (hlt : ∀ p ∈ ps, p.1 < V.length) (hempty : ∀ p ∈ ps, get V p.1 = none) :
    free V ≤ free (fill V ps) + ps.length := by
  have := free_fill hnd hlt hempty
  have := ps.countP_le_length (p := fun p => p.2.isSome)
  omega

/-! ## The list of empty slots -/

theorem mem_freelist : i ∈ freelist V ↔ i < V.length ∧ get V i = none := by
  simp [freelist]

theorem nodup_freelist (V : List (Option α)) : (freelist V).Nodup := List.nodup_range.filter _

theorem length_freelist (V : List (Option α)) : (freelist V).length = free V := by
  have hmap : (List.range V.length).map (get V) = V := by
    apply List.ext_getElem (by simp)
    intro i h1 h2
    simp [get, h2]
  unfold freelist free
  rw [← List.countP_eq_length_filter]
  conv_rhs => rw [← hmap, List.countP_map]
  rfl

theorem get_ne_none_of_free_eq_zero (h : free V = 0) (hi : i < V.length) :
    get V i ≠ none := by
  intro hn
  have hmem : i ∈ freelist V := mem_freelist.mpr ⟨hi, hn⟩
  rw [List.length_eq_zero_iff.mp ((length_freelist V).trans h)] at hmem
  simp at hmem

/-! ## Tables of the numbers below their length -/

/-- A table of `n` slots that holds every number below `n` is a permutation of them. -/
theorem perm_range_of_forall_mem {f : Nat → α} (hf : f.Injective)
    (h : ∀ i < V.length, some (f i) ∈ V) :
    V.Perm ((List.range V.length).map (some ∘ f)) := by
  have hnd : ((List.range V.length).map (some ∘ f)).Nodup :=
    List.nodup_range.map ((Option.some_injective _).comp hf)
  have hsub : (List.range V.length).map (some ∘ f) ⊆ V := by
    intro x hx
    obtain ⟨i, hi, rfl⟩ := List.mem_map.mp hx
    exact h i (List.mem_range.mp hi)
  exact ((hnd.subperm hsub).perm_of_length_le (by simp)).symm

end SlotTable
