import PerfectHash.HanovPP
import Mathlib.Order.Bounds.Defs

/-! # The seed search

What the search for the seed of one bucket returns (`searchSeed_ok`), and when it returns
(`searchSeed_returns_iff`). A seed is good for a bucket when it sends the keys of the bucket to
distinct free slots; the search goes through the seeds `1, 2, ..` and stops at the first good
one. -/

namespace PerfectHash.HanovPP

section
variable (hash : Bytes → Nat → Nat) (size : Nat) (V : List (Option α)) (bucket : List Bytes)

/-- Seed `d` sends the keys of the bucket to distinct free slots. -/
structure GoodSeed (d : Nat) : Prop where
  nodup : (bucket.map fun k => hash k d % size).Nodup
  empty : ∀ k ∈ bucket, SlotTable.get V (hash k d % size) = none

/-- The first good seed of a bucket. -/
def FirstSeed (d : Nat) : Prop := IsLeast {d | 1 ≤ d ∧ GoodSeed hash size V bucket d} d

/-- The invariant of the search: no earlier seed is good, and `%slots` holds the slots of the first
`item` keys under seed `d`, which are distinct and free. -/
structure Search.Inv (s : Search) : Prop where
  item_le : s.item ≤ bucket.length
  one_le : 1 ≤ s.d
  least : ∀ d, 1 ≤ d → GoodSeed hash size V bucket d → s.d ≤ d
  slots : s.slots.map (fun p => (p.1, bucket.getD p.2 [])) =
    ((bucket.take s.item).map fun k => (hash k s.d % size, k)).reverse
  good : GoodSeed hash size V (bucket.take s.item) s.d

end

variable {hash : Bytes → Nat → Nat} {size : Nat} {V : List (Option α)} {bucket : List Bytes}

theorem GoodSeed.take (h : GoodSeed hash size V bucket d) (n : Nat) :
    GoodSeed hash size V (bucket.take n) d where
  nodup := by
    rw [List.map_take]
    exact h.nodup.sublist (List.take_sublist _ _)
  empty k hk := h.empty k (List.mem_of_mem_take hk)

theorem Search.Inv.start {d : Nat} (hd : 1 ≤ d)
    (hleast : ∀ d', 1 ≤ d' → GoodSeed hash size V bucket d' → d ≤ d') :
    Search.Inv hash size V bucket ⟨d, 0, []⟩ where
  item_le := Nat.zero_le _
  one_le := hd
  least := hleast
  slots := rfl
  good := ⟨List.nodup_nil, nofun⟩

theorem Search.Inv.first : Search.Inv hash size V bucket ⟨1, 0, []⟩ :=
  .start (Nat.le_refl 1) fun _ hd _ => hd

/-- The slots of `%slots` are the slots of the keys seen so far. -/
theorem Search.Inv.mem_slots {s : Search} (h : s.Inv hash size V bucket) :
    x ∈ s.slots.map Prod.fst ↔ x ∈ (bucket.take s.item).map fun k => hash k s.d % size := by
  have hs := congrArg (List.map Prod.fst) h.slots
  simp only [List.map_map, List.map_reverse, Function.comp_def] at hs
  rw [show s.slots.map Prod.fst = _ from hs, List.mem_reverse]

/-- Whether the next key's slot is accepted is whether the seed stays good with that key. -/
theorem Search.Inv.next_slot {s : Search} (h : s.Inv hash size V bucket)
    (hlt : s.item < bucket.length) :
    ((SlotTable.get V (hash (bucket.getD s.item []) s.d % size)).isSome ∨
      hash (bucket.getD s.item []) s.d % size ∈ s.slots.map Prod.fst) ↔
    ¬ GoodSeed hash size V (bucket.take (s.item + 1)) s.d := by
  have htake : bucket.take (s.item + 1) = bucket.take s.item ++ [bucket.getD s.item []] := by
    rw [List.take_succ_eq_append_getElem hlt, List.getD_eq_getElem _ _ hlt]
  rw [h.mem_slots, htake]
  constructor
  · rintro (hsome | hmem) hgood
    · rw [hgood.empty _ (by simp)] at hsome
      contradiction
    · have hnd := hgood.nodup
      rw [List.map_append, List.nodup_append] at hnd
      exact hnd.2.2 _ hmem _ (by simp) rfl
  · intro hbad
    by_contra hnot
    simp only [not_or, Bool.not_eq_true, Option.isSome_eq_false_iff, Option.isNone_iff_eq_none]
      at hnot
    refine hbad ⟨?_, ?_⟩
    · rw [List.map_append, List.nodup_append]
      refine ⟨h.good.nodup, by simp, ?_⟩
      rintro x hx y hy rfl
      simp only [List.map_cons, List.map_nil, List.mem_singleton] at hy
      exact hnot.2 (hy ▸ hx)
    · intro k hk
      rcases List.mem_append.mp hk with hk | hk
      · exact h.good.empty k hk
      · rw [List.mem_singleton.mp hk]
        exact hnot.1

/-- What one turn does: it accepts the next key, or the seed is not good and the next one
starts. -/
theorem Search.Inv.next_cases {s : Search} (h : s.Inv hash size V bucket)
    (hlt : s.item < bucket.length) :
    (s.next hash size V bucket).Inv hash size V bucket ∧
      ((s.next hash size V bucket).d = s.d ∧ (s.next hash size V bucket).item = s.item + 1 ∨
        ¬ GoodSeed hash size V bucket s.d ∧ (s.next hash size V bucket).d = s.d + 1 ∧
          (s.next hash size V bucket).item = 0) := by
  have hiff := h.next_slot hlt
  unfold Search.next
  by_cases hgood : GoodSeed hash size V (bucket.take (s.item + 1)) s.d
  · rw [if_neg (fun hbad => hiff.mp hbad hgood)]
    refine ⟨⟨hlt, h.one_le, h.least, ?_, hgood⟩, .inl ⟨rfl, rfl⟩⟩
    rw [List.map_cons, h.slots, List.take_succ_eq_append_getElem hlt, List.map_append,
      List.reverse_append, List.getD_eq_getElem _ _ hlt]
    rfl
  · rw [if_pos (hiff.mpr hgood)]
    have hbad : ¬ GoodSeed hash size V bucket s.d := fun hg => hgood (hg.take _)
    refine ⟨.start (Nat.le_add_left 1 s.d) fun d hd hg => ?_, .inr ⟨hbad, rfl, rfl⟩⟩
    have hle := h.least d hd hg
    have hne : s.d ≠ d := fun e => hbad (e ▸ hg)
    omega

/-- What holds when the search has seen all keys. -/
theorem Search.Inv.done {s : Search} (h : s.Inv hash size V bucket)
    (hge : ¬ s.item < bucket.length) :
    FirstSeed hash size V bucket s.d ∧
      s.slots.map (fun p => (p.1, bucket.getD p.2 [])) =
        (bucket.map fun k => (hash k s.d % size, k)).reverse := by
  have htake : bucket.take s.item = bucket := List.take_of_length_le (by omega)
  have hslots := h.slots
  have hgood := h.good
  rw [htake] at hslots hgood
  exact ⟨⟨⟨h.one_le, hgood⟩, fun d hd => h.least d hd.1 hd.2⟩, hslots⟩

/-- The result of a search that returns: the first good seed and the slots of all keys
under it. -/
theorem searchSeed_ok {s s' : Search} (hs : s.Inv hash size V bucket)
    (h : searchSeed hash size V bucket turns s = .ok s') :
    FirstSeed hash size V bucket s'.d ∧
      s'.slots.map (fun p => (p.1, bucket.getD p.2 [])) =
        (bucket.map fun k => (hash k s'.d % size, k)).reverse := by
  induction turns generalizing s with
  | zero =>
    unfold searchSeed at h
    split at h
    · cases h
    · cases h
      exact hs.done ‹_›
  | succ turns ih =>
    unfold searchSeed at h
    split at h
    · exact ih (hs.next_cases ‹_›).1 h
    · cases h
      exact hs.done ‹_›

/-! ## When the search returns -/

/-- A search that a good seed is still ahead of returns: every turn either accepts a key or moves
on to the next seed, and it cannot move past the good one. -/
private theorem searchSeed_returns {s : Search} (hs : s.Inv hash size V bucket)
    (hgood : GoodSeed hash size V bucket d) (hd : s.d ≤ d)
    (hturns : (d - s.d) * (bucket.length + 1) + (bucket.length - s.item) ≤ turns) :
    ∃ s', searchSeed hash size V bucket turns s = .ok s' := by
  induction turns generalizing s with
  | zero =>
    unfold searchSeed
    rw [if_neg (by omega)]
    exact ⟨s, rfl⟩
  | succ turns ih =>
    unfold searchSeed
    split
    · rename_i hlt
      obtain ⟨hinv, ⟨hd', hitem⟩ | ⟨hbad, hd', hitem⟩⟩ := hs.next_cases hlt
      · exact ih hinv (by omega) (by rw [hd', hitem]; omega)
      · have hne : s.d ≠ d := fun h => hbad (h ▸ hgood)
        obtain ⟨m, hm⟩ := Nat.exists_eq_add_of_lt (Nat.lt_of_le_of_ne hd hne)
        apply ih hinv (by omega)
        have h1 : d - s.d = m + 1 := by omega
        have h2 : d - (s.d + 1) = m := by omega
        rw [h1, Nat.succ_mul] at hturns
        rw [hd', hitem, h2]
        omega
    · exact ⟨s, rfl⟩

/-- More turns do not change a search that returned. -/
theorem searchSeed_mono {s : Search} (h : searchSeed hash size V bucket turns s = .ok s')
    (hle : turns ≤ turns') : searchSeed hash size V bucket turns' s = .ok s' := by
  induction turns generalizing s turns' with
  | zero =>
    unfold searchSeed at h ⊢
    split at h
    · cases h
    · rw [if_neg ‹_›, h]
  | succ turns ih =>
    obtain ⟨m, rfl⟩ := Nat.exists_eq_add_of_le hle
    rw [Nat.add_right_comm]
    unfold searchSeed at h ⊢
    split at h
    · rw [if_pos ‹_›]
      exact ih h (Nat.le_add_right _ _)
    · rw [if_neg ‹_›, h]

/-- The search for the seed of a bucket returns, for enough turns, exactly when the bucket has a
good seed. -/
theorem searchSeed_returns_iff :
    (∃ turns s, searchSeed hash size V bucket turns ⟨1, 0, []⟩ = .ok s) ↔
      ∃ d, 1 ≤ d ∧ GoodSeed hash size V bucket d := by
  constructor
  · rintro ⟨turns, s, h⟩
    exact ⟨s.d, (searchSeed_ok .first h).1.1⟩
  · rintro ⟨d, hd, hgood⟩
    obtain ⟨s, h⟩ := searchSeed_returns .first hgood hd (Nat.le_refl _)
    exact ⟨_, s, h⟩

end PerfectHash.HanovPP
