import PerfectHash.Pearson.Stored

/-! # The C types of lengths and counts

`u_csize` chooses a type by a number of elements, and `save_c` also calls it with a maximum: the
longest key for `Ks` and the longest collision list for `Cs`. A maximum of exactly `2 ^ 8`,
`2 ^ 16` or `2 ^ 32` does not fit the type that it gets (`counts_fit_iff`). -/

namespace PerfectHash

open CValues C

/-! ## The key lengths -/

namespace HanovPP

variable {α : Type} [Scalar α] {ph : HanovPP α} {keys : List Bytes}

theorem foldl_max_eq (l : List Nat) (a : Nat) :
    l.foldl (fun m i => if i > m then i else m) a = max a (l.foldr max 0) := by
  induction l generalizing a with
  | nil => exact (Nat.max_zero a).symm
  | cons n l ih =>
    rw [List.foldl_cons, ih, List.foldr_cons, ← Nat.max_assoc]
    congr 1
    split <;> omega

theorem fits_Ks_iff (hkeys : ph.keys = some keys) (hfp : ¬ ph.options.has "-false-positives") :
    (∀ t, (saveC ph).keys = some t → ∀ l ∈ t.Ks.flatten, t.kstype.Fits l) ↔
      Storable ((keys.map List.length).foldr max 0) := by
  rw [← forall_uCsize_fits_iff, saveC, if_neg hfp, hkeys, Option.getD_some]
  simp only [Option.some.injEq, forall_eq', flatten_saveCArray, foldl_max_eq, Nat.zero_max]

end HanovPP

/-! ## The collision counts -/

namespace Pearson

variable {variant : Variant} {ph : Pearson Int} {keys : List Bytes} {values : List (Option Int)}
  {options : Options} {C : List (Option (Colliding Int))}

/-- How many of the keys each slot has. -/
def slotCounts (size : Nat) (H : List Nat) (keys : List Bytes) : List Nat :=
  (List.range size).map fun h => (keys.map (slot size H)).count h

/-- `Cs` counts the keys of the slots. -/
theorem Built.map_count (hb : Built variant keys values options ph) (hC : ph.C = some C) :
    C.map count = slotCounts ph.size ph.H keys := by
  have hsome : ph.C.isSome := by rw [hC]; rfl
  apply List.ext_getElem?
  intro h
  rw [slotCounts, List.getElem?_map, List.getElem?_map]
  rcases Nat.lt_or_ge h ph.size with hh | hh
  · rw [hb.getElem?_C hC hh, List.getElem?_range hh, Option.map_some, Option.map_some,
      hb.list_eq hsome hh, count_gather, length_inSlot]
  · have hlength : C.length = ph.size := by
      rw [hb.C_eq hC, List.length_map, Buckets.length_distribute]
    rw [List.getElem?_eq_none (by omega), List.getElem?_eq_none (by rwa [List.length_range])]
    rfl

/-- With a list of pairs, `$maxcoll` is the largest count. -/
theorem maxcoll_eq (hany : C.any (count · > 1)) : maxcoll C = (C.map count).foldr max 0 := by
  obtain ⟨coll, hcoll, hcount⟩ := List.any_eq_true.mp hany
  have hmax := count_le_maxcoll hcoll (of_decide_eq_true hcount)
  apply Nat.le_antisymm
  · exact maxcoll_le fun c hc =>
      List.le_max_of_le (List.mem_map_of_mem (f := count) hc) (Nat.le_refl _)
  · refine List.max_le_of_forall_le _ _ fun n hn => ?_
    obtain ⟨c, hc, rfl⟩ := List.mem_map.mp hn
    rcases Nat.lt_or_ge 1 (count c) with h1 | h1
    · exact count_le_maxcoll hc h1
    · have := of_decide_eq_true hcount
      omega

/-- Where all keys have a slot of their own no count is printed, and none is larger than 1. -/
theorem slotCounts_le_one (h : (keys.map (slot ph.size ph.H)).Nodup) :
    (slotCounts ph.size ph.H keys).foldr max 0 ≤ 1 := by
  refine List.max_le_of_forall_le _ _ fun n hn => ?_
  obtain ⟨i, -, rfl⟩ := List.mem_map.mp hn
  exact List.nodup_iff_count_le_one.mp h i

theorem Built.fits_Cs_iff (hb : Built variant keys values options ph) :
    (∀ a, (saveC variant ph).collisions = some a → ∀ n ∈ a.Cs, a.ctype.Fits n) ↔
      Storable ((slotCounts ph.size ph.H keys).foldr max 0) := by
  cases hC : ph.C with
  | none =>
    have hnd : (keys.map (slot ph.size ph.H)).Nodup := by
      rw [← not_not (a := List.Nodup _), ← hb.shared, hC]
      decide
    have hle := slotCounts_le_one hnd
    have hcollisions : (saveC variant ph).collisions = none := by
      change (if (ph.C.getD []).any (count · > 1) then _ else none) = none
      rw [hC]
      rfl
    rw [hcollisions, Storable]
    exact iff_of_true nofun (by omega)
  | some C =>
    rw [saveC_collisions hb hC, ← forall_uCsize_fits_iff, ← hb.map_count hC,
      ← maxcoll_eq (hb.any hC)]
    simp only [Option.some.injEq, forall_eq']

/-- When the lengths of `HanovPP` and the counts of the Pearson hashes fit their types. -/
theorem counts_fit_iff (args : List String) :
    (∀ (α : Type) [Scalar α] (hash : Bytes → Nat → Nat) (turns : Nat) (dict : Dict α)
      (ph : HanovPP α) (keys : List Bytes) (values : List (Option α)),
      HanovPP.new hash turns dict args = .ok ph → dictInit dict = .ok (keys, values) →
      (handleOpts args).has "-false-positives" = false →
      ((∀ t, (HanovPP.saveC ph).keys = some t → ∀ l ∈ t.Ks.flatten, t.kstype.Fits l) ↔
        Storable ((keys.map List.length).foldr max 0))) ∧
    ∀ (variant : Variant) (draws : Nat → Nat → Nat) (inTime : Nat → Bool) (dict : Dict Int)
      (ph : Pearson Int) (keys : List Bytes) (values : List (Option Int)),
      variant ≠ .pearson8 → variant.new draws inTime dict args = .ok (some ph) →
      dictInit dict = .ok (keys, values) →
      ((∀ a, (saveC variant ph).collisions = some a → ∀ n ∈ a.Cs, a.ctype.Fits n) ↔
        Storable ((slotCounts ph.size ph.H keys).foldr max 0)) := by
  constructor
  · intro α _ hash turns dict ph keys values hnew hinit hfp
    obtain ⟨keys', values', hinit', -, hkeys, hoptions⟩ := HanovPP.new_ok hnew
    obtain ⟨rfl, rfl⟩ := Prod.mk.inj (Except.ok.inj (hinit.symm.trans hinit'))
    rw [hfp, if_neg (by decide)] at hkeys
    exact HanovPP.fits_Ks_iff hkeys (by rw [hoptions, hfp]; decide)
  · intro variant draws inTime dict ph keys values hvariant hnew hinit
    exact (built_of_new hvariant hnew hinit).fits_Cs_iff

theorem counts_fit_iff_three :
    (∃ ph : HanovPP Int, HanovPP.new HanovPP.fnv 20 (.array [[97], [98], [99, 99]]) [] = .ok ph ∧
      ∀ t, (HanovPP.saveC ph).keys = some t → ∀ l ∈ t.Ks.flatten, t.kstype.Fits l) ∧
    Variant.pearson.new (fun _ _ => 0) (fun _ => true) (.array [[97], [100], [98]]) [] =
        .ok (some (three (withMaxTime []))) ∧
      ∀ a, (saveC .pearson (three (withMaxTime []))).collisions = some a →
        ∀ n ∈ a.Cs, a.ctype.Fits n := by
  obtain ⟨ph, hph⟩ := exists_ok_of_isOk (show (HanovPP.new (α := Int) HanovPP.fnv 20
    (.array [[97], [98], [99, 99]]) []).isOk by decide +kernel)
  have hnew := new_three (fun _ => true) []
  obtain ⟨hhanov, hpearson⟩ := counts_fit_iff []
  refine ⟨⟨ph, hph, ?_⟩, hnew, ?_⟩
  · exact (hhanov Int _ _ _ ph _ _ hph rfl (by decide)).mpr (by decide)
  · exact (hpearson .pearson _ _ _ _ _ _ nofun hnew rfl).mpr (by decide +kernel)

/-- A key of 256 bytes: its length is stored as 0, and the generated lookup does not find it. -/
theorem not_counts_fit : ∃ ph : HanovPP Int,
    HanovPP.new HanovPP.fnv 0 (.array [List.replicate 256 97]) [] = .ok ph ∧
      (∃ t, (HanovPP.saveC ph).keys = some t ∧ 256 ∈ t.Ks.flatten ∧ ¬ t.kstype.Fits 256) ∧
      HanovPP.perfecthash HanovPP.fnv ph (List.replicate 256 97) = .ok (some 0) ∧
      (HanovPP.saveC ph).lookup (List.replicate 256 97 ++ [0]) 0 = some (-1) := by
  have heval : (HanovPP.new (α := Int) HanovPP.fnv 0 (.array [List.replicate 256 97])
      []).toOption.map (fun ph => decide (
        (∃ t ∈ (HanovPP.saveC ph).keys, 256 ∈ t.Ks.flatten ∧ ¬ t.kstype.Fits 256) ∧
        HanovPP.perfecthash HanovPP.fnv ph (List.replicate 256 97) = .ok (some 0) ∧
        (HanovPP.saveC ph).lookup (List.replicate 256 97 ++ [0]) 0 = some (-1))) =
      some true := by decide +kernel
  exact exists_ok_and heval

end Pearson
end PerfectHash
