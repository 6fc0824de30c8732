import PerfectHash.HanovPP.GivenBytes
import PerfectHash.Pearson.Stored

/-! # Lookups with a length in the generated code of the Pearson hashes

With `-nul` a key of a collision list is compared with one byte more than was given. The generated
lookup returns a value that depends on the given bytes only in a slot without such a list, where the
check of the key stays in its tables (`lookup_given_iff`). -/

namespace PerfectHash.Pearson

open CValues C
open HanovPP (at? at?_natCast)

variable {variant : Variant} {ph : Pearson Int} {c : CFile} {w s k : Bytes} {j l : Int}
  {P : List (Bytes × Option Int)} {keys : List Bytes} {values : List (Option Int)}
  {options : Options}

/-! ## The check of the key -/

theorem checkLen_nul (hnul : c.nul) (hw : w.length < 2 ^ 31) :
    c.checkLen w.length k = some w.length := by
  rw [CFile.checkLen, if_pos hnul, unsignedLong_conv_natCast (by omega), Int.toNat_natCast]

/-- The check of a key that is a literal. -/
theorem check_strings_nul (hkeys : c.keys = some (.strings keys)) (hnul : c.nul)
    (hw : w.length < 2 ^ 31) (hne : w ≠ []) (rest : Bytes) :
    c.check (w ++ rest) w.length j = (at? keys j).bind fun k =>
      if w.length ≤ k.length + 1 then some (if w <+: k ++ [0] then j else -1) else none := by
  have hl : ¬ (w.length : Int) = 0 := by
    have := List.length_pos_iff.mpr hne
    omega
  rw [check_strings_eq hkeys, if_neg hl]
  congr 1
  funext k
  rw [checkLen_nul hnul hw, Option.bind_some, memcmpEq_comm, memcmpEq_prefix, List.length_append,
    List.length_singleton]
  split
  · rw [Option.bind_some]
    by_cases hp : w <+: k ++ [0] <;> simp [hp]
  · rfl

theorem check_nil (rest : Bytes) : c.check ([] ++ rest) ([] : Bytes).length j =
    some (if c.keys.isSome then -1 else j) := by
  cases hkeys : c.keys with
  | none => rw [CFile.check, hkeys]; rfl
  | some t =>
    cases t with
    | strings keys => rw [check_strings_eq hkeys]; rfl
    | pool contents offsets => rw [check_pool_eq hkeys]; rfl

/-- The check of the key reads the given bytes. -/
theorem check_congr (hnul : c.nul) (hw : w.length < 2 ^ 31) (rest rest' : Bytes) :
    c.check (w ++ rest) w.length j = c.check (w ++ rest') w.length j := by
  cases w with
  | nil => rw [check_nil, check_nil]
  | cons b w =>
    cases hkeys : c.keys with
    | none => rw [CFile.check, CFile.check, hkeys]
    | some t =>
      cases t with
      | strings keys =>
        rw [check_strings_nul hkeys hnul hw (List.cons_ne_nil b w),
          check_strings_nul hkeys hnul hw (List.cons_ne_nil b w)]
      | pool contents offsets => rw [check_pool hkeys hw, check_pool hkeys hw]

/-- The check of the key with number `j` stays in the tables, the key and the given bytes. -/
def CheckEnds (options : Options) (keys : List Bytes) (w : Bytes) (j : Int) : Prop :=
  options.has "-false-positives" ∨ w = [] ∨
    if options.has "-pic" then
      ∃ o, at? ((List.range keys.length).map (poolOffset keys)) j = some o ∧
        (int.conv o < 0 ∨
          ∃ a, (poolContents keys)[(int.conv o).toNat]? = some a ∧
            (w.head? ≠ some a ∨
              w.length ≤ ((poolContents keys).drop (int.conv o).toNat).length))
    else ∃ k, at? keys j = some k ∧ w.length ≤ k.length + 1

theorem exists_eq_some_iff {α : Type} {a : α} {p : α → Prop} :
    (∃ b, some a = some b ∧ p b) ↔ p a := by
  simp only [Option.some.injEq, exists_eq_left']

theorem not_exists_none_eq {α : Type} {p : α → Prop} : ¬ ∃ b, none = some b ∧ p b := by
  rintro ⟨b, h, -⟩
  contradiction

theorem bind_ne_none_iff {o : Option UInt8} {b : UInt8} {P : Prop} [Decidable P] {x : Int} :
    (o.bind fun a => if a ≠ b then some (-1) else if P then some x else none) ≠ none ↔
      ∃ a, o = some a ∧ (some b ≠ some a ∨ P) := by
  cases o with
  | none => simp
  | some a =>
    rw [Option.bind_some]
    by_cases hab : a = b
    · subst hab
      by_cases hP : P <;> simp [hP]
    · simp [hab, Ne.symm hab]

theorem check_ne_none_iff (hb : Built variant keys values options ph) (hnul : options.has "-nul")
    (hw : w.length < 2 ^ 31) (j : Int) (rest : Bytes) :
    (saveC variant ph).check (w ++ rest) w.length j ≠ none ↔ CheckEnds options keys w j := by
  have hkeys := saveC_keys hb
  have hcnul := hb.nul_eq.trans hnul
  unfold CheckEnds
  cases w with
  | nil =>
    rw [check_nil]
    exact iff_of_true (Option.some_ne_none _) (.inr (.inl rfl))
  | cons b w =>
    split at hkeys
    · rw [CFile.check, hkeys]
      exact iff_of_true (Option.some_ne_none _) (.inl ‹_›)
    · rw [or_iff_right ‹_›, or_iff_right (by simp)]
      split at hkeys
      · rename_i hpic
        rw [if_pos hpic, check_pool hkeys hw]
        cases at? ((List.range keys.length).map (poolOffset keys)) j with
        | none => exact iff_of_false (not_not.mpr rfl) not_exists_none_eq
        | some o =>
          rw [Option.bind_some, exists_eq_some_iff]
          split
          · exact iff_of_true (Option.some_ne_none _) (.inl ‹_›)
          · rw [or_iff_right ‹_›, List.getElem?_drop, Nat.add_zero]
            exact bind_ne_none_iff
      · rename_i hpic
        rw [if_neg hpic, check_strings_nul hkeys hcnul hw (List.cons_ne_nil b w)]
        cases at? keys j with
        | none => exact iff_of_false (not_not.mpr rfl) not_exists_none_eq
        | some k =>
          rw [Option.bind_some, exists_eq_some_iff]
          split
          · exact iff_of_true (Option.some_ne_none _) ‹_›
          · exact iff_of_false (not_not.mpr rfl) ‹_›

/-! ## The loop over a list -/

/-- Without a next byte no key can be compared. -/
theorem same_exact (hnul : c.nul) : c.same w w.length k = none := by
  rw [CFile.same, CFile.sameLen, if_pos hnul]
  by_cases hw : w.length + 1 < 2 ^ 31
  · rw [arith_succ hw, Option.map_some, unsignedLong_conv_natCast (by omega), Int.toNat_natCast,
      Option.bind_eq_bind, Option.bind_some, memcmpEq, if_neg (by omega)]
  · rw [arith_overflow hw]
    rfl

theorem scanPairs_cons_eq_none {p : Bytes × Option Int} (hsame : c.same s l p.1 = none) :
    c.scanPairs s l (p :: P) = none := by
  rw [CFile.scanPairs, List.length_cons, scan_succ, List.map_cons, List.getElem?_cons_zero,
    Option.bind_some, hsame, Option.bind_none]

/-! ## The lookup -/

/-- Without keys the generated code divides by zero. -/
theorem run_of_size_eq_zero (ht : Table variant ph.H) (hsize : ph.size = 0) :
    (saveC variant ph).run s l = none := by
  have hslot : (saveC variant ph).slot s l = none := by
    have hne : (saveC variant ph).hsize ≠ (saveC variant ph).size := by
      change ph.H.length ≠ ph.size
      rw [hsize]
      exact (List.length_pos_iff.mpr ht.ne_nil).ne'
    unfold CFile.slot
    cases (saveC variant ph).hash s l with
    | none => rfl
    | some h =>
      rw [Option.bind_eq_bind, Option.bind_some, if_pos hne]
      exact if_pos hsize
  rw [CFile.run, hslot]
  rfl

section
variable (hb : Built variant keys values options ph) (hnul : options.has "-nul")
  (hlt : keys.length < 2 ^ 63)
include hb hnul hlt

/-- In a slot without a list that is compared, the lookup goes on to the check. -/
theorem Built.run_of_scanned (hsize : 0 < ph.size)
    (hL : scanned ph (slot ph.size ph.H w) = []) (rest : Bytes) :
    (saveC variant ph).run (w ++ rest) w.length = (next ph (slot ph.size ph.H w)).bind
      ((saveC variant ph).check (w ++ rest) w.length) := by
  rw [hb.run_nul hnul hlt hsize, hL, scanPairs_nil, Option.bind_some]

/-- In a slot with a list, the lookup does not end on the given bytes alone. -/
theorem Built.run_exact (hsize : 0 < ph.size) (hL : scanned ph (slot ph.size ph.H w) ≠ []) :
    (saveC variant ph).run w w.length = none := by
  have hcnul := hb.nul_eq.trans hnul
  have hrun := hb.run_nul hnul hlt hsize (s := w) []
  rw [List.append_nil] at hrun
  obtain ⟨p, L, hL⟩ := List.exists_cons_of_ne_nil hL
  rw [hrun, hL, scanPairs_cons_eq_none (same_exact hcnul), Option.bind_none]

/-- The lookup returns a value that depends on the given bytes only in a slot without a list that is
compared, if the check with which it goes on ends. -/
theorem Built.givenOnly_iff (hw : w.length < 2 ^ 31) :
    GivenOnly (saveC variant ph).lookup w ↔
      keys ≠ [] ∧ scanned ph (slot ph.size ph.H w) = [] ∧
        ∃ j, next ph (slot ph.size ph.H w) = some j ∧ CheckEnds options keys w j := by
  have hcnul := hb.nul_eq.trans hnul
  have hlookup (rest : Bytes) : (saveC variant ph).lookup (w ++ rest) w.length =
      (saveC variant ph).run (w ++ rest) w.length := by
    rw [CFile.lookup, if_pos hcnul, int_conv_natCast hw]
  have hpos : keys ≠ [] ↔ 0 < ph.size := by rw [hb.size, List.length_pos_iff]
  simp only [GivenOnly, hlookup, hpos]
  constructor
  · rintro ⟨x, h⟩
    have h := h []
    have hsize : 0 < ph.size := by
      by_contra hzero
      rw [run_of_size_eq_zero hb.table (by omega)] at h
      cases h
    have hL : scanned ph (slot ph.size ph.H w) = [] := by
      by_contra hL
      rw [List.append_nil, hb.run_exact hnul hlt hsize hL] at h
      cases h
    rw [hb.run_of_scanned hnul hlt hsize hL] at h
    obtain ⟨j, hj, hx⟩ := Option.bind_eq_some_iff.mp h
    refine ⟨hsize, hL, j, hj, (check_ne_none_iff hb hnul hw j []).mp ?_⟩
    rw [hx]
    exact Option.some_ne_none x
  · rintro ⟨hsize, hL, j, hj, hends⟩
    obtain ⟨x, hx⟩ := Option.ne_none_iff_exists'.mp
      ((check_ne_none_iff hb hnul hw j []).mpr hends)
    refine ⟨x, fun rest => ?_⟩
    rw [hb.run_of_scanned hnul hlt hsize hL, hj, Option.bind_some, check_congr hcnul hw rest [], hx]

end

/-- When the generated lookups with `-nul` return a value that depends on the given bytes only: of
any object of `HanovPP`, of one for an arrayref whose numbers fit their C types, and of the Pearson
hashes. -/
theorem lookup_given_iff {w : Bytes} (hw : w.length < 2 ^ 31) :
    (∀ (α : Type) [Scalar α] (ph : HanovPP α), ph.options.has "-nul" →
      (GivenOnly (HanovPP.saveC ph).lookup w ↔
        ∃ v, (HanovPP.saveC ph).entry w w.length = some v ∧
          ∀ t, (HanovPP.saveC ph).keys = some t → t.Ends v w)) ∧
    (∀ (turns : Nat) (keys : List Bytes) (args : List String) (ph : HanovPP Int),
      HanovPP.new HanovPP.fnv turns (.array keys) args = .ok ph → (handleOpts args).has "-nul" →
      (pad keys).length ≤ 2 ^ 31 → (HanovPP.saveC ph).Untruncated →
      (GivenOnly (HanovPP.saveC ph).lookup w ↔ keys ≠ [] ∧
        ¬ (w = [] ∧ (handleOpts args).has "-false-positives" = false ∧ [] ∈ pad keys))) ∧
    ∀ (variant : Variant) (draws : Nat → Nat → Nat) (inTime : Nat → Bool) (dict : Dict Int)
      (args : List String) (ph : Pearson Int) (keys : List Bytes) (values : List (Option Int)),
      variant ≠ .pearson8 → variant.new draws inTime dict args = .ok (some ph) →
      dictInit dict = .ok (keys, values) → keys.length < 2 ^ 63 → (handleOpts args).has "-nul" →
      (GivenOnly (saveC variant ph).lookup w ↔
        keys ≠ [] ∧ scanned ph (slot ph.size ph.H w) = [] ∧
          ∃ j, next ph (slot ph.size ph.H w) = some j ∧
            CheckEnds (withMaxTime (handleOpts args)) keys w j) := by
  refine ⟨fun α _ ph hnul => HanovPP.givenOnly_iff hnul hw, ?_, ?_⟩
  · intro turns keys args ph hnew hnul hsize hfit
    obtain ⟨-, -, -, -, -, hoptions⟩ := HanovPP.new_ok hnew
    have hphnul : ph.options.has "-nul" := hoptions ▸ hnul
    exact HanovPP.givenOnly_array_iff hnew hsize hfit hphnul hw
  · intro variant draws inTime dict args ph keys values hvariant hnew hinit hlt hnul
    refine (built_of_new hvariant hnew hinit).givenOnly_iff ?_ hlt hw
    rwa [withMaxTime_has _ (show "-nul" ≠ "-max-time" by decide)]

theorem lookup_given_iff_three :
    (∃ ph : HanovPP Int, HanovPP.new HanovPP.fnv 20 (.array [[], [98], [99, 99]]) ["-nul"] = .ok ph ∧
      GivenOnly (HanovPP.saveC ph).lookup [98]) ∧
    Variant.pearson.new (fun _ _ => 0) (fun _ => true) (.array [[97], [100], [98]]) ["-nul"] =
        .ok (some (three (withMaxTime (handleOpts ["-nul"])))) ∧
      GivenOnly (saveC .pearson (three (withMaxTime (handleOpts ["-nul"])))).lookup [98] := by
  have heval : (HanovPP.new (α := Int) HanovPP.fnv 20
      (.array [[], [98], [99, 99]]) ["-nul"]).toOption.map
      (fun ph => decide (HanovPP.saveC ph).Untruncated) = some true := by decide +kernel
  obtain ⟨ph, hph, hfit⟩ := exists_ok_and heval
  have hvariant : Variant.pearson ≠ .pearson8 := nofun
  have hnew := new_three (fun _ => true) ["-nul"]
  have hL : scanned (three (withMaxTime (handleOpts ["-nul"])))
      (slot (three (withMaxTime (handleOpts ["-nul"]))).size
        (three (withMaxTime (handleOpts ["-nul"]))).H [98]) = [] := by decide +kernel
  have hnext : next (three (withMaxTime (handleOpts ["-nul"])))
      (slot (three (withMaxTime (handleOpts ["-nul"]))).size
        (three (withMaxTime (handleOpts ["-nul"]))).H [98]) = some 2 := by decide +kernel
  obtain ⟨-, hhanov, hpearson⟩ := lookup_given_iff (w := [98]) (by decide)
  refine ⟨⟨ph, hph, ?_⟩, hnew, ?_⟩
  · exact (hhanov 20 _ ["-nul"] ph hph (by decide) (by decide) hfit).mpr
      ⟨by decide, fun h => by cases h.1⟩
  · have hends : CheckEnds (withMaxTime (handleOpts ["-nul"])) [[97], [100], [98]] [98] 2 :=
      .inr (.inr (by rw [if_neg (by decide)]; exact ⟨[98], rfl, by decide⟩))
    exact (hpearson .pearson _ _ _ _ _ _ _ hvariant hnew rfl (by decide) (by decide)).mpr
      ⟨by decide, hL, 2, hnext, hends⟩

/-- The byte behind the given ones decides. -/
theorem not_lookup_given :
    (∃ ph : HanovPP Int, HanovPP.new HanovPP.fnv 20 (.array [[]]) ["-nul"] = .ok ph ∧
      (HanovPP.saveC ph).lookup [0] 0 = some 0 ∧ (HanovPP.saveC ph).lookup [1] 0 = some (-1)) ∧
    Variant.pearson.new (fun _ _ => 0) (fun _ => true) (.array [[97], [100], [98]]) ["-nul"] =
        .ok (some (three (withMaxTime (handleOpts ["-nul"])))) ∧
      (saveC .pearson (three (withMaxTime (handleOpts ["-nul"])))).lookup [97, 0] 1 = some 0 ∧
      (saveC .pearson (three (withMaxTime (handleOpts ["-nul"])))).lookup [97, 1] 1 =
        some (-1) := by
  have heval : (HanovPP.new (α := Int) HanovPP.fnv 20 (.array [[]]) ["-nul"]).toOption.map
      (fun ph => decide ((HanovPP.saveC ph).lookup [0] 0 = some 0 ∧
        (HanovPP.saveC ph).lookup [1] 0 = some (-1))) = some true := by decide +kernel
  exact ⟨exists_ok_and heval, new_three _ _, by decide +kernel, by decide +kernel⟩

end PerfectHash.Pearson
