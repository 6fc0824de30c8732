import PerfectHash.Pearson.Stored

/-! # Absent strings in the generated code of the Pearson hashes

Without `-false-positives` the generated lookup checks a key at the end, but compares no more bytes
than the shorter one of the two strings has, or with `-pic` no more than the string has. So it does
not return -1 for all strings that are no keys (`absent_iff`). -/

namespace PerfectHash.Pearson

open CValues C
open HanovPP (at? at?_natCast)

variable {variant : Variant} {ph : Pearson Int} {c : CFile} {s k : Bytes} {h i : Nat} {j l : Int}
  {P : List (Bytes × Option Int)} {keys : List Bytes} {values : List (Option Int)}
  {options : Options}

/-! ## The comparisons of a string of any length -/

/-- `memcmp(ck[i], s, ..) == 0` for the key `k`, where the `int l` can hold less than the length. -/
def listCompare (s k : Bytes) : Option Bool :=
  memcmpEq (k ++ [0]) (s ++ [0]) (1 + min (unsignedLong.conv (int.conv s.length)).toNat k.length)

/-- The check of the key with number `j` finds a difference. -/
def Refused (options : Options) (keys : List Bytes) (s : Bytes) (j : Int) : Prop :=
  int.conv s.length = 0 ∨
    if options.has "-pic" then
      ∃ o, at? ((List.range keys.length).map (poolOffset keys)) j = some o ∧ 0 ≤ int.conv o ∧
        ∃ a st b t, (poolContents keys).drop (int.conv o).toNat = a :: st ∧ s ++ [0] = b :: t ∧
          (a ≠ b ∨ ∃ n, int.arith (int.conv s.length - 1) = some n ∧
            memcmpEq t st (unsignedLong.conv n).toNat = some false)
    else ∃ k, at? keys j = some k ∧ memcmpEq (k ++ [0]) (s ++ [0])
      (min (unsignedLong.conv (int.conv s.length)).toNat k.length) = some false

/-- Every key of a list is found different from the string and the key at which the lookup then
arrives is refused, or the value -1 is found in the list. -/
def Misses (ph : Pearson Int) (keys : List Bytes) (s : Bytes) : Prop :=
  ((∀ p ∈ scanned ph (slot ph.size ph.H s), listCompare s p.1 = some false) ∧
      (scanned ph (slot ph.size ph.H s)).length < 2 ^ 31 ∧
      ∃ j, next ph (slot ph.size ph.H s) = some j ∧ Refused ph.options keys s j) ∨
    ∃ A p B, scanned ph (slot ph.size ph.H s) = A ++ p :: B ∧ A.length < 2 ^ 31 ∧
      (∀ q ∈ A, listCompare s q.1 = some false) ∧ listCompare s p.1 = some true ∧
      int.conv (Scalar.number p.2) = -1

theorem same_eq_listCompare (hnul : c.nul = false) (hk : 0 ∉ k) :
    c.same (s ++ [0]) (int.conv s.length) k = listCompare s k := by
  have hsame : c.sameLen (int.conv s.length) k =
      some (1 + min (unsignedLong.conv (int.conv s.length)).toNat k.length) := by
    rw [CFile.sameLen, hnul, if_neg (by decide), minLen_of_notMem hk, Option.map_some]
  rw [CFile.same, hsame, Option.bind_eq_bind, Option.bind_some, listCompare]

theorem nonneg_of_at? {α : Type} {a : List α} {x : α} (h : at? a j = some x) : 0 ≤ j ∧ x ∈ a := by
  unfold at? at h
  split at h
  · exact ⟨‹_›, List.mem_of_getElem? h⟩
  · cases h

theorem isSome_keys (hb : Built variant keys values options ph)
    (hfp : options.has "-false-positives" = false) : (saveC variant ph).keys.isSome := by
  rw [saveC_keys hb, hfp, if_neg (by decide)]
  split <;> rfl

/-- The empty string is taken for no key. -/
theorem check_of_eq_zero (hkeys : c.keys.isSome) (hl : l = 0) : c.check s l j = some (-1) := by
  obtain ⟨t, ht⟩ := Option.isSome_iff_exists.mp hkeys
  cases t with
  | strings keys => rw [check_strings_eq ht, if_pos hl]
  | pool contents offsets => rw [check_pool_eq ht, if_pos hl]

theorem bind_eq_neg_one_iff {r : Option Bool} (hj : 0 ≤ j) :
    (r.bind fun b => if b then some j else some (-1)) = some (-1) ↔ r = some false := by
  have hne : some j ≠ some (-1) := fun h => by
    have := Option.some.inj h
    omega
  cases r with
  | none => simp
  | some b => cases b <;> simp [hne]

/-- The comparison with a string of the pool. -/
theorem bind_pool_eq_neg_one_iff {st t : Bytes} {n : Option Int} (hj : 0 ≤ j) :
    (st[0]?.bind fun a => t[0]?.bind fun b => if a ≠ b then some (-1)
        else n.bind fun n => (memcmpEq (t.drop 1) (st.drop 1) (unsignedLong.conv n).toNat).bind
          fun b => if b then some j else some (-1)) = some (-1) ↔
      ∃ a st' b t', st = a :: st' ∧ t = b :: t' ∧ (a ≠ b ∨ ∃ n', n = some n' ∧
        memcmpEq t' st' (unsignedLong.conv n').toNat = some false) := by
  cases st with
  | nil => simp
  | cons a st =>
    cases t with
    | nil => simp
    | cons b t =>
      simp only [List.getElem?_cons_zero, Option.bind_some, List.drop_succ_cons, List.drop_zero,
        List.cons.injEq]
      have hcheck : (if a ≠ b then some (-1) else n.bind fun n =>
            (memcmpEq t st (unsignedLong.conv n).toNat).bind fun b =>
              if b then some j else some (-1)) = some (-1) ↔
          (a ≠ b ∨ ∃ n', n = some n' ∧
            memcmpEq t st (unsignedLong.conv n').toNat = some false) := by
        split
        · exact iff_of_true rfl (.inl ‹_›)
        · rw [or_iff_right ‹_›, Option.bind_eq_some_iff]
          simp only [bind_eq_neg_one_iff hj]
      rw [hcheck]
      constructor
      · intro h
        exact ⟨a, st, b, t, ⟨rfl, rfl⟩, ⟨rfl, rfl⟩, h⟩
      · rintro ⟨a, st, b, t, ⟨rfl, rfl⟩, ⟨rfl, rfl⟩, h⟩
        exact h

theorem check_eq_neg_one_iff (hb : Built variant keys values options ph)
    (hfp : options.has "-false-positives" = false) (hnul : options.has "-nul" = false)
    (hfree : ∀ k ∈ keys, 0 ∉ k) :
    (saveC variant ph).check (s ++ [0]) (int.conv s.length) j = some (-1) ↔
      Refused options keys s j := by
  have hkeys := saveC_keys hb
  have hcnul := hb.nul_eq.trans hnul
  rw [hfp, if_neg (by decide)] at hkeys
  unfold Refused
  by_cases hl : int.conv s.length = 0
  · exact iff_of_true (check_of_eq_zero (isSome_keys hb hfp) hl) (.inl hl)
  · rw [or_iff_right hl]
    split at hkeys
    · rw [if_pos ‹_›, check_pool_eq hkeys, if_neg hl, Option.bind_eq_some_iff]
      refine exists_congr fun o => and_congr_right fun ho => ?_
      have hj := (nonneg_of_at? ho).1
      split
      · refine iff_of_false (fun h => ?_) fun h => ?_
        · have := Option.some.inj h
          omega
        · omega
      · rw [and_iff_right (by omega)]
        exact bind_pool_eq_neg_one_iff hj
    · rw [if_neg ‹_›, check_strings_eq hkeys, if_neg hl, Option.bind_eq_some_iff]
      refine exists_congr fun k => and_congr_right fun hk => ?_
      obtain ⟨hj, hmem⟩ := nonneg_of_at? hk
      rw [CFile.checkLen, hcnul, if_neg (by decide), minLen_of_notMem (hfree k hmem),
        Option.bind_some, bind_eq_neg_one_iff hj]

section
variable (hb : Built variant keys values options ph)
include hb

/-- What is compared in a slot are keys that are sent to it. -/
theorem Built.mem_inSlot_of_mem_scanned {p : Bytes × Option Int} (hC : ph.C.isSome)
    (hh : h < ph.size) (hp : p ∈ scanned ph h) : p ∈ inSlot ph keys values h := by
  rw [scanned, hb.list_eq hC hh] at hp
  generalize inSlot ph keys values h = L at hp
  rcases L with _ | ⟨q, _ | ⟨r, L⟩⟩
  · exact hp
  · cases hp
  · dsimp only [gather] at hp
    split at hp
    · exact hp
    · cases hp

theorem Built.mem_keys_of_mem_scanned {p : Bytes × Option Int} (hC : ph.C.isSome)
    (hh : h < ph.size) (hp : p ∈ scanned ph h) : p.1 ∈ keys := by
  have hmem := (mem_inSlot.mp (hb.mem_inSlot_of_mem_scanned hC hh hp)).1
  have hfst : (keyValues ph.size keys values).map Prod.fst = keys := map_fst_keyValues
  rw [← hfst]
  exact List.mem_map_of_mem hmem

/-- When the lookup returns -1. -/
theorem Built.run_eq_neg_one_iff (hlt : keys.length < 2 ^ 63) (hC : ph.C.isSome)
    (hfp : options.has "-false-positives" = false) (hnul : options.has "-nul" = false)
    (hfree : ∀ k ∈ keys, 0 ∉ k) (hs : 0 ∉ s) :
    (saveC variant ph).run (s ++ [0]) (int.conv s.length) = some (-1) ↔ Misses ph keys s := by
  have hslot := slot_lt (H := ph.H) (hb.pos hC) s
  have hsame : ∀ p ∈ scanned ph (slot ph.size ph.H s),
      (saveC variant ph).same (s ++ [0]) (int.conv s.length) p.1 = listCompare s p.1 := fun p hp =>
    same_eq_listCompare (hb.nul_eq.trans hnul) (hfree _ (hb.mem_keys_of_mem_scanned hC hslot hp))
  rw [hb.run_string hnul hlt (hb.pos hC) hs, Option.bind_eq_some_iff, Option.exists]
  refine or_congr ?_ ?_
  · rw [scanPairs_eq_none_iff, and_assoc, Option.bind_eq_some_iff]
    refine and_congr (forall₂_congr fun p hp => by rw [hsame p hp]) (and_congr_right fun _ => ?_)
    refine exists_congr fun j => and_congr_right fun _ => ?_
    rw [check_eq_neg_one_iff hb hfp hnul hfree, hb.options_eq]
  · constructor
    · rintro ⟨v, hscan, hv⟩
      obtain rfl := Option.some.inj hv
      obtain ⟨A, p, B, hL, hA, hall, hp, hvalue⟩ := scanPairs_eq_some_iff.mp hscan
      rw [hL] at hsame
      refine ⟨A, p, B, hL, hA, fun q hq => ?_, ?_, hvalue⟩
      · rw [← hsame q (List.mem_append_left _ hq), hall q hq]
      · rw [← hsame p (List.mem_append_right _ List.mem_cons_self), hp]
    · rintro ⟨A, p, B, hL, hA, hall, hp, hvalue⟩
      rw [hL] at hsame
      refine ⟨-1, scanPairs_eq_some_iff.mpr ⟨A, p, B, hL, hA, fun q hq => ?_, ?_, hvalue⟩, rfl⟩
      · rw [hsame q (List.mem_append_left _ hq), hall q hq]
      · rw [hsame p (List.mem_append_right _ List.mem_cons_self), hp]

end

/-! ## Short strings, where no number is cut -/

/-- What follows the NUL of a key does not make a string without NUL a prefix. -/
theorem prefix_append_zero_iff (hs : 0 ∉ s) (rest : Bytes) : s <+: k ++ 0 :: rest ↔ s <+: k := by
  refine ⟨fun hp => ?_, fun hp => hp.trans (List.prefix_append _ _)⟩
  rcases Nat.le_total s.length k.length with hle | hle
  · exact List.prefix_of_prefix_length_le hp (List.prefix_append _ _) hle
  · have hk : k <+: s := List.prefix_of_prefix_length_le (List.prefix_append _ _) hp hle
    obtain ⟨t, rfl⟩ := hk
    cases t with
    | nil => simp
    | cons b t =>
      have hb := (List.cons_prefix_cons.mp ((List.prefix_append_right_inj k).mp hp)).1
      exact absurd (List.mem_append_right _ (hb ▸ List.mem_cons_self)) hs

/-- The key with number `i` is told from the string by the check. -/
def Told (options : Options) (keys : List Bytes) (s : Bytes) (i : Nat) (k : Bytes) : Prop :=
  if options.has "-pic" then
    k.head? ≠ s.head? ∨
      s.length ≤ ((poolContents keys).drop (poolOffset keys i)).length ∧ ¬ s <+: k
  else ¬ k <+: s ∧ ¬ s <+: k

theorem check_eq_neg_one_iff_told (hb : Built variant keys values options ph)
    (hfp : options.has "-false-positives" = false) (hnul : options.has "-nul" = false)
    (hfit : (saveC variant ph).Untruncated) (hfree : ∀ k ∈ keys, 0 ∉ k) (hi : keys[i]? = some k)
    (hs : 0 ∉ s) (hne : s ≠ []) (hlen : s.length < 2 ^ 31) (rest : Bytes) :
    (saveC variant ph).check (s ++ 0 :: rest) s.length i = some (-1) ↔
      Told options keys s i k := by
  have hkeys := saveC_keys hb
  have hcnul := hb.nul_eq.trans hnul
  have hnat : some (i : Int) ≠ some (-1) := fun h => by
    have := Option.some.inj h
    omega
  rw [hfp, if_neg (by decide)] at hkeys
  unfold Told
  split at hkeys
  · rename_i hpic
    obtain ⟨hat, hconv⟩ := at?_offsets hkeys hfit hi
    obtain ⟨more, hmore⟩ := exists_drop_poolOffset hi
    obtain ⟨b, s, rfl⟩ := List.exists_cons_of_ne_nil hne
    have hb : b ≠ 0 := fun h => hs (h ▸ List.mem_cons_self)
    have hnonneg : ¬ (poolOffset keys i : Int) < 0 := by omega
    have hprefix := prefix_append_zero_iff (k := k) hs more
    rw [if_pos hpic, check_pool hkeys hlen, hat, Option.bind_some, hconv, if_neg hnonneg,
      Int.toNat_natCast, hmore, ← hprefix]
    cases k with
    | nil =>
      rw [List.nil_append, List.getElem?_cons_zero, Option.bind_some, if_pos hb.symm]
      exact iff_of_true rfl (.inl (Option.some_ne_none b).symm)
    | cons a k =>
      have hhead : (a :: k).head? ≠ (b :: s).head? ↔ a ≠ b := Option.some_inj.not
      rw [List.cons_append, List.getElem?_cons_zero, Option.bind_some, hhead]
      by_cases hab : a = b
      · rw [if_neg (not_not.mpr hab), or_iff_right (not_not.mpr hab)]
        split
        · rw [and_iff_right ‹_›]
          split
          · exact iff_of_false hnat (not_not.mpr ‹_›)
          · exact iff_of_true rfl ‹_›
        · exact iff_of_false (Option.some_ne_none _).symm fun h => absurd h.1 ‹_›
      · rw [if_pos hab]
        exact iff_of_true rfl (.inl hab)
  · rw [if_neg ‹_›, check_strings hkeys hcnul hfree hne (by omega), at?_natCast, hi,
      Option.map_some]
    by_cases hp : k <+: s ∨ s <+: k
    · rw [if_pos hp]
      exact iff_of_false hnat (not_and_or.mpr (hp.imp not_not.mpr not_not.mpr))
    · rw [if_neg hp]
      exact iff_of_true rfl (not_or.mp hp)

section
variable (hb : Built variant keys [] options ph) (hC : ph.C.isSome)
  (hfit : (saveC variant ph).Untruncated)
include hb hC hfit

/-- Where the lookup goes on there is the number of a key. -/
theorem Built.exists_next (hh : h < ph.size) :
    ∃ i < keys.length, next ph h = some (i : Int) := by
  have hslot : h < keys.length := hb.size ▸ hh
  have hvalues : ∀ p ∈ inSlot ph keys [] h,
      ∃ j < keys.length, p.2 = some (j : Int) ∧ int.conv (j : Int) = j := by
    rintro ⟨k, v⟩ hp
    have hmem := (mem_inSlot.mp hp).1
    obtain ⟨j, hj, rfl⟩ := (mem_keyValues_nil hb.size.ge).mp hmem
    exact ⟨j, (List.getElem?_eq_some_iff.mp hj).1, rfl,
      IntType.conv_of_fits (hb.value_fits hC hfit.Cv hmem)⟩
  rw [next, hb.list_eq hC hh]
  generalize inSlot ph keys [] h = L at hvalues
  rcases L with _ | ⟨p, _ | ⟨q, L⟩⟩
  · exact ⟨h, hslot, rfl⟩
  · obtain ⟨j, hj, hp, hconv⟩ := hvalues p (List.mem_singleton_self p)
    refine ⟨j, hj, ?_⟩
    change p.2.map int.conv = _
    rw [hp, Option.map_some, hconv]
  · exact ⟨h, hslot, rfl⟩

/-- No key of a list is taken for an absent string, so only the check decides. -/
theorem Built.run_absent_iff (hn : keys.length ≠ 2 ^ 31)
    (hfp : options.has "-false-positives" = false) (hnul : options.has "-nul" = false)
    (hfree : ∀ k ∈ keys, 0 ∉ k) (hs : 0 ∉ s) (habsent : s ∉ keys) (hlen : s.length < 2 ^ 31) :
    (saveC variant ph).run (s ++ [0]) s.length = some (-1) ↔
      s = [] ∨ ∃ (i : Nat) (k : Bytes), next ph (slot ph.size ph.H s) = some (i : Int) ∧
        keys[i]? = some k ∧ Told options keys s i k := by
  have hle := hb.length_le hC hfit
  have hslot := slot_lt (H := ph.H) (hb.pos hC) s
  have hscan : (saveC variant ph).scanPairs (s ++ [0]) s.length
      (scanned ph (slot ph.size ph.H s)) = some none := by
    rw [scanPairs_eq_none_iff]
    constructor
    · intro p hp
      have hmem := hb.mem_keys_of_mem_scanned hC hslot hp
      rw [same_eq (hb.nul_eq.trans hnul) (hfree _ hmem) hs (by omega), beq_eq_false_iff_ne.mpr]
      rintro rfl
      exact habsent hmem
    · have hcount := hb.count_le hC hslot
      rw [hb.list_eq hC hslot, count_gather] at hcount
      rw [hb.scanned_eq hC hfit.Cs hslot]
      split
      · omega
      · exact Nat.two_pow_pos 31
  obtain ⟨i, hi, hnext⟩ := hb.exists_next hC hfit hslot
  have hk := List.getElem?_eq_getElem hi
  rw [hb.run_string hnul (by omega) (hb.pos hC) hs, hscan, Option.bind_some, hnext,
    Option.bind_some]
  by_cases hne : s = []
  · subst hne
    exact iff_of_true (check_of_eq_zero (isSome_keys hb hfp) rfl) (.inl rfl)
  · rw [or_iff_right hne, check_eq_neg_one_iff_told hb hfp hnul hfit hfree hk hs hne hlen]
    constructor
    · intro h
      exact ⟨i, _, rfl, hk, h⟩
    · rintro ⟨j, k, hj, hk', h⟩
      obtain rfl := Int.natCast_inj.mp (Option.some.inj hj)
      rwa [Option.some.inj (hk.symm.trans hk')]

end

/-! ## The lookup of an absent string -/

/-- The lookup of a string reads its NUL and nothing behind it. -/
theorem forall_lookup_iff (hnul : ph.options.has "-nul" = false) (hs : 0 ∉ s) :
    (∀ rest n, (saveC variant ph).lookup (s ++ 0 :: rest) n = some (-1)) ↔
      (saveC variant ph).run (s ++ [0]) (int.conv s.length) = some (-1) := by
  constructor
  · intro h
    rw [← lookup_of_notMem hnul hs [] 0, h]
  · intro h rest n
    have happend := run_append h rest
    rw [List.append_assoc, List.singleton_append] at happend
    rw [lookup_of_notMem hnul hs, happend]

/-- The object of the keys "cb", "a" and "b" when the table stays as it starts. The first two share
slot 1. -/
def cb (options : Options) : Pearson Int where
  size := 3
  H := List.range 256
  C := some [none, some (.pairs [([99, 98], some 0), ([97], some 1)]), some (.value (some 2))]
  options
  keys := if options.has "-false-positives" then none else some [[99, 98], [97], [98]]

theorem new_cb (inTime : Nat → Bool) (args : List String) :
    Variant.pearson.new (fun _ _ => 0) inTime (.array [[99, 98], [97], [98]]) args =
      .ok (some (cb (withMaxTime (handleOpts args)))) := by
  have hvariant : Variant.pearson ≠ .pearson8 := nofun
  have hC : collisions 3 (List.range 256) [[99, 98], [97], [98]] [] = .ok [none,
      some (.pairs [([99, 98], some (0 : Int)), ([97], some 1)]), some (.value (some 2))] := by
    decide +kernel
  exact new_zero hvariant (by decide) (by decide) hC (by decide +kernel)

/-- When the generated lookup without `-nul` returns -1 for a string that is no key. The second
statement is about a string that an `int` can count, where no number is cut: the key at which the
lookup arrives is the only one of the slot, or the one whose number is the slot, and has to be told
from the string by the check. -/
theorem absent_iff {variant : Variant} {draws : Nat → Nat → Nat} {inTime : Nat → Bool}
    {keys : List Bytes} {args : List String} {ph : Pearson Int} {s : Bytes}
    (hvariant : variant ≠ .pearson8)
    (hnew : variant.new draws inTime (.array keys) args = .ok (some ph)) (hC : ph.C.isSome)
    (hlt : (pad keys).length < 2 ^ 63) (hfree : ∀ k ∈ keys, 0 ∉ k)
    (hnul : (handleOpts args).has "-nul" = false)
    (hfp : (handleOpts args).has "-false-positives" = false) (hs : 0 ∉ s)
    (habsent : s ∉ pad keys) :
    ((∀ rest l, (saveC variant ph).lookup (s ++ 0 :: rest) l = some (-1)) ↔
      Misses ph (pad keys) s) ∧
    (s.length < 2 ^ 31 → (saveC variant ph).Untruncated →
      ((∀ rest l, (saveC variant ph).lookup (s ++ 0 :: rest) l = some (-1)) ↔
        s = [] ∨ ∃ (i : Nat) (k : Bytes), next ph (slot ph.size ph.H s) = some (i : Int) ∧
          (pad keys)[i]? = some k ∧ Told (handleOpts args) (pad keys) s i k)) := by
  have hb := built_of_new hvariant hnew rfl
  have hnul' : (withMaxTime (handleOpts args)).has "-nul" = false := by
    rwa [withMaxTime_has _ (show "-nul" ≠ "-max-time" by decide)]
  have hfp' : (withMaxTime (handleOpts args)).has "-false-positives" = false := by
    rwa [withMaxTime_has _ (show "-false-positives" ≠ "-max-time" by decide)]
  have hfree' : ∀ k ∈ pad keys, 0 ∉ k := fun k => notMem_of_mem_pad hfree
  have htold (i : Nat) (k : Bytes) : Told (withMaxTime (handleOpts args)) (pad keys) s i k ↔
      Told (handleOpts args) (pad keys) s i k := by
    rw [Told, Told, withMaxTime_has _ (show "-pic" ≠ "-max-time" by decide)]
  rw [forall_lookup_iff (hb.options_eq ▸ hnul') hs]
  refine ⟨hb.run_eq_neg_one_iff hlt hC hfp' hnul' hfree' hs, fun hlen hfit => ?_⟩
  have hne : (pad keys).length ≠ 2 ^ 31 := by
    have hpos : 0 < (pad keys).length := hb.size ▸ hb.pos hC
    have hmod := length_pad (List.ne_nil_of_length_pos hpos)
    omega
  simp only [int_conv_natCast hlen, ← htold,
    hb.run_absent_iff hC hfit hne hfp' hnul' hfree' hs habsent hlen]

theorem absent_iff_cb :
    Variant.pearson.new (fun _ _ => 0) (fun _ => true) (.array [[99, 98], [97], [98]]) ["-pic"] =
        .ok (some (cb (withMaxTime (handleOpts ["-pic"])))) ∧
      ∀ rest l, (saveC .pearson (cb (withMaxTime (handleOpts ["-pic"])))).lookup
        ([102] ++ 0 :: rest) l = some (-1) := by
  have hvariant : Variant.pearson ≠ .pearson8 := nofun
  have hnew := new_cb (fun _ => true) ["-pic"]
  have htold : Told (handleOpts ["-pic"]) [[99, 98], [97], [98]] [102] 0 [99, 98] := by
    rw [Told, if_pos (by decide)]
    exact .inl (by decide)
  exact ⟨hnew, ((absent_iff hvariant hnew rfl (by decide) (by decide) (by decide) (by decide)
    (by decide) (by decide)).2 (by decide) (by decide +kernel)).mpr
      (.inr ⟨0, [99, 98], by decide +kernel, rfl, htold⟩)⟩

/-- "c" is a prefix of the key whose number is its slot. -/
theorem not_absent_c :
    (Variant.pearson.new (fun _ _ => 0) (fun _ => true) (.array [[99, 98], [97], [98]]) [] =
        .ok (some (cb (withMaxTime (handleOpts [])))) ∧
      (saveC .pearson (cb (withMaxTime (handleOpts [])))).lookup ([99] ++ 0 :: []) 0 = some 0) ∧
    Variant.pearson.new (fun _ _ => 0) (fun _ => true) (.array [[99, 98], [97], [98]]) ["-pic"] =
        .ok (some (cb (withMaxTime (handleOpts ["-pic"])))) ∧
      (saveC .pearson (cb (withMaxTime (handleOpts ["-pic"])))).lookup ([99] ++ 0 :: []) 0 =
        some 0 :=
  ⟨⟨new_cb _ _, by decide +kernel⟩, new_cb _ _, by decide +kernel⟩

end PerfectHash.Pearson
