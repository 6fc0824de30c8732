import PerfectHash.Pearson.SaveC

/-! # The collision lists in the generated code

What the generated lookup does with the collision lists that `new` makes (`collide_saveC`): it
compares the pairs of a slot in their order, or goes on with the only value of the slot, or with
the slot itself. -/

namespace PerfectHash.Pearson

open CValues C
open HanovPP (at? at?_natCast)

variable {variant : Variant} {ph : Pearson Int} {c : CFile} {s : Bytes} {l : Int} {h m n : Nat}
  {P : List (Bytes × Option Int)} {coll : Option (Colliding Int)}
  {C : List (Option (Colliding Int))} {H : List Nat} {keys : List Bytes}
  {values : List (Option Int)} {options : Options}

/-! ## The loop over a list -/

/-- The loop over the pairs of a list. -/
def CFile.scanPairs (c : CFile) (s : Bytes) (l : Int) (P : List (Bytes × Option Int)) :
    Option (Option Int) :=
  c.scan s l (P.map Prod.fst) (P.map fun p => Scalar.number p.2) 0 P.length

@[simp] theorem scanPairs_nil : c.scanPairs s l [] = some none := rfl

/-- The loop passes all pairs if all are found different, and the index fits an `int`. -/
theorem scan_eq_none_iff {i : Nat} (hn : i + n = P.length) (hi : i < 2 ^ 31) :
    c.scan s l (P.map Prod.fst) (P.map fun p => Scalar.number p.2) i n = some none ↔
      (∀ p ∈ P.drop i, c.same s l p.1 = some false) ∧ P.length < 2 ^ 31 := by
  induction n generalizing i with
  | zero =>
    rw [List.drop_of_length_le (by omega)]
    exact ⟨fun _ => ⟨nofun, by omega⟩, fun _ => rfl⟩
  | succ n ih =>
    have hlt : i < P.length := by omega
    rw [scan_succ, List.getElem?_map, List.getElem?_eq_getElem hlt, Option.map_some,
      Option.bind_some, List.drop_eq_getElem_cons hlt, List.forall_mem_cons]
    cases hsame : c.same s l P[i].1 with
    | none => simp
    | some b =>
      rw [Option.bind_some]
      cases b with
      | true => simp [hlt]
      | false =>
        rw [if_neg (by decide), eq_self, true_and]
        by_cases hi' : i + 1 < 2 ^ 31
        · rw [arith_succ hi', Option.bind_some, Int.toNat_natCast, ih (by omega) hi']
        · rw [arith_overflow hi', Option.bind_none]
          refine ⟨nofun, fun h => ?_⟩
          omega

/-- The loop returns the value of the first pair that is found the same. -/
theorem scan_eq_some_iff {i : Nat} {v : Int} (hn : i + n = P.length) (hi : i < 2 ^ 31) :
    c.scan s l (P.map Prod.fst) (P.map fun p => Scalar.number p.2) i n = some (some v) ↔
      ∃ A p B, P.drop i = A ++ p :: B ∧ i + A.length < 2 ^ 31 ∧
        (∀ q ∈ A, c.same s l q.1 = some false) ∧ c.same s l p.1 = some true ∧
        int.conv (Scalar.number p.2) = v := by
  induction n generalizing i with
  | zero =>
    rw [List.drop_of_length_le (by omega)]
    simp [CFile.scan]
  | succ n ih =>
    have hlt : i < P.length := by omega
    rw [scan_succ, List.getElem?_map, List.getElem?_eq_getElem hlt, Option.map_some,
      Option.bind_some, List.drop_eq_getElem_cons hlt]
    constructor
    · intro hscan
      obtain ⟨b, hb, hscan⟩ := Option.bind_eq_some_iff.mp hscan
      split at hscan
      · rename_i htrue
        subst htrue
        refine ⟨[], P[i], _, rfl, by simpa using hi, by simp, hb, ?_⟩
        simpa [List.getElem?_eq_getElem hlt] using hscan
      · rename_i hfalse
        obtain rfl := Bool.eq_false_iff.mpr hfalse
        have hi' : i + 1 < 2 ^ 31 := by
          by_contra hi'
          rw [arith_overflow hi'] at hscan
          cases hscan
        rw [arith_succ hi', Option.bind_some, Int.toNat_natCast, ih (by omega) hi'] at hscan
        obtain ⟨A, p, B, hdrop, hA, hall, hp, hv⟩ := hscan
        refine ⟨P[i] :: A, p, B, by rw [hdrop]; rfl, ?_, ?_, hp, hv⟩
        · rw [List.length_cons]
          omega
        · exact List.forall_mem_cons.mpr ⟨hb, hall⟩
    · rintro ⟨A, p, B, hdrop, hA, hall, hp, hv⟩
      cases A with
      | nil =>
        obtain ⟨rfl, -⟩ := List.cons.inj hdrop
        rw [hp, Option.bind_some, if_pos rfl, List.getElem?_map, List.getElem?_eq_getElem hlt,
          Option.map_some, Option.bind_some, hv]
      | cons q A =>
        rw [List.cons_append] at hdrop
        obtain ⟨rfl, htail⟩ := List.cons.inj hdrop
        obtain ⟨hq, hall⟩ := List.forall_mem_cons.mp hall
        rw [List.length_cons] at hA
        rw [hq, Option.bind_some, if_neg (by decide), arith_succ (by omega), Option.bind_some,
          Int.toNat_natCast, ih (by omega) (by omega)]
        exact ⟨A, p, B, htail, by omega, hall, hp, hv⟩

theorem scanPairs_eq_none_iff : c.scanPairs s l P = some none ↔
    (∀ p ∈ P, c.same s l p.1 = some false) ∧ P.length < 2 ^ 31 :=
  scan_eq_none_iff (Nat.zero_add _) (by decide)

theorem scanPairs_eq_some_iff {v : Int} : c.scanPairs s l P = some (some v) ↔
    ∃ A p B, P = A ++ p :: B ∧ A.length < 2 ^ 31 ∧ (∀ q ∈ A, c.same s l q.1 = some false) ∧
      c.same s l p.1 = some true ∧ int.conv (Scalar.number p.2) = v := by
  unfold CFile.scanPairs
  simpa only [Nat.zero_add, List.drop_zero] using
    scan_eq_some_iff (P := P) (i := 0) (Nat.zero_add _) (by decide)

/-! ## The type of the counts -/

theorem maxcoll_le (hC : ∀ coll ∈ C, count coll ≤ m) : maxcoll C ≤ m := by
  have main (C : List (Option (Colliding Int))) (hC : ∀ coll ∈ C, count coll ≤ m) (a : Nat)
      (ha : a ≤ m) : C.foldl maxcollStep a ≤ m := by
    induction C generalizing a with
    | nil => exact ha
    | cons coll C ih =>
      obtain ⟨hcoll, hC⟩ := List.forall_mem_cons.mp hC
      refine ih hC _ ?_
      unfold maxcollStep
      split_ifs <;> assumption
  exact main C hC 0 (Nat.zero_le m)

theorem count_le_maxcoll (hcoll : coll ∈ C) (hcount : count coll > 1) :
    count coll ≤ maxcoll C := by
  have main (C : List (Option (Colliding Int))) (a : Nat) :
      a ≤ C.foldl maxcollStep a ∧
        ∀ coll ∈ C, count coll > 1 → count coll ≤ C.foldl maxcollStep a := by
    induction C generalizing a with
    | nil => exact ⟨le_refl a, nofun⟩
    | cons coll C ih =>
      rw [List.foldl_cons]
      obtain ⟨hle, hall⟩ := ih (maxcollStep a coll)
      have hstep : a ≤ maxcollStep a coll ∧ (count coll > 1 → count coll ≤ maxcollStep a coll) := by
        unfold maxcollStep
        split_ifs <;> omega
      exact ⟨hstep.1.trans hle,
        List.forall_mem_cons.mpr ⟨fun hcount => (hstep.2 hcount).trans hle, hall⟩⟩
  exact (main C 0).2 coll hcoll hcount

/-- A count is kept, or cut to 0. -/
theorem uCsize_conv (hle : n ≤ m) (hm : m < 2 ^ 64) :
    (uCsize m).conv n = n ∨ (uCsize m).conv n = 0 := by
  unfold uCsize
  split
  · exact .inl (Int.emod_eq_of_lt (by omega) (by norm_num [unsignedLong]; omega))
  · split
    · norm_num [IntType.conv, unsignedInt]
      omega
    · split
      · norm_num [IntType.conv, unsignedShort]
        omega
      · norm_num [IntType.conv, unsignedChar]
        omega

theorem uCsize_fits_of_lt (hn : n < 256) : (uCsize m).Fits n := by
  unfold uCsize
  split
  · exact ⟨by omega, by norm_num [unsignedLong]; omega⟩
  · split
    · exact ⟨by omega, by norm_num [unsignedInt]; omega⟩
    · split
      · exact ⟨by omega, by norm_num [unsignedShort]; omega⟩
      · exact ⟨by omega, by norm_num [unsignedChar]; omega⟩

/-! ## The objects of `new` -/

/-- What `new` of `Pearson` and `PearsonNP` makes of a list of keys. -/
structure Built (variant : Variant) (keys : List Bytes) (values : List (Option Int))
    (options : Options) (ph : Pearson Int) : Prop where
  table : Table variant ph.H
  size : ph.size = keys.length
  length_H : keys.length < 2 ^ 63 → ph.H.length ≤ 2 ^ 63
  options_eq : ph.options = options
  keys_eq : ph.keys = if options.has "-false-positives" then none else some keys
  collisions_eq : ∀ C, ph.C = some C → collisions ph.size ph.H keys values = .ok C
  shared : ph.C.isSome ↔ ¬ (keys.map (slot ph.size ph.H)).Nodup

theorem roundUp_le (size turns i : Nat) (hsize : size < 2 ^ 63) (hi : i ≤ 63) :
    roundUp size turns i ≤ 2 ^ 63 := by
  induction turns generalizing i with
  | zero => exact Nat.pow_le_pow_right (by decide) hi
  | succ turns ih =>
    unfold roundUp
    split
    · rename_i hlt
      exact ih (i + 1) ((Nat.pow_lt_pow_iff_right (by decide)).mp (hlt.trans hsize))
    · exact Nat.pow_le_pow_right (by decide) hi

theorem table_of_perm {hsize : Nat} (hperm : H.Perm (List.range hsize)) (hpos : 0 < hsize)
    (heq : variant ≠ .pearson → hsize = 256) : Table variant H := by
  have hlength := length_of_perm_range hperm
  refine ⟨fun x hx => ?_, List.ne_nil_of_length_pos (by omega), fun h => hlength.trans (heq h)⟩
  rw [hlength]
  exact lt_of_perm_range hperm hx

theorem built_of_build {hsize maxcount : Nat → Nat} {draws : Nat → Nat → Nat}
    {inTime : Nat → Bool} {args : List String} {dict : Dict Int}
    (hnew : build hsize maxcount draws inTime dict args = .ok ph)
    (hinit : dictInit dict = .ok (keys, values)) (hpos : 0 < hsize keys.length)
    (hle : keys.length < 2 ^ 63 → hsize keys.length ≤ 2 ^ 63)
    (heq : variant ≠ .pearson → hsize keys.length = 256) :
    Built variant keys values (withMaxTime (handleOpts args)) ph := by
  obtain ⟨keys', values', hinit', hsize', hperm, ⟨c, hcost, hC⟩, hkeys⟩ := build_ok hnew
  obtain ⟨rfl, rfl⟩ := Prod.mk.inj (Except.ok.inj (hinit.symm.trans hinit'))
  have ht := table_of_perm hperm hpos heq
  refine ⟨ht, hsize', fun hlt => ?_, options_of_build hnew, ?_, fun C h => ?_, ?_⟩
  · rw [length_of_perm_range hperm]
    exact hle hlt
  · rwa [withMaxTime_has _ (show "-false-positives" ≠ "-max-time" by decide)]
  · split at hC
    · obtain ⟨C', hcoll, hC'⟩ := hC
      rwa [Option.some.inj (h.symm.trans hC')]
    · rw [hC] at h
      cases h
  · by_cases hnil : keys = []
    · rw [hnil] at hcost ⊢
      cases hcost
      rw [if_neg (by decide)] at hC
      simp [hC]
    · have hsize : 0 < ph.size := hsize' ▸ List.length_pos_iff.mpr hnil
      obtain ⟨c', hcost', hcounts⟩ := cost_eq ht.ne_nil hsize keys
      obtain rfl := Except.ok.inj (hcost.symm.trans hcost')
      rw [← hcounts.max_le_one_iff]
      split at hC
      · obtain ⟨C, -, hC⟩ := hC
        simp [hC]
        omega
      · simp [hC]
        omega

/-- The objects of the two classes. -/
theorem built_of_new {draws : Nat → Nat → Nat} {inTime : Nat → Bool} {args : List String}
    {dict : Dict Int} (hvariant : variant ≠ .pearson8)
    (hnew : variant.new draws inTime dict args = .ok (some ph))
    (hinit : dictInit dict = .ok (keys, values)) :
    Built variant keys values (withMaxTime (handleOpts args)) ph := by
  cases variant with
  | pearson =>
    obtain ⟨ph', hbuild, hph⟩ := map_eq_ok hnew
    cases hph
    exact built_of_build hbuild hinit (roundUp_pos _ _ _)
      (fun hlt => roundUp_le _ _ _ hlt (by decide)) (absurd rfl)
  | pearsonNP =>
    obtain ⟨ph', hbuild, hph⟩ := map_eq_ok hnew
    cases hph
    exact built_of_build hbuild hinit (by decide) (fun _ => by decide) fun _ => rfl
  | pearson8 => exact absurd rfl hvariant

/-- With zeros for the random numbers, up to 256 keys that do not all have a slot of their own are
stored with the lists of the table that the search starts with. -/
theorem new_zero {inTime : Nat → Bool} {args : List String} (hvariant : variant ≠ .pearson8)
    (hne : keys ≠ []) (hle : (pad keys).length ≤ 256)
    (hC : collisions (pad keys).length (List.range 256) (pad keys) [] = .ok C)
    (hshared : ¬ ((pad keys).map (slot (pad keys).length (List.range 256))).Nodup) :
    variant.new (fun _ _ => 0) inTime (.array keys) args = .ok (some {
      size := (pad keys).length
      H := List.range 256
      C := some C
      options := withMaxTime (handleOpts args)
      keys := if (withMaxTime (handleOpts args)).has "-false-positives" then none
        else some (pad keys) }) := by
  have hinit : dictInit (.array keys) = .ok (pad keys, ([] : List (Option Int))) := rfl
  have hround : roundUp (pad keys).length (pad keys).length 8 = 256 := by
    cases h : (pad keys).length with
    | zero => rfl
    | succ n => exact if_neg (by omega)
  obtain ⟨ph, hnew, hH⟩ : ∃ ph : Pearson Int,
      variant.new (fun _ _ => 0) inTime (.array keys) args = .ok (some ph) ∧
        ph.H = List.range 256 := by
    cases variant with
    | pearson =>
      obtain ⟨ph, hph⟩ := build_returns (fun size => size - 1) (fun _ _ => 0) inTime args hinit
        (mt pad_eq_nil.mp hne) fun size => roundUp_pos size size 8
      refine ⟨ph, ?_, (H_of_build_zero hph hinit).trans (by rw [hround])⟩
      rw [Variant.new, Pearson.new, hph]
      rfl
    | pearsonNP =>
      obtain ⟨ph, hph⟩ := build_returns (fun _ => 30) (fun _ _ => 0) inTime args hinit
        (mt pad_eq_nil.mp hne) fun _ => Nat.succ_pos 255
      refine ⟨ph, ?_, H_of_build_zero hph hinit⟩
      rw [Variant.new, PearsonNP.new, hph]
      rfl
    | pearson8 => exact absurd rfl hvariant
  have hb := built_of_new hvariant hnew hinit
  have hsome : ph.C.isSome := by rwa [hb.shared, hH, hb.size]
  obtain ⟨C', hC'⟩ := Option.isSome_iff_exists.mp hsome
  have hcoll := hb.collisions_eq C' hC'
  rw [hH, hb.size, hC] at hcoll
  obtain ⟨size, H, C'', options, keys''⟩ := ph
  obtain rfl := hH
  obtain rfl := hb.size
  obtain rfl := hb.options_eq
  obtain rfl := hb.keys_eq
  obtain rfl := hC'
  rw [hnew, Except.ok.inj hcoll]

/-! ## The lists of an object -/

/-- The list of slot `h`. -/
def list (ph : Pearson Int) (h : Nat) : Option (Colliding Int) := (ph.C.getD [])[h]?.join

/-- The pairs that are compared in slot `h`: none where their number is cut to 0 in `Cs`. -/
def scanned (ph : Pearson Int) (h : Nat) : List (Bytes × Option Int) :=
  match list ph h with
  | some (.pairs l) => if (uCsize (maxcoll (ph.C.getD []))).conv l.length > 1 then l else []
  | _ => []

/-- The `h` with which the lookup goes on when no pair of slot `h` is found the same. -/
def next (ph : Pearson Int) (h : Nat) : Option Int :=
  match list ph h with
  | some (.value v) => v.map int.conv
  | _ => some h

/-- The keys that are sent to slot `h`, with their values. -/
def inSlot (ph : Pearson Int) (keys : List Bytes) (values : List (Option Int)) (h : Nat) :
    List (Bytes × Option Int) :=
  (keyValues ph.size keys values).filter fun p => slot ph.size ph.H p.1 = h

/-- There are tables for collisions if a slot has more than one key. -/
theorem saveC_collisions_eq (variant : Variant) (ph : Pearson Int) :
    (saveC variant ph).collisions = if (ph.C.getD []).any (count · > 1) then some {
      Ck := (ph.C.getD []).map collKeys
      Cv := (ph.C.getD []).map collValues
      ctype := uCsize (maxcoll (ph.C.getD []))
      Cs := (ph.C.getD []).map count } else none := rfl

theorem count_gather : count (gather P) = P.length := by
  match P with
  | [] => rfl
  | [p] => rfl
  | p :: q :: P => rfl

theorem length_inSlot :
    (inSlot ph keys values h).length = (keys.map (slot ph.size ph.H)).count h := by
  have hfst : (keyValues ph.size keys values).map Prod.fst = keys := map_fst_keyValues
  conv_rhs => rw [← hfst]
  rw [List.map_map, List.count_eq_countP, List.countP_map, List.countP_eq_length_filter]
  congr 2

theorem mem_inSlot {p : Bytes × Option Int} : p ∈ inSlot ph keys values h ↔
    p ∈ keyValues ph.size keys values ∧ slot ph.size ph.H p.1 = h := by
  rw [inSlot, List.mem_filter, decide_eq_true_eq]

section
variable (hb : Built variant keys values options ph)
include hb

theorem Built.nul_eq : (saveC variant ph).nul = options.has "-nul" := by
  rw [← hb.options_eq]
  rfl

theorem Built.pos (hC : ph.C.isSome) : 0 < ph.size := by
  rw [hb.size]
  apply List.length_pos_iff.mpr
  intro hnil
  exact hb.shared.mp hC (by rw [hnil]; exact List.nodup_nil)

theorem Built.C_eq (hC : ph.C = some C) :
    C = (Buckets.distribute (fun q : Bytes × Option Int => slot ph.size ph.H q.1) ph.size
      (keyValues ph.size keys values)).map gather := by
  have hcoll := hb.collisions_eq C hC
  rw [Pearson.collisions_eq hb.table.ne_nil (hb.pos (by rw [hC]; rfl))] at hcoll
  exact (Except.ok.inj hcoll).symm

theorem Built.getElem?_C (hC : ph.C = some C) (hh : h < ph.size) : C[h]? = some (list ph h) := by
  rw [list, hC, Option.getD_some, hb.C_eq hC, List.getElem?_map, Buckets.getElem?_distribute hh]
  rfl

theorem Built.list_eq (hC : ph.C.isSome) (hh : h < ph.size) :
    list ph h = gather (inSlot ph keys values h) := by
  obtain ⟨C, hC⟩ := Option.isSome_iff_exists.mp hC
  rw [list, hC]
  exact collisions_ok hb.table.ne_nil (by omega) (hb.collisions_eq C hC) hh

theorem Built.exists_of_mem (hC : ph.C = some C) (hcoll : coll ∈ C) :
    ∃ h < ph.size, coll = list ph h := by
  obtain ⟨h, hget⟩ := List.mem_iff_getElem?.mp hcoll
  have hh := (List.getElem?_eq_some_iff.mp hget).1
  rw [hb.C_eq hC, List.length_map, Buckets.length_distribute] at hh
  exact ⟨h, hh, Option.some.inj (hget.symm.trans (hb.getElem?_C hC hh))⟩

theorem Built.count_le (hC : ph.C.isSome) (hh : h < ph.size) : count (list ph h) ≤ keys.length := by
  rw [hb.list_eq hC hh, count_gather, length_inSlot]
  exact List.count_le_length.trans_eq (List.length_map _)

/-- Two keys share a slot, so some list has pairs. -/
theorem Built.any (hC : ph.C = some C) : C.any (count · > 1) := by
  have hsome : ph.C.isSome := by rw [hC]; rfl
  have hshared := hb.shared.mp hsome
  rw [List.nodup_iff_count_le_one, not_forall] at hshared
  obtain ⟨h, hcount⟩ := hshared
  have hmem : h ∈ keys.map (slot ph.size ph.H) := List.count_pos_iff.mp (by omega)
  obtain ⟨k, -, rfl⟩ := List.mem_map.mp hmem
  have hh := slot_lt (H := ph.H) (hb.pos hsome) k
  rw [List.any_eq_true]
  refine ⟨_, List.mem_of_getElem? (hb.getElem?_C hC hh), decide_eq_true ?_⟩
  rw [hb.list_eq hsome hh, count_gather, length_inSlot]
  omega

/-- The generated code compares the pairs of the slot in their order. When none is found the same it
goes on with the only value of the slot, or with the slot. -/
theorem Built.collide_eq (hlt : keys.length < 2 ^ 63) (hh : h < ph.size) :
    (saveC variant ph).collide s l h =
      ((saveC variant ph).scanPairs s l (scanned ph h)).bind fun
        | some v => some (.inl v)
        | none => (next ph h).map .inr := by
  unfold CFile.collide
  rw [saveC_collisions_eq]
  cases hC : ph.C with
  | none =>
    have hlist : list ph h = none := by rw [list, hC]; rfl
    rw [Option.getD_none, List.any_nil, if_neg (by decide), scanned, hlist, next, hlist]
    rfl
  | some C =>
    have hsome : ph.C.isSome := by rw [hC]; rfl
    have hget := hb.getElem?_C hC hh
    rw [Option.getD_some, if_pos (hb.any hC)]
    simp only [at?_natCast, List.getElem?_map, hget, Option.map_some, Option.join_some,
      Option.bind_eq_bind, Option.bind_some, Option.pure_def]
    rw [scanned, next, hC, Option.getD_some]
    have hcount := hb.count_le hsome hh
    have hmem := List.mem_of_getElem? hget
    rw [hb.list_eq hsome hh] at hcount hmem ⊢
    generalize inSlot ph keys values h = L at hcount hmem
    rcases L with _ | ⟨p, _ | ⟨q, L⟩⟩
    · rw [count_gather, List.length_nil, IntType.conv_of_fits (uCsize_fits_of_lt (by decide))]
      rfl
    · rw [count_gather, List.length_singleton, IntType.conv_of_fits (uCsize_fits_of_lt (by decide))]
      rw [if_neg (by decide), if_pos (by decide)]
      cases hp : p.2 <;> simp [gather, collValues, CFile.scanPairs, CFile.scan, hp]
    · have hmax := count_le_maxcoll hmem (by rw [count_gather]; simp)
      have hmaxlt : maxcoll C ≤ keys.length := maxcoll_le fun coll hcoll => by
        obtain ⟨h, hh, rfl⟩ := hb.exists_of_mem hC hcoll
        exact hb.count_le hsome hh
      rw [count_gather] at hmax ⊢
      dsimp only [gather, collKeys, collValues]
      rw [flatten_saveCArray, flatten_saveCArray]
      rcases uCsize_conv hmax (by omega) with hconv | hconv
      · have hgt : ((p :: q :: L).length : Int) > 1 := by
          rw [List.length_cons, List.length_cons]
          omega
        rw [hconv, if_pos hgt, if_pos hgt, Int.toNat_natCast]
        simp only [Option.bind_some, CFile.scanPairs]
        cases (saveC variant ph).scan s l ((p :: q :: L).map Prod.fst)
            ((p :: q :: L).map fun p => Scalar.number p.2) 0 (p :: q :: L).length with
        | none => rfl
        | some v => cases v <;> rfl
      · rw [hconv, if_neg (by decide), if_neg (by decide)]
        rfl

/-- A run of the generated code on a string that it hashes as `hash` does. -/
theorem Built.run_eq (hlt : keys.length < 2 ^ 63) (hsize : 0 < ph.size) {rest : Bytes}
    (hs : if ph.options.has "-nul" then l = s.length else 0 ∉ s ∧ rest.head? = some 0) :
    (saveC variant ph).run (s ++ rest) l =
      ((saveC variant ph).scanPairs (s ++ rest) l (scanned ph (slot ph.size ph.H s))).bind fun
        | some v => some v
        | none => (next ph (slot ph.size ph.H s)).bind
          ((saveC variant ph).check (s ++ rest) l) := by
  unfold CFile.run
  rw [slot_saveC hb.table (hb.length_H hlt) hsize hs]
  simp only [Option.bind_eq_bind, Option.bind_some, hb.collide_eq hlt (slot_lt hsize s),
    Option.bind_assoc]
  congr 1
  funext r
  cases r with
  | some v => rfl
  | none => cases next ph (slot ph.size ph.H s) <;> rfl

/-- A run on a string with its NUL. -/
theorem Built.run_string (hnul : options.has "-nul" = false) (hlt : keys.length < 2 ^ 63)
    (hsize : 0 < ph.size) (hs : 0 ∉ s) (rest : Bytes) :
    (saveC variant ph).run (s ++ 0 :: rest) l =
      ((saveC variant ph).scanPairs (s ++ 0 :: rest) l (scanned ph (slot ph.size ph.H s))).bind fun
        | some v => some v
        | none => (next ph (slot ph.size ph.H s)).bind
          ((saveC variant ph).check (s ++ 0 :: rest) l) := by
  refine hb.run_eq hlt hsize ?_
  rw [hb.options_eq, hnul]
  exact ⟨hs, rfl⟩

/-- A run on bytes that are given with their number. -/
theorem Built.run_nul (hnul : options.has "-nul") (hlt : keys.length < 2 ^ 63)
    (hsize : 0 < ph.size) (rest : Bytes) :
    (saveC variant ph).run (s ++ rest) s.length =
      ((saveC variant ph).scanPairs (s ++ rest) s.length
        (scanned ph (slot ph.size ph.H s))).bind fun
          | some v => some v
          | none => (next ph (slot ph.size ph.H s)).bind
            ((saveC variant ph).check (s ++ rest) s.length) := by
  refine hb.run_eq hlt hsize ?_
  rw [hb.options_eq, if_pos hnul]

end

end PerfectHash.Pearson
