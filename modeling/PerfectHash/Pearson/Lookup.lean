import PerfectHash.Pearson.Table
import PerfectHash.HanovPP.Lookup

/-! # Lookups in the Pearson tables

With collision lists and stored keys, `Pearson` and `PearsonNP` find every key of an arrayref and
reject every other string (`indexes_of_collisions`). Without the lists, when the search has found a
table that sends no two keys to one slot, only `PearsonNP` can find a key, and only where its slot
happens to be its index (`returns_index_iff`). With stored keys, the values of a hashref are read as
positions in the list of its keys (`hashref_iff`). -/

namespace PerfectHash.Pearson

variable {α : Type} {size : Nat} {H : List Nat} {keys : List Bytes} {values : List (Option α)}
  {key : Bytes} {draws : Nat → Nat → Nat} {inTime : Nat → Bool} {args : List String}
  {ph : Pearson α}

theorem withMaxTime_has (options : Options) (h : opt ≠ "-max-time") :
    (withMaxTime options).has opt = options.has opt := by
  unfold withMaxTime
  split
  · rfl
  · simp [Options.has, h.symm]

theorem map_eq_ok {β : Type} {f : α → β} {x : Run α} {b : β} (h : f <$> x = .ok b) :
    ∃ a, x = .ok a ∧ f a = b := by
  cases x with
  | error e => cases h
  | ok a => exact ⟨a, rfl, Except.ok.inj h⟩

/-- The object that `build` makes. -/
theorem build_ok [Scalar α] {hsize maxcount : Nat → Nat} {dict : Dict α}
    (h : build hsize maxcount draws inTime dict args = .ok ph) :
    ∃ keys values, dictInit dict = .ok (keys, values) ∧ ph.size = keys.length ∧
      ph.H.Perm (List.range (hsize keys.length)) ∧
      (∃ c, cost (object ph.size ph.H) keys = .ok c ∧
        if c.max > 1 then ∃ C, collisions ph.size ph.H keys values = .ok C ∧ ph.C = some C
        else ph.C = none) ∧
      ph.keys = if (handleOpts args).has "-false-positives" then none else some keys := by
  obtain ⟨⟨keys, values⟩, hinit, h⟩ := bind_eq_ok.mp h
  obtain ⟨⟨H, c⟩, hsearch, h⟩ := bind_eq_ok.mp h
  obtain ⟨hperm, hcost⟩ := search_ok hsearch
  simp only [withMaxTime_has _ (show "-false-positives" ≠ "-max-time" by decide)] at h
  refine ⟨keys, values, hinit, ?_⟩
  by_cases hmax : c.max > 1
  · rw [if_pos hmax] at h
    obtain ⟨_, hsome, h⟩ := bind_eq_ok.mp h
    obtain ⟨C, hC, rfl⟩ := map_eq_ok hsome
    cases h
    exact ⟨rfl, hperm, ⟨c, hcost, by rw [if_pos hmax]; exact ⟨C, hC, rfl⟩⟩, rfl⟩
  · rw [if_neg hmax] at h
    cases h
    exact ⟨rfl, hperm, ⟨c, hcost, by rw [if_neg hmax]⟩, rfl⟩

theorem options_of_build [Scalar α] {hsize maxcount : Nat → Nat} {dict : Dict α}
    (h : build hsize maxcount draws inTime dict args = .ok ph) :
    ph.options = withMaxTime (handleOpts args) := by
  obtain ⟨⟨keys, values⟩, -, h⟩ := bind_eq_ok.mp h
  obtain ⟨⟨H, c⟩, -, h⟩ := bind_eq_ok.mp h
  dsimp only at h
  split at h
  · obtain ⟨C, -, h⟩ := bind_eq_ok.mp h
    cases h
    rfl
  · cases h
    rfl

/-- With zeros for the random numbers the table stays the one that the search starts with. -/
theorem H_of_build_zero [Scalar α] {hsize maxcount : Nat → Nat} {dict : Dict α}
    (h : build hsize maxcount (fun _ _ => 0) inTime dict args = .ok ph)
    (hinit : dictInit dict = .ok (keys, values)) : ph.H = List.range (hsize keys.length) := by
  obtain ⟨⟨keys', values'⟩, hinit', h⟩ := bind_eq_ok.mp h
  obtain ⟨rfl, rfl⟩ := Prod.mk.inj (Except.ok.inj (hinit.symm.trans hinit'))
  obtain ⟨⟨H, c⟩, hsearch, h⟩ := bind_eq_ok.mp h
  obtain rfl := search_zero hsearch
  dsimp only at h
  split at h
  · obtain ⟨C, -, h⟩ := bind_eq_ok.mp h
    cases h
    rfl
  · cases h
    rfl

/-- `build` returns on every dictionary that has a key. -/
theorem build_returns [Scalar α] {hsize : Nat → Nat} {dict : Dict α}
    (maxcount : Nat → Nat) (draws : Nat → Nat → Nat) (inTime : Nat → Bool) (args : List String)
    (hinit : dictInit dict = .ok (keys, values)) (hkeys : keys ≠ []) (hpos : ∀ n, 0 < hsize n) :
    ∃ ph, build hsize maxcount draws inTime dict args = .ok ph := by
  have hsize' : 0 < keys.length := List.length_pos_iff.mpr hkeys
  have hH : List.range (hsize keys.length) ≠ [] :=
    mt List.range_eq_nil.mp (hpos keys.length).ne'
  obtain ⟨⟨H, c⟩, hsearch⟩ :=
    search_returns draws inTime keys (maxcount keys.length - 1) 0 hH hsize'
  have hH' : H ≠ [] := fun h => hH (List.nil_perm.mp (h ▸ (search_ok hsearch).1))
  unfold build
  simp only [hinit, hsearch, bind, Except.bind]
  split
  · rw [collisions_eq hH' hsize']
    exact ⟨_, rfl⟩
  · exact ⟨_, rfl⟩

/-! ## Reading a collision list -/

/-- A list that has a pair with the key assigns the value of the first one. -/
theorem assigned_gather {l : List (Bytes × Option α)} {p : Bytes × Option α}
    (h : l.find? (·.1 = key) = some p) : assigned key (gather l) = some p.2 := by
  match l, h with
  | [q], h =>
    obtain rfl := List.mem_singleton.mp (List.mem_of_find?_eq_some h)
    rfl
  | q :: r :: l, h =>
    simp only [gather, assigned, h, Option.map_some]

/-- What a list assigns is the value of one of its pairs. -/
theorem exists_of_assigned {l : List (Bytes × Option α)} {v : Option α}
    (h : assigned key (gather l) = some v) : ∃ p ∈ l, p.2 = v := by
  match l, h with
  | [q], h => exact ⟨q, List.mem_singleton_self q, Option.some.inj h⟩
  | q :: r :: l, h =>
    obtain ⟨p, hp, hv⟩ := Option.map_eq_some_iff.mp h
    exact ⟨p, List.mem_of_find?_eq_some hp, hv⟩

/-- Looking for a key among the pairs of its slot is looking for it among all pairs. -/
theorem find?_filter_slot (l : List (Bytes × Option α)) :
    (l.filter fun p => slot size H p.1 = slot size H key).find? (·.1 = key) =
      l.find? (·.1 = key) := by
  rw [List.find?_filter]
  congr 1
  funext p
  by_cases hp : p.1 = key <;> simp [hp]

section
variable [Scalar α] {C : List (Option (Colliding α))}

theorem assigned_of_find? (hH : H ≠ []) (hsize : 0 < size)
    (hC : collisions size H keys values = .ok C) {p : Bytes × Option α}
    (h : (keyValues size keys values).find? (·.1 = key) = some p) :
    assigned key C[slot size H key]?.join = some p.2 := by
  rw [collisions_ok hH hsize hC (slot_lt hsize key)]
  exact assigned_gather (by rwa [find?_filter_slot])

theorem mem_of_assigned (hH : H ≠ []) (hsize : 0 < size)
    (hC : collisions size H keys values = .ok C) {v : Option α}
    (h : assigned key C[slot size H key]?.join = some v) :
    ∃ k, (k, v) ∈ keyValues size keys values := by
  rw [collisions_ok hH hsize hC (slot_lt hsize key)] at h
  obtain ⟨p, hp, rfl⟩ := exists_of_assigned h
  exact ⟨p.1, (List.mem_filter.mp hp).1⟩

end

/-! ## Arrayrefs -/

theorem mem_keyValues_nil {v : Option Int} (hsize : keys.length ≤ size) :
    (key, v) ∈ keyValues size keys [] ↔ ∃ i : Nat, keys[i]? = some key ∧ v = some (i : Int) := by
  have hval {i : Nat} (hi : keys[i]? = some key) :
      (valuesOr size ([] : List (Option Int)))[i]?.join = some (i : Int) := by
    have := (List.getElem?_eq_some_iff.mp hi).1
    simp [valuesOr, show i < size by omega]
    rfl
  simp only [keyValues, List.mem_map, Prod.mk.injEq, Prod.exists, List.mem_zipIdx_iff_getElem?]
  constructor
  · rintro ⟨k, i, hi, rfl, rfl⟩
    exact ⟨i, hi, hval hi⟩
  · rintro ⟨i, hi, rfl⟩
    exact ⟨key, i, hi, rfl, hval hi⟩

theorem map_fst_keyValues [Scalar α] : (keyValues size keys values).map Prod.fst = keys := by
  simp [keyValues, Function.comp_def]

/-- A position whose value is not that of the key in question leads to `undef`. -/
theorem keyAt_ne_of_notMem {k : Bytes} {i : Nat} (hk : k ∉ keys) (hi : i < keys.length) :
    keyAt keys (i : Int) ≠ k := by
  rw [keyAt_natCast (List.getElem?_eq_getElem hi)]
  exact fun h => hk (h ▸ List.getElem_mem _)

section
variable {options : Options} {C : List (Option (Colliding Int))}

/-- With the collision lists of its keys and the keys stored, `Pearson` and `PearsonNP` return the
index of every key and `undef` for every other string. -/
theorem indexes_of_collisions {keys : List Bytes} (hnd : keys.Nodup) (hkeys : keys ≠ [])
    (hsize : keys.length ≤ size) (hH : H ≠ []) (hC : collisions size H keys [] = .ok C) :
    Indexes (perfecthash { size, H, C := some C, options, keys := some keys }) keys ∧
      Indexes (PearsonNP.perfecthash { size, H, C := some C, options, keys := some keys })
        keys := by
  have hlen : 0 < keys.length := List.length_pos_iff.mpr hkeys
  have hpos : 0 < size := by omega
  have hfound (i : Nat) (k : Bytes) (hi : keys[i]? = some k) :
      assigned k C[slot size H k]?.join = some (some (i : Int)) := by
    refine assigned_of_find? hH hpos hC (find?_of_mem (k := k) ?_ ?_)
    · rwa [map_fst_keyValues]
    · exact (mem_keyValues_nil hsize).mpr ⟨i, hi, rfl⟩
  -- an assigned value is the index of some key, so that key is the one at this index
  have hother (k : Bytes) (hk : k ∉ keys) (v : Option Int)
      (hv : assigned k C[slot size H k]?.join = some v) :
      ∃ i : Nat, v = some (i : Int) ∧ keyAt keys (i : Int) ≠ k := by
    obtain ⟨k', hmem⟩ := mem_of_assigned hH hpos hC hv
    obtain ⟨i, hi, rfl⟩ := (mem_keyValues_nil hsize).mp hmem
    exact ⟨i, rfl, keyAt_ne_of_notMem hk (List.getElem?_eq_some_iff.mp hi).1⟩
  refine ⟨⟨fun i k hi => ?_, fun k hk => ?_⟩, ⟨fun i k hi => ?_, fun k hk => ?_⟩⟩
  · simp only [perfecthash, hash_object hH hpos, bind, Except.bind, Option.getD_some, hfound i k hi]
    change Except.ok (if keyAt keys (i : Int) = k then some (i : Int) else none) = _
    rw [if_pos (keyAt_natCast hi)]
  · simp only [perfecthash, hash_object hH hpos, bind, Except.bind, Option.getD_some]
    cases hv : assigned k C[slot size H k]?.join with
    | none => rfl
    | some v =>
      obtain ⟨i, rfl, hne⟩ := hother k hk v hv
      change Except.ok (if keyAt keys (i : Int) = k then some (i : Int) else none) = _
      rw [if_neg hne]
  · simp only [PearsonNP.perfecthash, hash_object hH hpos, bind, Except.bind, Option.getD_some,
      hfound i k hi]
    change Except.ok (if keyAt keys (i : Int) = k then some (i : Int) else none) = _
    rw [if_pos (keyAt_natCast hi)]
  · simp only [PearsonNP.perfecthash, hash_object hH hpos, bind, Except.bind, Option.getD_some]
    cases hv : assigned k C[slot size H k]?.join with
    | some v =>
      obtain ⟨i, rfl, hne⟩ := hother k hk v hv
      change Except.ok (if keyAt keys (i : Int) = k then some (i : Int) else none) = _
      rw [if_neg hne]
    | none =>
      change Except.ok (if keyAt keys (slot size H k : Int) = k then _ else none) = _
      rw [if_neg]
      intro hkey
      rcases keyAt_mem keys (slot size H k) with hmem | hnil
      · exact hk (hkey ▸ hmem)
      · -- only the empty string could match here, and its slot is 0
        rw [hkey] at hnil
        rw [hnil, slot_nil] at hkey
        exact keyAt_ne_of_notMem (hnil ▸ hk) hlen hkey

end

/-- Four keys in a table of five slots: one slot has two of them and two have none. -/
theorem indexes_of_collisions_four : ∃ C : List (Option (Colliding Int)),
    collisions 5 (List.range 256) [[97], [98], [102], []] [] = .ok C ∧
    perfecthash {
      size := 5, H := List.range 256, C := some C, options := []
      keys := some [[97], [98], [102], []] } [102] = .ok (some 2) := by
  obtain ⟨C, hC⟩ := exists_ok_of_isOk (show (collisions (α := Int) 5 (List.range 256)
    [[97], [98], [102], []] []).isOk by decide +kernel)
  exact ⟨C, hC, (indexes_of_collisions (by decide) (by decide) (by decide) (by decide) hC).1.member
    2 _ rfl⟩

/-- With two keys and one slot there is a value for the first key only. Without keys `PearsonNP`
takes the slot of the empty string for its index. With an empty table `hash` dies. -/
theorem not_indexes_of_collisions :
    (∃ C, collisions (α := Int) 1 (List.range 256) [[97], [98]] [] = .ok C ∧
      ¬ Indexes (perfecthash ⟨1, List.range 256, some C, [], some [[97], [98]]⟩) [[97], [98]] ∧
      ¬ Indexes (PearsonNP.perfecthash ⟨1, List.range 256, some C, [], some [[97], [98]]⟩)
        [[97], [98]]) ∧
    (∃ C, collisions (α := Int) 1 (List.range 256) [] [] = .ok C ∧
      ¬ Indexes (PearsonNP.perfecthash ⟨1, List.range 256, some C, [], some []⟩) []) ∧
    ∃ C, collisions (α := Int) 1 [] [[]] [] = .ok C ∧
      ¬ Indexes (perfecthash ⟨1, [], some C, [], some [[]]⟩) [[]] := by
  refine ⟨?_, ?_, ?_⟩
  · have heval : (collisions (α := Int) 1 (List.range 256) [[97], [98]] []).toOption.map
        (fun C => decide (
          (perfecthash ⟨1, List.range 256, some C, [], some [[97], [98]]⟩ [98]).toOption =
            some none ∧
          (PearsonNP.perfecthash ⟨1, List.range 256, some C, [], some [[97], [98]]⟩
            [98]).toOption = some none)) = some true := by decide +kernel
    obtain ⟨C, hC, hpearson, hnp⟩ := exists_ok_and heval
    refine ⟨C, hC, fun h => ?_, fun h => ?_⟩
    · rw [h.member 1 [98] rfl] at hpearson
      cases hpearson
    · rw [h.member 1 [98] rfl] at hnp
      cases hnp
  · have heval : (collisions (α := Int) 1 (List.range 256) [] []).toOption.map
        (fun C => decide (
          (PearsonNP.perfecthash ⟨1, List.range 256, some C, [], some []⟩ []).toOption =
            some (some 0))) = some true := by decide +kernel
    obtain ⟨C, hC, hnp⟩ := exists_ok_and heval
    refine ⟨C, hC, fun h => ?_⟩
    rw [h.absent [] List.not_mem_nil] at hnp
    cases hnp
  · have heval : (collisions (α := Int) 1 [] [[]] []).toOption.map
        (fun C => decide (
          (perfecthash ⟨1, [], some C, [], some [[]]⟩ [97]).toOption = none)) = some true := by
      decide +kernel
    obtain ⟨C, hC, hdies⟩ := exists_ok_and heval
    refine ⟨C, hC, fun h => ?_⟩
    rw [h.absent [97] (by decide)] at hdies
    cases hdies

/-! ## Perfect tables -/

/-- The three classes. -/
inductive Variant where
  | pearson
  | pearsonNP
  | pearson8

namespace Variant

/-- `new` of a class; `undef` is `none`. -/
def new [Scalar α] : Variant → (Nat → Nat → Nat) → (Nat → Bool) → Dict α → List String →
    Run (Option (Pearson α))
  | pearson, draws, inTime, dict, args => some <$> Pearson.new draws inTime dict args
  | pearsonNP, draws, inTime, dict, args => some <$> PearsonNP.new draws inTime dict args
  | pearson8, draws, inTime, dict, args => Pearson8.new draws inTime dict args

/-- `perfecthash` of a class. -/
def perfecthash [Scalar α] : Variant → Pearson α → Bytes → Run (Option α)
  | pearson => Pearson.perfecthash
  | pearsonNP => PearsonNP.perfecthash
  | pearson8 => Pearson8.perfecthash

end Variant

/-- The object of `Pearson8::new`, when there is one. -/
theorem new8_ok [Scalar α] {dict : Dict α}
    (h : Pearson8.new draws inTime dict args = .ok (some ph)) :
    ph.H.Perm (List.range 256) ∧ ph.C = none := by
  obtain ⟨⟨keys, values⟩, -, h⟩ := bind_eq_ok.mp h
  dsimp only at h
  split at h
  · cases h
  · obtain ⟨⟨H, c⟩, hsearch, h⟩ := bind_eq_ok.mp h
    dsimp only at h
    split at h
    · cases h
    · cases h
      exact ⟨(search_ok hsearch).1, rfl⟩

/-- `Pearson8::perfecthash` dies on every object of `Pearson8::new`: `hash` takes an entry of the
table for a reference. -/
theorem perfecthash8_error [Scalar α] (hperm : ph.H.Perm (List.range 256)) (key : Bytes) :
    ∃ e, Pearson8.perfecthash ph key = .error e := by
  obtain ⟨a, b, l, hH⟩ : ∃ a b l, ph.H = a :: b :: l := by
    have hlen := hperm.length_eq
    rw [List.length_range] at hlen
    match hH : ph.H, hlen with
    | a :: b :: l, _ => exact ⟨a, b, l, rfl⟩
  simp only [Pearson8.perfecthash, hH, List.map_cons, hash, bind, Except.bind]
  exact ⟨_, rfl⟩

theorem roundUp_pos (size turns i : Nat) : 0 < roundUp size turns i := by
  induction turns generalizing i with
  | zero => exact Nat.two_pow_pos i
  | succ turns ih =>
    unfold roundUp
    split
    · exact ih _
    · exact Nat.two_pow_pos i

/-- The object of a search that stopped with a perfect table has no collision lists. -/
theorem build_perfect {hsize maxcount : Nat → Nat} {keys : List Bytes} {ph : Pearson Int} {c : Cost}
    (hpos : ∀ n, 0 < hsize n) (hne : keys ≠ [])
    (h : build hsize maxcount draws inTime (.array keys) args = .ok ph)
    (hcost : cost (object ph.size ph.H) (pad keys) = .ok c) (hmax : c.max = 1) :
    (∀ key, hash (object ph.size ph.H) key = .ok (slot ph.size ph.H key)) ∧ ph.C = none ∧
      ph.keys = if (handleOpts args).has "-false-positives" then none else some (pad keys) := by
  obtain ⟨keys', values, hinit, hsize, hperm, ⟨c', hcost', hC⟩, hkeys⟩ := build_ok h
  cases hinit
  rw [hcost] at hcost'
  cases hcost'
  rw [if_neg (by omega)] at hC
  refine ⟨hash_object ?_ ?_, hC, hkeys⟩
  · apply List.ne_nil_of_length_pos
    rw [length_of_perm_range hperm]
    exact hpos _
  · rw [hsize]
    exact List.length_pos_iff.mpr (mt pad_eq_nil.mp hne)

/-- Without collision lists, `PearsonNP` takes the slot of a stored key for its index. -/
theorem perfecthashNP_iff {ph : Pearson Int} {k : Bytes} {i : Nat}
    (hhash : hash (object ph.size ph.H) k = .ok (slot ph.size ph.H k)) (hC : ph.C = none)
    (hkeys : ∀ keys, ph.keys = some keys → keys[i]? = some k) :
    PearsonNP.perfecthash ph k = .ok (some (i : Int)) ↔ slot ph.size ph.H k = i := by
  simp only [PearsonNP.perfecthash, hhash, hC, bind, Except.bind]
  split
  · rename_i keys hfp
    change Except.ok (if keyAt keys (slot ph.size ph.H k : Int) = k then
      some (slot ph.size ph.H k : Int) else none) = .ok (some (i : Int)) ↔ _
    constructor
    · intro h
      split at h
      · simpa using h
      · cases h
    · intro h
      rw [h, if_pos (keyAt_natCast (hkeys keys hfp))]
  · change Except.ok (some (slot ph.size ph.H k : Int)) = .ok (some (i : Int)) ↔ _
    simp

/-- If the search stops with a table that sends no two keys to one slot, only `PearsonNP` can
return the indices of the keys of an arrayref, and it does exactly when the slot of every key is
its index. -/
theorem returns_index_iff {variant : Variant} {keys : List Bytes} {ph : Pearson Int} {c : Cost}
    (hnew : variant.new draws inTime (.array keys) args = .ok (some ph))
    (hcost : cost (object ph.size ph.H) (pad keys) = .ok c) (hmax : c.max = 1) :
    (∀ (i : Nat) k, keys[i]? = some k → variant.perfecthash ph k = .ok (some (i : Int))) ↔
      variant = .pearsonNP ∧ ∀ (i : Nat) k, keys[i]? = some k → slot ph.size ph.H k = i := by
  have hne : keys ≠ [] := by
    rintro rfl
    rw [pad_eq_nil.mpr rfl] at hcost
    cases hcost
    cases hmax
  obtain ⟨k₀, hk₀⟩ : ∃ k, keys[0]? = some k :=
    ⟨_, List.getElem?_eq_getElem (List.length_pos_iff.mpr hne)⟩
  cases variant with
  | pearson =>
    simp only [reduceCtorEq, false_and, iff_false]
    intro hall
    obtain ⟨ph', hbuild, hph⟩ := map_eq_ok hnew
    cases hph
    obtain ⟨hhash, hC, -⟩ := build_perfect (fun _ => roundUp_pos _ _ _) hne hbuild hcost hmax
    have h := hall 0 k₀ hk₀
    simp only [Variant.perfecthash, Pearson.perfecthash, hhash, hC, bind, Except.bind] at h
    cases h
  | pearsonNP =>
    obtain ⟨ph', hbuild, hph⟩ := map_eq_ok hnew
    cases hph
    obtain ⟨hhash, hC, hkeys⟩ := build_perfect (fun _ => by decide) hne hbuild hcost hmax
    rw [eq_self, true_and]
    apply forall₃_congr
    intro i k hi
    apply perfecthashNP_iff (hhash k) hC
    intro keys' hkeys'
    rw [hkeys] at hkeys'
    split at hkeys'
    · cases hkeys'
    · cases hkeys'
      exact getElem?_pad hi
  | pearson8 =>
    simp only [reduceCtorEq, false_and, iff_false]
    intro hall
    obtain ⟨e, he⟩ := perfecthash8_error (α := Int) (new8_ok hnew).1 k₀
    have := hall 0 k₀ hk₀
    rw [Variant.perfecthash, he] at this
    cases this

/-- On one key every search stops with a perfect table. -/
theorem build_one {hsize maxcount : Nat → Nat} {k : Bytes} (hpos : ∀ n, 0 < hsize n)
    (draws : Nat → Nat → Nat) (inTime : Nat → Bool) :
    ∃ ph : Pearson Int, build hsize maxcount draws inTime (.array [k]) [] = .ok ph ∧
      ph.size = 1 ∧ ph.H ≠ [] ∧ ph.C = none ∧ ph.keys = some [k] ∧
      ∃ c, cost (object ph.size ph.H) [k] = .ok c ∧ c.max = 1 := by
  have hpad : pad [k] = [k] := if_neg (show ¬ endsIn000 1 by decide)
  have hinit : dictInit (.array [k]) = .ok ([k], ([] : List (Option Int))) := by
    rw [dictInit, hpad]
  obtain ⟨ph, hph⟩ := build_returns maxcount draws inTime [] hinit (by simp) hpos
  obtain ⟨keys, values, hinit', hsize, hperm, ⟨c, hcost, hC⟩, hkeys⟩ := build_ok hph
  rw [hinit] at hinit'
  cases hinit'
  have hH : ph.H ≠ [] := List.ne_nil_of_length_pos (by
    rw [length_of_perm_range hperm]
    exact hpos _)
  obtain ⟨c', hcost', hcounts⟩ := cost_eq hH (show 0 < ph.size from hsize ▸ Nat.one_pos) [k]
  rw [hcost] at hcost'
  cases hcost'
  have hle : c.max ≤ 1 := hcounts.max_le_one_iff.mpr (List.nodup_singleton _)
  have hne : c.max ≠ 0 := fun h => by
    have := (hcounts.max 0).mp (by omega) (slot ph.size ph.H k)
    simp at this
  rw [if_neg (by omega)] at hC
  exact ⟨ph, hph, hsize, hH, hC, hkeys, c, hcost, by omega⟩

/-- The keys `c`, `a` and `b`. -/
def cab : List Bytes := [[99], [97], [98]]

/-- Under the ordered table the slots of the three keys are their indexes. -/
theorem returns_index_iff_cab : ∃ ph : Pearson Int,
    Variant.pearsonNP.new (fun _ _ => 0) (fun _ => true) (.array cab) [] = .ok (some ph) ∧
      ∀ (i : Nat) k, cab[i]? = some k →
        Variant.pearsonNP.perfecthash ph k = .ok (some (i : Int)) := by
  have hinit : dictInit (.array cab) = .ok (cab, ([] : List (Option Int))) := rfl
  obtain ⟨ph, hph⟩ := build_returns (fun _ => 30) (fun _ _ => 0) (fun _ => true) [] hinit
    (by decide) fun _ => Nat.succ_pos 255
  have hnew : Variant.pearsonNP.new (fun _ _ => 0) (fun _ => true) (.array cab) [] =
      .ok (some ph) := by
    change some <$> build _ _ _ _ _ _ = _
    rw [hph]
    rfl
  have hH : ph.H = List.range 256 := H_of_build_zero hph hinit
  obtain ⟨keys, values, hinit', hsize, -, ⟨c, hcost, -⟩, -⟩ := build_ok hph
  cases hinit.symm.trans hinit'
  replace hsize : ph.size = 3 := hsize
  have hne : List.range 256 ≠ [] := by decide
  obtain ⟨c', hcost', hcounts⟩ := cost_eq hne (show 0 < 3 by decide) cab
  rw [hsize, hH, hcost'] at hcost
  cases hcost
  have hslots : cab.map (slot 3 (List.range 256)) = List.range 3 := by decide +kernel
  rw [hslots] at hcounts
  have hle : c.max ≤ 1 := hcounts.max_le_one_iff.mpr (by decide)
  have hge : ¬ c.max ≤ 0 := fun h => absurd ((hcounts.max 0).mp h 0) (by decide)
  rw [← hsize, ← hH] at hcost'
  refine ⟨ph, hnew, (returns_index_iff hnew hcost' (by omega)).mpr ⟨rfl, fun i k hi => ?_⟩⟩
  have hslot := congrArg (·[i]?) hslots
  have hlt : i < 3 := (List.getElem?_eq_some_iff.mp hi).1
  simp only [List.getElem?_map, hi, List.getElem?_range hlt] at hslot
  rw [hsize, hH]
  exact Option.some.inj hslot

/-- `Pearson` does not find the only key of a dictionary. -/
theorem not_returns_index_one : ∃ ph : Pearson Int,
    Pearson.new (fun _ i => i) (fun _ => true) (.array [[97]]) [] = .ok ph ∧
      (∃ c, cost (object ph.size ph.H) [[97]] = .ok c ∧ c.max = 1) ∧
      Pearson.perfecthash ph [97] = .ok none := by
  obtain ⟨ph, hph, hsize, hH, hC, hkeys, hc⟩ :=
    build_one (k := [97]) (fun _ => roundUp_pos _ _ _) (fun _ i => i) (fun _ => true)
  refine ⟨ph, hph, hc, ?_⟩
  simp only [Pearson.perfecthash, hash_object hH (show 0 < ph.size by omega), hC, bind, Except.bind]
  rfl

/-! ## Hashrefs -/

/-- The values of the keys are their positions in the key list. -/
def Positional (d : HashRef Int) : Prop :=
  ∀ k v, d.get k = some v → keyAt (pad d.sortedKeys) v = k

/-- The pairs of a hashref start with its keys and their values. -/
theorem keyValues_hash [Scalar α] {d : HashRef α} (hne : d.sortedKeys ≠ [])
    (hinit : dictInit (.hash d) = .ok (keys, values)) :
    ∃ rest, keyValues size keys values = d.sortedKeys.map (fun k => (k, d.get k)) ++ rest := by
  obtain ⟨rfl, hvalues⟩ := dictInit_hash hinit
  obtain ⟨extra, hpad⟩ : ∃ extra, pad d.sortedKeys = d.sortedKeys ++ extra := by
    unfold pad
    split
    · exact ⟨_, rfl⟩
    · exact ⟨[], (List.append_nil _).symm⟩
  have hor : valuesOr size values = values := by
    apply if_pos
    intro h
    rw [h] at hvalues
    exact hne (List.map_eq_nil_iff.mp (List.append_eq_nil_iff.mp hvalues.symm).1)
  rw [keyValues, hor, hpad, List.zipIdx_append, List.map_append]
  refine ⟨_, congrArg (· ++ _) (List.ext_getElem (by simp) fun i h1 h2 => ?_)⟩
  have hi : i < d.sortedKeys.length := by simpa using h2
  have hval : values[i]?.join = d.get d.sortedKeys[i] := by
    rw [hvalues, List.getElem?_append_left (by simpa using hi)]
    simp [hi]
  simp only [List.getElem_map, List.getElem_zipIdx, Nat.zero_add, hval]

/-- The first pair of a key of a hashref has its value. -/
theorem find?_keyValues_hash [Scalar α] {d : HashRef α} {v : α}
    (hinit : dictInit (.hash d) = .ok (keys, values)) (h : d.get key = some v) :
    (keyValues size keys values).find? (·.1 = key) = some (key, some v) := by
  have hmem : key ∈ d.sortedKeys := d.sortedKeys_perm.mem_iff.mpr (HashRef.mem_keys h)
  obtain ⟨rest, hrest⟩ := keyValues_hash (List.ne_nil_of_mem hmem) hinit
  have hnd : d.sortedKeys.Nodup := d.sortedKeys_perm.nodup_iff.mpr d.nodup
  have hfirst := find?_of_mem (l := d.sortedKeys.map fun k => (k, d.get k)) (k := key)
    (by simpa [Function.comp_def] using hnd) (List.mem_map.mpr ⟨key, hmem, rfl⟩)
  rw [hrest, List.find?_append, hfirst, h]
  rfl

/-- With stored keys, a key of a hashref gets its value from `Pearson` when two stored keys share a
slot and the value is the position of the key, else `undef`. -/
theorem perfecthash_hashref {d : HashRef Int} {ph : Pearson Int} {v : Int}
    (hnew : Pearson.new draws inTime (.hash d) args = .ok ph)
    (hfp : (handleOpts args).has "-false-positives" = false) (h : d.get key = some v) :
    Pearson.perfecthash ph key = .ok
      (if ¬ ((pad d.sortedKeys).map (slot ph.size ph.H)).Nodup ∧ keyAt (pad d.sortedKeys) v = key
        then some v else none) := by
  obtain ⟨keys, values, hinit, hsize, hperm, ⟨c, hcost, hC⟩, hkeys⟩ := build_ok hnew
  rw [hfp, if_neg (by decide)] at hkeys
  obtain ⟨hpad, -⟩ := dictInit_hash hinit
  have hpos : 0 < ph.size := by
    rw [hsize, hpad]
    exact List.length_pos_of_mem (HashRef.mem_pad_sortedKeys h)
  have hH : ph.H ≠ [] := List.ne_nil_of_length_pos (by
    rw [length_of_perm_range hperm]
    exact roundUp_pos _ _ _)
  obtain ⟨c', hcost', hcounts⟩ := cost_eq hH hpos keys
  rw [hcost] at hcost'
  cases hcost'
  have hiff := hcounts.max_le_one_iff
  rw [← hpad]
  simp only [Pearson.perfecthash, hash_object hH hpos, bind, Except.bind, hkeys]
  split at hC
  · rename_i hmax
    obtain ⟨C, hcoll, hC⟩ := hC
    rw [hC, Option.getD_some, assigned_of_find? hH hpos hcoll (find?_keyValues_hash hinit h)]
    have hshare : ¬ (keys.map (slot ph.size ph.H)).Nodup := fun hnd => by
      have := hiff.mpr hnd
      omega
    simp only [hshare, not_false_eq_true, true_and]
    rfl
  · rename_i hmax
    rw [hC, if_neg (fun hbad => hbad.1 (hiff.mp (by omega)))]
    rfl

/-- Built on a hashref of integers without `-false-positives`, `HanovPP` returns the value of every
key exactly when the values are positional, and `Pearson` exactly when moreover two stored keys
share a slot. -/
theorem hashref_iff {d : HashRef Int} (hd : ∀ k ∈ d.keys, (d.get k).isSome)
    (hfp : (handleOpts args).has "-false-positives" = false) :
    (∀ hash turns ph, HanovPP.new hash turns (.hash d) args = .ok ph →
      ((∀ k v, d.get k = some v → HanovPP.perfecthash hash ph k = .ok (some v)) ↔ Positional d)) ∧
    (∀ draws inTime ph, Pearson.new draws inTime (.hash d) args = .ok ph →
      ((∀ k v, d.get k = some v → Pearson.perfecthash ph k = .ok (some v)) ↔
        Positional d ∧ ¬ ((pad d.sortedKeys).map (slot ph.size ph.H)).Nodup)) := by
  refine ⟨fun hash turns ph hnew => forall₃_congr fun k v h => ?_, fun draws inTime ph hnew => ?_⟩
  · rw [HanovPP.perfecthash_hashref hnew hfp h]
    change (Except.ok (if keyAt (pad d.sortedKeys) v = k then some v else none) = _) ↔ _
    split <;> simp [*]
  · obtain ⟨k₀, hk₀⟩ : ∃ k, k ∈ d.keys := by
      obtain ⟨keys, values, hinit, -⟩ := build_ok hnew
      apply List.exists_mem_of_ne_nil _
      intro hnil
      simp [dictInit, hnil] at hinit
    obtain ⟨v₀, hv₀⟩ := Option.isSome_iff_exists.mp (hd k₀ hk₀)
    have heq (k : Bytes) (v : Int) (h : d.get k = some v) :
        Pearson.perfecthash ph k = .ok (some v) ↔
          ¬ ((pad d.sortedKeys).map (slot ph.size ph.H)).Nodup ∧
            keyAt (pad d.sortedKeys) v = k := by
      rw [perfecthash_hashref hnew hfp h]
      split <;> simp [*]
    constructor
    · intro hall
      exact ⟨fun k v h => ((heq k v h).mp (hall k v h)).2, ((heq _ _ hv₀).mp (hall _ _ hv₀)).1⟩
    · rintro ⟨hpos, hshare⟩ k v h
      exact (heq k v h).mpr ⟨hshare, hpos k v h⟩

/-- Three keys with their positions as values. -/
def threePositions : HashRef Int where
  entries := [([99], some 2), ([97], some 0), ([98], some 1)]
  nodup := by decide

theorem positional_threePositions : Positional threePositions := by
  intro k v h
  have hmem := HashRef.mem_of_get h
  simp only [threePositions, List.mem_cons, Prod.mk.injEq, Option.some.injEq, List.not_mem_nil,
    or_false] at hmem
  rcases hmem with ⟨rfl, rfl⟩ | ⟨rfl, rfl⟩ | ⟨rfl, rfl⟩ <;> decide

theorem hashref_iff_threePositions : ∃ ph, HanovPP.new HanovPP.fnv 20 (.hash threePositions) [] =
    .ok ph ∧ HanovPP.perfecthash HanovPP.fnv ph [98] = .ok (some 1) := by
  obtain ⟨ph, hph⟩ := exists_ok_of_isOk
    (show (HanovPP.new HanovPP.fnv 20 (.hash threePositions) []).isOk by decide +kernel)
  exact ⟨ph, hph, ((hashref_iff (by decide) (by decide)).1 _ _ _ hph).mpr
    positional_threePositions _ _ (by decide)⟩

/-- One key whose value is not its position. -/
def aFive : HashRef Int where
  entries := [([97], some 5)]
  nodup := by decide

/-- Neither class returns the value that the caller gave. -/
theorem not_hashref_aFive :
    (∃ ph, HanovPP.new HanovPP.fnv 20 (.hash aFive) [] = .ok ph ∧
      HanovPP.perfecthash HanovPP.fnv ph [97] = .ok none) ∧
    ∃ ph, Pearson.new (fun _ i => i) (fun _ => true) (.hash aFive) [] = .ok ph ∧
      Pearson.perfecthash ph [97] = .ok none := by
  constructor
  · obtain ⟨ph, hph⟩ := exists_ok_of_isOk
      (show (HanovPP.new HanovPP.fnv 20 (.hash aFive) []).isOk by decide +kernel)
    exact ⟨ph, hph, HanovPP.perfecthash_hashref hph (by decide)
      (show aFive.get [97] = some 5 by decide)⟩
  · obtain ⟨ph, hph⟩ := build_returns (fun size => size - 1) (fun _ i => i) (fun _ => true) []
      (show dictInit (.hash aFive) = .ok ([[97]], [some 5]) by decide) (by decide)
      (fun size => roundUp_pos size size 8)
    have hfive := perfecthash_hashref hph (by decide) (show aFive.get [97] = some 5 by decide)
    exact ⟨ph, hph, hfive.trans (by rw [if_neg fun h => absurd h.2 (by decide)])⟩

end PerfectHash.Pearson
