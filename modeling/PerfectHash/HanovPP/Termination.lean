import PerfectHash.HanovPP.Lookup
import PerfectHash.HanovPP.Fnv

/-! # When `new` terminates

`new` terminates exactly when every bucket of two or more keys that its first loop reaches has a
good seed. `Seedable` says this of the keys alone, without the tables: from the largest bucket
down, the least seed up to a bound that sends the keys of the bucket to distinct slots which no
earlier bucket took. For FNV the bound is `2 ^ 32`, after which the seeds repeat.

FNV does not always have such a seed. The keys of one bucket of an even number of buckets agree in
their lowest bit under every seed (`fnv_mod_two_eq`), so at most half of the slots are within
their reach. -/

namespace PerfectHash.HanovPP

section
variable (hash : Bytes → Nat → Nat) (size : Nat) (keys : List Bytes)

/-- The seeds up to `bound` that send the keys of bucket `b` to distinct slots outside `taken`. -/
def freshSeeds (bound : Nat) (taken : List Nat) (b : Nat) : Set Nat :=
  {d | 1 ≤ d ∧ d ≤ bound ∧ ((bucket hash size keys b).map fun k => hash k d % size).Nodup ∧
    ∀ k ∈ bucket hash size keys b, hash k d % size ∉ taken}

/-- The buckets of `sorted` that have two or more keys get their least fresh seeds one after the
other. -/
def Seedable (bound : Nat) : List Nat → List Nat → Prop
  | [], _ => True
  | b :: sorted, taken =>
    (bucket hash size keys b).length ≤ 1 ∨
      ∃ d, IsLeast (freshSeeds hash size keys bound taken b) d ∧
        Seedable bound sorted (taken ++ (bucket hash size keys b).map fun k => hash k d % size)

/-- The states in which the first loop of `new` looks at its next bucket. -/
inductive Reached (dict : Bytes → Option α) : List Nat → Tables α → Prop
  | start : Reached dict (sortBuckets size (fillBuckets hash size keys))
      { G := List.replicate size 0, V := List.replicate size none }
  | place (h : Reached dict (b :: sorted) t) (hmany : 2 ≤ (bucket hash size keys b).length)
      (hd : FirstSeed hash size t.V (bucket hash size keys b) d) :
      Reached dict sorted
        { G := t.G.set b d, V := SlotTable.fill t.V (seats hash size keys dict d b) }

/-- The slots in `taken` are those that hold a value. -/
def Taken (taken : List Nat) (V : List (Option α)) : Prop :=
  V.length = size ∧ ∀ x < size, SlotTable.get V x = none ↔ x ∉ taken

end

variable {hash : Bytes → Nat → Nat} {size bound d : Nat} {keys : List Bytes}
  {dict : Bytes → Option α} {taken sorted : List Nat} {t : Tables α} {V : List (Option α)}

/-- Seeds beyond the bound act like seeds below it. -/
def Periodic (hash : Bytes → Nat → Nat) (bound : Nat) : Prop :=
  ∀ d, 1 ≤ d → ∃ d', 1 ≤ d' ∧ d' ≤ bound ∧ ∀ key, hash key d = hash key d'

theorem periodic_fnv : Periodic fnv (2 ^ 32) := fun _ hd => exists_seed_le hd

/-! ## Good seeds and fresh seeds -/

theorem goodSeed_iff (hsize : 0 < size) (hV : Taken size taken V) :
    GoodSeed hash size V (bucket hash size keys b) d ↔
      ((bucket hash size keys b).map fun k => hash k d % size).Nodup ∧
        ∀ k ∈ bucket hash size keys b, hash k d % size ∉ taken := by
  constructor
  · exact fun h => ⟨h.nodup, fun k hk => (hV.2 _ (Nat.mod_lt _ hsize)).mp (h.empty k hk)⟩
  · exact fun h => ⟨h.1, fun k hk => (hV.2 _ (Nat.mod_lt _ hsize)).mpr (h.2 k hk)⟩

/-- The fresh seeds are the good seeds up to the bound. -/
theorem mem_freshSeeds (hsize : 0 < size) (hV : Taken size taken V) :
    d ∈ freshSeeds hash size keys bound taken b ↔
      d ≤ bound ∧ 1 ≤ d ∧ GoodSeed hash size V (bucket hash size keys b) d := by
  rw [goodSeed_iff hsize hV]
  exact and_left_comm

/-- The least fresh seed is the first good seed, if that is within the bound. -/
theorem isLeast_freshSeeds_iff (hsize : 0 < size) (hV : Taken size taken V)
    (hfirst : FirstSeed hash size V (bucket hash size keys b) d) :
    IsLeast (freshSeeds hash size keys bound taken b) d' ↔ d' = d ∧ d ≤ bound := by
  obtain ⟨hgood, hleast⟩ := hfirst
  constructor
  · rintro ⟨hd', hleast'⟩
    obtain ⟨hle, hgood'⟩ := (mem_freshSeeds hsize hV).mp hd'
    have hdd' : d ≤ d' := hleast hgood'
    have hd'd : d' ≤ d := hleast' ((mem_freshSeeds hsize hV).mpr ⟨hdd'.trans hle, hgood⟩)
    exact ⟨Nat.le_antisymm hd'd hdd', hdd'.trans hle⟩
  · rintro ⟨rfl, hle⟩
    exact ⟨(mem_freshSeeds hsize hV).mpr ⟨hle, hgood⟩,
      fun x hx => hleast ((mem_freshSeeds hsize hV).mp hx).2⟩

/-- The first good seed of a bucket is its least fresh seed. -/
theorem firstSeed_iff (hsize : 0 < size) (hperiod : Periodic hash bound)
    (hV : Taken size taken V) :
    FirstSeed hash size V (bucket hash size keys b) d ↔
      IsLeast (freshSeeds hash size keys bound taken b) d := by
  constructor
  · intro hfirst
    obtain ⟨d', hd', hle, heq⟩ := hperiod d hfirst.1.1
    refine (isLeast_freshSeeds_iff hsize hV hfirst).mpr ⟨rfl, (hfirst.2 ⟨hd', ?_⟩).trans hle⟩
    have hgood := hfirst.1.2
    rw [goodSeed_iff hsize hV] at hgood ⊢
    simpa only [heq] using hgood
  · rintro ⟨hd, hleast⟩
    obtain ⟨hbound, hgood⟩ := (mem_freshSeeds hsize hV).mp hd
    refine ⟨hgood, fun d' hd' => ?_⟩
    rcases Nat.le_total d' bound with hle | hle
    · exact hleast ((mem_freshSeeds hsize hV).mpr ⟨hle, hd'⟩)
    · exact hbound.trans hle

/-- No slot is taken in an empty table. -/
theorem Taken.start : Taken size [] (List.replicate size (none : Option α)) :=
  ⟨List.length_replicate, fun x _ => by simp [SlotTable.get_replicate]⟩

/-- After a bucket is placed, its slots are taken too. -/
theorem Taken.fill (hV : Taken size taken V) (hsize : 0 < size)
    (hall : ∀ k ∈ keys, (dict k).isSome) (hd : 1 ≤ d)
    (hgood : GoodSeed hash size V (bucket hash size keys b) d) :
    Taken size (taken ++ (bucket hash size keys b).map fun k => hash k d % size)
      (SlotTable.fill V (seats hash size keys dict d b)) := by
  refine ⟨by rw [SlotTable.length_fill, hV.1], fun x hx => ?_⟩
  rw [List.mem_append, not_or, ← hV.2 x hx]
  have hfst : (seats hash size keys dict d b).map Prod.fst =
      ((bucket hash size keys b).map fun k => hash k d % size).reverse := by
    rw [map_fst_seats, map_entrySlot_natCast hd]
  by_cases hmem : x ∈ (bucket hash size keys b).map fun k => hash k d % size
  · obtain ⟨k, hk, rfl⟩ := List.mem_map.mp hmem
    have hseat : SlotTable.get (SlotTable.fill V (seats hash size keys dict d b))
        (hash k d % size) = dict k := by
      rw [← entrySlot_natCast hd]
      refine SlotTable.get_fill_of_mem ?_ (fun p hp => ?_) (mem_seats.mpr ⟨k, hk, rfl⟩)
      · rw [hfst, List.nodup_reverse]
        exact hgood.nodup
      · obtain ⟨k, -, rfl⟩ := mem_seats.mp hp
        rw [hV.1, entrySlot_natCast hd]
        exact Nat.mod_lt _ hsize
    rw [hseat]
    have := hall k (mem_bucket.mp hk).1
    constructor
    · intro hnone
      rw [hnone] at this
      contradiction
    · exact fun h => absurd hmem h.2
  · rw [SlotTable.get_fill_of_notMem (by rwa [hfst, List.mem_reverse])]
    exact ⟨fun h => ⟨h, hmem⟩, fun h => h.1⟩

/-! ## The loop over the buckets -/

/-- More turns do not change a loop that returned. -/
theorem placeBuckets_mono {buckets : List (List Bytes)} {r : List Nat × Tables α}
    (h : placeBuckets hash dict size buckets turns sorted t = .ok r) (hle : turns ≤ turns') :
    placeBuckets hash dict size buckets turns' sorted t = .ok r := by
  induction sorted generalizing t with
  | nil => exact h
  | cons b sorted ih =>
    simp only [placeBuckets] at h ⊢
    split at h
    · rwa [if_pos ‹_›]
    · rw [if_neg ‹_›]
      split at h
      · cases h
      · rename_i s hs
        rw [searchSeed_mono hs hle]
        exact ih h

/-- The loop returns exactly when the buckets are seedable. -/
theorem placeBuckets_returns_iff (hsize : 0 < size) (hperiod : Periodic hash bound)
    (hall : ∀ k ∈ keys, (dict k).isSome) (hlt : ∀ b ∈ sorted, b < size)
    (hV : Taken size taken t.V) :
    (∃ turns r, placeBuckets hash dict size (fillBuckets hash size keys) turns sorted t = .ok r) ↔
      Seedable hash size keys bound sorted taken := by
  induction sorted generalizing t taken with
  | nil => exact ⟨fun _ => trivial, fun _ => ⟨0, _, rfl⟩⟩
  | cons b sorted ih =>
    have hb : b < size := hlt b List.mem_cons_self
    have hlt := fun c hc => hlt c (List.mem_cons_of_mem _ hc)
    by_cases hone : (bucket hash size keys b).length ≤ 1
    · refine ⟨fun _ => .inl hone, fun _ => ⟨0, (b :: sorted, t), ?_⟩⟩
      simp only [placeBuckets, getD_fillBuckets hb, if_pos hone]
    have hmany : 2 ≤ (bucket hash size keys b).length := by omega
    constructor
    · rintro ⟨turns, r, h⟩
      cases hs : searchSeed hash size t.V (bucket hash size keys b) turns ⟨1, 0, []⟩ with
      | error e =>
        simp only [placeBuckets, getD_fillBuckets hb, if_neg hone, hs] at h
        cases h
      | ok s =>
        obtain ⟨hfirst, -⟩ := searchSeed_ok .first hs
        rw [placeBuckets_place hb hmany hs] at h
        have hV' := hV.fill hsize hall hfirst.1.1 hfirst.1.2
        exact .inr ⟨s.d, (firstSeed_iff hsize hperiod hV).mp hfirst, (ih hlt hV').mp ⟨_, _, h⟩⟩
    · rintro (h | ⟨d, hd, hrest⟩)
      · exact absurd h hone
      have hfirst := (firstSeed_iff hsize hperiod hV).mpr hd
      obtain ⟨turns, s, hs⟩ := searchSeed_returns_iff.mpr ⟨d, hfirst.1⟩
      obtain ⟨hfirst', -⟩ := searchSeed_ok .first hs
      obtain rfl : d = s.d := hfirst.unique hfirst'
      have hV' := hV.fill hsize hall hfirst.1.1 hfirst.1.2
      obtain ⟨turns', r, hr⟩ := (ih (t := { G := t.G.set b s.d, V := _ }) hlt hV').mpr hrest
      refine ⟨max turns turns', r, ?_⟩
      rw [placeBuckets_place hb hmany (searchSeed_mono hs (Nat.le_max_left ..))]
      exact placeBuckets_mono hr (Nat.le_max_right ..)

/-- Every bucket of two or more keys that the loop reaches has a good seed exactly when the buckets
are seedable. -/
theorem reached_goodSeed_iff (hsize : 0 < size) (hperiod : Periodic hash bound)
    (hall : ∀ k ∈ keys, (dict k).isSome) :
    (∀ b sorted t, Reached hash size keys dict (b :: sorted) t →
      2 ≤ (bucket hash size keys b).length →
      ∃ d, 1 ≤ d ∧ GoodSeed hash size t.V (bucket hash size keys b) d) ↔
    Seedable hash size keys bound (sortBuckets size (fillBuckets hash size keys)) [] := by
  constructor
  · intro h
    have main (sorted t taken) (hr : Reached hash size keys dict sorted t)
        (hV : Taken size taken t.V) : Seedable hash size keys bound sorted taken := by
      induction sorted generalizing t taken with
      | nil => trivial
      | cons b sorted ih =>
        by_cases hone : (bucket hash size keys b).length ≤ 1
        · exact .inl hone
        have hmany : 2 ≤ (bucket hash size keys b).length := by omega
        obtain ⟨turns, s, hs⟩ := searchSeed_returns_iff.mpr (h b sorted t hr hmany)
        obtain ⟨hd, -⟩ := searchSeed_ok .first hs
        exact .inr ⟨s.d, (firstSeed_iff hsize hperiod hV).mp hd,
          ih _ _ (hr.place hmany hd) (hV.fill hsize hall hd.1.1 hd.1.2)⟩
    exact main _ _ _ .start .start
  · intro h b sorted t hr hmany
    have main {sorted t} (hr : Reached hash size keys dict sorted t) :
        ∃ taken, Taken size taken t.V ∧ Seedable hash size keys bound sorted taken := by
      induction hr with
      | start => exact ⟨[], .start, h⟩
      | place _ hmany hd ih =>
        obtain ⟨taken, hV, hone | ⟨d, hd', hrest⟩⟩ := ih
        · omega
        · obtain rfl := hd.unique ((firstSeed_iff hsize hperiod hV).mpr hd')
          exact ⟨_, hV.fill hsize hall hd.1.1 hd.1.2, hrest⟩
    obtain ⟨taken, hV, hone | ⟨d, hd, -⟩⟩ := main hr
    · omega
    · exact ⟨d, ((firstSeed_iff hsize hperiod hV).mpr hd).1⟩

/-! ## The constructor -/

theorem indexHash_isSome [Scalar α] {k : Bytes} (h : k ∈ keys) :
    (indexHash (α := α) keys k).isSome := by
  obtain ⟨i, hi⟩ := List.mem_iff_getElem?.mp h
  set l : List (Bytes × Option α) :=
    keys.zipIdx.map fun p => (p.1, some (Scalar.ofInt p.2)) with hl
  have hmem : (k, some (Scalar.ofInt (i : Int))) ∈ l :=
    List.mem_map.mpr ⟨(k, i), List.mem_iff_getElem?.mpr ⟨i, by simp [hi]⟩, rfl⟩
  change (hashOfList l k).isSome
  unfold hashOfList
  cases hfind : l.reverse.find? (·.1 = k) with
  | none =>
    have := List.find?_eq_none.mp hfind _ (List.mem_reverse.mpr hmem)
    simp at this
  | some e =>
    obtain ⟨p, -, rfl⟩ := List.mem_map.mp (List.mem_reverse.mp (List.mem_of_find?_eq_some hfind))
    rfl

theorem tables_returns_iff (hsize : 0 < keys.length) (hperiod : Periodic hash bound)
    (hall : ∀ k ∈ keys, (dict k).isSome) :
    (∃ turns t, tables hash turns keys dict = .ok t) ↔
      Seedable hash keys.length keys bound
        (sortBuckets keys.length (fillBuckets hash keys.length keys)) [] := by
  rw [← placeBuckets_returns_iff
    (t := ⟨List.replicate keys.length 0, List.replicate keys.length none⟩) hsize hperiod hall
    (fun b => mem_sortBuckets.mp) .start]
  apply exists_congr
  intro turns
  unfold tables
  dsimp only
  split
  · rename_i e he
    simp [he]
  · rename_i rest t he
    simp [he]

theorem new_array_returns {keys : List Bytes} {args : List String} :
    (∃ turns ph, new (α := Int) hash turns (.array keys) args = .ok ph) ↔
      ∃ turns t, tables (α := Int) hash turns (pad keys) (indexHash (pad keys)) = .ok t := by
  apply exists_congr
  intro turns
  change (∃ ph, (tables hash turns (pad keys) (indexHash (pad keys)) >>= _) = .ok ph) ↔ _
  cases tables (α := Int) hash turns (pad keys) (indexHash (pad keys)) with
  | error e => simp [bind, Except.bind]
  | ok t => simp [bind, Except.bind, pure, Except.pure]

/-- `new` terminates on an arrayref: every bucket of two or more keys that its first loop reaches
has a seed that sends its keys to distinct free slots, and `new` returns. -/
def Terminates (keys : List Bytes) (args : List String) : Prop :=
  (∃ turns ph, new (α := Int) fnv turns (.array keys) args = .ok ph) ∧
    ∀ b sorted t, Reached fnv (pad keys).length (pad keys) (indexHash (α := Int) (pad keys))
      (b :: sorted) t → 2 ≤ (bucket fnv (pad keys).length (pad keys) b).length →
      ∃ d, 1 ≤ d ∧ GoodSeed fnv (pad keys).length t.V
        (bucket fnv (pad keys).length (pad keys) b) d

/-- `new` terminates exactly when the buckets are seedable with seeds up to `2 ^ 32`. -/
theorem terminates_iff_seedable {keys : List Bytes} {args : List String} :
    Terminates keys args ↔ Seedable fnv (pad keys).length (pad keys) (2 ^ 32)
      (sortBuckets (pad keys).length (fillBuckets fnv (pad keys).length (pad keys))) [] := by
  have hall : ∀ k ∈ pad keys, (indexHash (α := Int) (pad keys) k).isSome :=
    fun _ => indexHash_isSome
  rcases Nat.eq_zero_or_pos (pad keys).length with h0 | hpos
  · have hnil : keys = [] := pad_eq_nil.mp (List.length_eq_zero_iff.mp h0)
    subst hnil
    refine ⟨fun _ => trivial, fun _ => ⟨⟨0, _, rfl⟩, fun b sorted t _ h => ?_⟩⟩
    rw [pad_eq_nil.mpr rfl] at h
    cases h
  · rw [Terminates, reached_goodSeed_iff hpos periodic_fnv hall, new_array_returns,
      tables_returns_iff hpos periodic_fnv hall, and_self]

/-! ## The lowest bit of the hash -/

private theorem two_mul_length_le {l : List Nat} {n r : Nat} (hnd : l.Nodup) (heven : 2 ∣ n)
    (h : ∀ x ∈ l, x < n ∧ x % 2 = r) : 2 * l.length ≤ n := by
  have hhalf : (l.map (· / 2)).Nodup := by
    apply (List.nodup_map_iff_inj_on hnd).mpr
    intro x hx y hy hxy
    have := h x hx
    have := h y hy
    omega
  have hsub : l.map (· / 2) ⊆ List.range (n / 2) := by
    intro y hy
    obtain ⟨x, hx, rfl⟩ := List.mem_map.mp hy
    have := h x hx
    exact List.mem_range.mpr (by omega)
  have := (hhalf.subperm hsub).length_le
  rw [List.length_map, List.length_range] at this
  omega

/-- The buckets of two or more keys can be put into two groups, neither of which has more than half
of all keys. -/
def Halvable (hash : Bytes → Nat → Nat) (size : Nat) (keys : List Bytes) : Prop :=
  ∃ group : Nat → Bool, ∀ r, 2 * (keys.countP fun k =>
    2 ≤ (bucket hash size keys (hash k 0 % size)).length ∧ group (hash k 0 % size) = r) ≤ size

private theorem mod_two_eq_toNat {n : Nat} {r : Bool} (h : decide (n % 2 = 1) = r) :
    n % 2 = r.toNat := by
  cases r with
  | false =>
    have := of_decide_eq_false h
    exact Nat.mod_two_ne_one.mp this
  | true => exact of_decide_eq_true h

/-- The slots of the keys of one bucket agree in their lowest bit. -/
theorem Complete.slotOf_mod_two {t : Tables Int} {size : Nat}
    (hc : Complete fnv size keys (indexHash keys) t) (heven : 2 ∣ size) (hpos : 0 < size)
    (hmulti : 2 ≤ (bucket fnv size keys (fnv k 0 % size)).length)
    (h : fnv k 0 % size = fnv k' 0 % size) :
    slotOf fnv size t.G k % 2 = slotOf fnv size t.G k' % 2 := by
  have hseed := (hc.entry _ (Nat.mod_lt (fnv k 0) hpos)).multi hmulti
  obtain ⟨d, hd⟩ := Int.eq_ofNat_of_zero_le (Int.le_of_lt hseed)
  have hone : 1 ≤ d := by omega
  rw [slotOf, slotOf, ← h, hd, entrySlot_natCast hone, entrySlot_natCast hone,
    Nat.mod_mod_of_dvd _ heven, Nat.mod_mod_of_dvd _ heven]
  exact fnv_mod_two_eq heven h d

/-- If the number of keys is even, `new` returns only when the buckets of two or more keys can be
put into two groups of at most half of the keys each, those with even and those with odd slots. -/
theorem halvable_of_new {keys : List Bytes} {ph : HanovPP Int}
    (hnew : new fnv turns (.array keys) args = .ok ph) (heven : 2 ∣ (pad keys).length) :
    Halvable fnv (pad keys).length (pad keys) := by
  obtain ⟨keys', values, hinit, ht, -⟩ := new_ok hnew
  cases hinit
  rcases Nat.eq_zero_or_pos (pad keys).length with h0 | hpos
  · rw [List.length_eq_zero_iff] at h0
    rw [h0]
    exact ⟨fun _ => true, fun r => Nat.le_refl 0⟩
  have hc := tables_complete (List.ne_nil_of_length_pos hpos) ht
  set slot := slotOf fnv (pad keys).length ph.G
  refine ⟨fun b => slot ((bucket fnv (pad keys).length (pad keys) b).headD []) % 2 = 1,
    fun r => ?_⟩
  rw [List.countP_eq_length_filter, ← List.length_map slot]
  refine two_mul_length_le (r := r.toNat) ?_ heven fun x hx => ?_
  · apply (List.nodup_map_iff_inj_on (hc.nodup.filter _)).mpr
    intro k hk k' hk' h
    exact hc.slot_inj (List.mem_of_mem_filter hk) (List.mem_of_mem_filter hk') h
  · obtain ⟨k, hk, rfl⟩ := List.mem_map.mp hx
    obtain ⟨hmulti, hgroup⟩ := of_decide_eq_true (List.mem_filter.mp hk).2
    obtain ⟨k₀, ks, hk₀⟩ := List.exists_cons_of_length_pos (Nat.zero_lt_of_lt hmulti)
    simp only [hk₀, List.headD_cons] at hgroup
    have hfirst := (mem_bucket.mp (hk₀ ▸ List.mem_cons_self)).2
    exact ⟨hc.slotOf_lt hpos k, (hc.slotOf_mod_two heven hpos hmulti hfirst.symm).trans
      (mod_two_eq_toNat hgroup)⟩

/-- Then no bucket of two or more keys has more than half of them. -/
theorem Halvable.two_mul_length_bucket_le (h : Halvable hash size keys)
    (hmany : 2 ≤ (bucket hash size keys b).length) :
    2 * (bucket hash size keys b).length ≤ size := by
  obtain ⟨group, h⟩ := h
  refine le_trans (Nat.mul_le_mul_left 2 ?_) (h (group b))
  rw [bucket, ← List.countP_eq_length_filter]
  refine List.countP_mono_left fun k _ hk => ?_
  obtain rfl := of_decide_eq_true hk
  exact decide_eq_true ⟨hmany, rfl⟩

/-- The keys `a` and `c` are in one bucket of two, and no seed tells their slots apart. -/
theorem not_returns_ac :
    ¬ ∃ turns ph, new (α := Int) fnv turns (.array [[97], [99]]) [] = .ok ph := by
  rintro ⟨turns, ph, h⟩
  have hhalf := halvable_of_new h (by decide)
  have hmany : (bucket fnv 2 [[97], [99]] 0).length = 2 ∨
      (bucket fnv 2 [[97], [99]] 1).length = 2 := by decide +kernel
  change Halvable fnv 2 [[97], [99]] at hhalf
  rcases hmany with hmany | hmany
  all_goals
    have := hhalf.two_mul_length_bucket_le (Nat.le_of_eq hmany.symm)
    omega

end PerfectHash.HanovPP
