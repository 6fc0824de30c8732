import PerfectHash.Cmph.ChdPh.Mapping

/-! # The ordering step of CHD_PH

The buckets with items are sorted by their number of items, and the items are stored again in the
order of the buckets (`chdPhOrdering_spec`). -/

namespace PerfectHash.Cmph

open CountingSort

variable {nbuckets nitems maxBucketSize s b i position offset : Nat} {its : List ChdPhItem}
  {grp : Nat → List ChdPhItem} {buckets : List ChdPhBucket} {items items' : List ChdPhItem}
  {sortedLists : List ChdPhSortedList} {done rest ids : List Nat}

/-- The items at some place. -/
def HasItems (items : List ChdPhItem) (offset : Nat) (its : List ChdPhItem) : Prop :=
  ∀ (j : Nat) item, its[j]? = some item → items[offset + j]? = some item

/-- The buckets with some items, and where the items are. -/
structure Bucketed (grp : Nat → List ChdPhItem) (offset : Nat → Nat) (nbuckets : Nat)
    (buckets : List ChdPhBucket) (items : List ChdPhItem) : Prop where
  buckets : buckets = (List.range nbuckets).map fun b => ⟨offset b, (grp b).length⟩
  items : ∀ b < nbuckets, HasItems items (offset b) (grp b)

/-- The buckets that are not empty. -/
def nonEmpty (grp : Nat → List ChdPhItem) (bs : List Nat) : List Nat :=
  bs.filter fun b => (grp b).length ≠ 0

/-- The buckets with a number of items. -/
abbrev ofSize (grp : Nat → List ChdPhItem) (bs : List Nat) (s : Nat) : List Nat :=
  (nonEmpty grp bs).filter fun b => (grp b).length = s

/-- Where the list of the buckets with a number of items starts. -/
def firstOf (grp : Nat → List ChdPhItem) (nbuckets s : Nat) : Nat :=
  start (fun s => (ofSize grp (List.range nbuckets) s).length) s

theorem mem_nonEmpty {bs : List Nat} : b ∈ nonEmpty grp bs ↔ b ∈ bs ∧ (grp b).length ≠ 0 := by
  rw [nonEmpty, List.mem_filter, decide_eq_true_iff]

theorem mem_ofSize {bs : List Nat} :
    b ∈ ofSize grp bs s ↔ (b ∈ bs ∧ (grp b).length ≠ 0) ∧ (grp b).length = s := by
  rw [ofSize, List.mem_filter, mem_nonEmpty, decide_eq_true_iff]

theorem ofSize_zero (bs : List Nat) : ofSize grp bs 0 = [] :=
  List.eq_nil_iff_forall_not_mem.mpr fun _ hb => (mem_ofSize.mp hb).1.2 (mem_ofSize.mp hb).2

theorem nonEmpty_concat_zero (h : (grp b).length = 0) :
    nonEmpty grp (done ++ [b]) = nonEmpty grp done := by
  simp [nonEmpty, List.length_eq_zero_iff.mp h]

theorem nonEmpty_concat (h : (grp b).length ≠ 0) :
    nonEmpty grp (done ++ [b]) = nonEmpty grp done ++ [b] := by
  simp [nonEmpty, mt List.length_eq_zero_iff.mpr h]

theorem length_ofSize_le (grp : Nat → List ChdPhItem) (bs : List Nat) (s : Nat) :
    (ofSize grp bs s).length ≤ bs.length :=
  (List.length_filter_le _ _).trans (List.length_filter_le _ _)

/-! ## The sizes of the lists -/

/-- A bucket is counted or stored in the list of its size. -/
theorem ofSize_concat (h : (grp b).length ≠ 0) (s : Nat) : ofSize grp (done ++ [b]) s =
    if s = (grp b).length then ofSize grp done s ++ [b] else ofSize grp done s := by
  rw [ofSize, nonEmpty_concat h, List.filter_append]
  split_ifs with hs
  · simp [hs]
  · simp [Ne.symm hs]

theorem foldlM_countBucket (done rest : List Nat)
    (hsmall : ∀ b ∈ done ++ rest, (grp b).length ≤ maxBucketSize)
    (hlt : (done ++ rest).length < 2 ^ 32) (offset : Nat → Nat)
    (hlen : sortedLists.length = maxBucketSize + 1)
    (hlists : ∀ s ≤ maxBucketSize, sortedLists[s]? = some ⟨0, (ofSize grp done s).length⟩) :
    ∃ sortedLists', (rest.map fun b => (⟨offset b, (grp b).length⟩ : ChdPhBucket)).foldlM countBucket
        sortedLists = some sortedLists' ∧ sortedLists'.length = maxBucketSize + 1 ∧
      ∀ s ≤ maxBucketSize, sortedLists'[s]? = some ⟨0, (ofSize grp (done ++ rest) s).length⟩ := by
  induction rest generalizing done sortedLists with
  | nil =>
    rw [List.append_nil]
    exact ⟨sortedLists, rfl, hlen, hlists⟩
  | cons b rest ih =>
    have happend : done ++ b :: rest = done ++ [b] ++ rest := by rw [List.append_assoc]; rfl
    have hsize := hsmall b (List.mem_append_right _ List.mem_cons_self)
    rw [List.map_cons, List.foldlM_cons, countBucket]
    dsimp only
    rw [happend] at hsmall hlt ⊢
    by_cases h0 : (grp b).length = 0
    · rw [if_pos h0]
      refine ih _ hsmall hlt hlen fun s hs => ?_
      rw [hlists s hs, ofSize, ofSize, nonEmpty_concat_zero h0]
    · have hle := length_ofSize_le grp done (grp b).length
      have hsucc : u32 ((ofSize grp done (grp b).length).length + 1) =
          (ofSize grp done (grp b).length).length + 1 := by
        rw [List.length_append, List.length_append, List.length_singleton] at hlt
        exact u32_of_eq (by omega) (by push_cast; rfl)
      simp only [if_neg h0, hlists _ hsize, Option.bind_eq_bind, Option.bind_some, hsucc,
        write_of_lt (show (grp b).length < sortedLists.length by omega)]
      refine ih _ hsmall hlt (by rw [List.length_set, hlen]) fun s hs => ?_
      rw [List.getElem?_set, hlen, ofSize_concat h0]
      split_ifs with hbs hsb hbs' hsb'
      · rw [← hbs, List.length_append]
        rfl
      all_goals first | exact hlists s hs | omega

/-! ## The lists of buckets -/

/-- The sorted lists and the buckets when some buckets are stored. -/
abbrev Sorted (grp : Nat → List ChdPhItem) (offset : Nat → Nat) (nbuckets maxBucketSize : Nat)
    (done : List Nat) : List ChdPhSortedList → List ChdPhBucket → Prop :=
  Filled ChdPhSortedList.mk (fun b => (grp b).length) (fun b => (⟨offset b, b⟩ : ChdPhBucket))
    (maxBucketSize + 1) (fun s => (ofSize grp (List.range nbuckets) s).length) (nonEmpty grp done)

theorem firstOf_le (hsmall : ∀ b < nbuckets, (grp b).length ≤ maxBucketSize) :
    firstOf grp nbuckets (maxBucketSize + 1) ≤ nbuckets := by
  rw [firstOf, start_length_filter fun b hb => ?_]
  · exact (List.length_filter_le _ _).trans_eq List.length_range
  · exact Nat.lt_succ_of_le (hsmall b (List.mem_range.mp (mem_nonEmpty.mp hb).1))

theorem storeBucket_zero (h : (grp b).length = 0) (offset : Nat → Nat)
    (st : List ChdPhSortedList × List ChdPhBucket) :
    storeBucket st (⟨offset b, (grp b).length⟩, b) = some st := by
  rw [storeBucket]
  exact if_pos h

theorem storeBucket_spec {offset : Nat → Nat} (hb : b < nbuckets) (hne : (grp b).length ≠ 0)
    (hfront : done ++ [b] <+: List.range nbuckets)
    (hsmall : ∀ b < nbuckets, (grp b).length ≤ maxBucketSize) (hlt : nbuckets < 2 ^ 32)
    (hlen : buckets.length = nbuckets)
    (h : Sorted grp offset nbuckets maxBucketSize done sortedLists buckets) :
    ∃ sortedLists' buckets', storeBucket (sortedLists, buckets) (⟨offset b, (grp b).length⟩, b) =
        some (sortedLists', buckets') ∧ buckets'.length = nbuckets ∧
      Sorted grp offset nbuckets maxBucketSize (done ++ [b]) sortedLists' buckets' := by
  have hx : (grp b).length < maxBucketSize + 1 := Nat.lt_succ_of_le (hsmall b hb)
  have hroom (s : Nat) : (ofSize grp (done ++ [b]) s).length ≤
      (ofSize grp (List.range nbuckets) s).length :=
    ((hfront.sublist.filter _).filter _).length_le
  have hfirst := firstOf_le hsmall
  obtain ⟨hcell, hstored⟩ := h.insert (x := b) hx (fun s _ => by
    rw [← nonEmpty_concat hne, group, List.length_map]
    exact hroom s) (hfirst.trans_eq hlen.symm)
  rw [← nonEmpty_concat hne] at hstored
  have hcounter := h.counters _ hx
  have hle := hroom (grp b).length
  rw [ofSize_concat hne, if_pos rfl, List.length_append, List.length_singleton] at hle
  have hle' := length_ofSize_le grp (List.range nbuckets) (grp b).length
  rw [List.length_range] at hle'
  rw [group, List.length_map] at hcell hstored hcounter
  change start _ _ + (ofSize grp done (grp b).length).length < buckets.length at hcell
  have hposition : u32 ((start (fun s => (ofSize grp (List.range nbuckets) s).length) (grp b).length :
      Nat) + (ofSize grp done (grp b).length).length) = start (fun s => (ofSize grp
      (List.range nbuckets) s).length) (grp b).length + (ofSize grp done (grp b).length).length :=
    u32_of_eq (by omega) (by push_cast; rfl)
  have hsucc : u32 ((ofSize grp done (grp b).length).length + 1) =
      (ofSize grp done (grp b).length).length + 1 := u32_of_eq (by omega) (by push_cast; rfl)
  simp only [storeBucket, if_neg hne, hcounter, Option.bind_eq_bind, Option.bind_some, hposition,
    hsucc, write_of_lt hcell, write_of_lt (hx.trans_eq h.length.symm)]
  exact ⟨_, _, rfl, List.length_set.trans hlen, hstored⟩

theorem foldlM_storeBucket {offset : Nat → Nat} (hrange : done ++ rest = List.range nbuckets)
    (hsmall : ∀ b < nbuckets, (grp b).length ≤ maxBucketSize) (hlt : nbuckets < 2 ^ 32)
    (hlen : buckets.length = nbuckets)
    (h : Sorted grp offset nbuckets maxBucketSize done sortedLists buckets) :
    ∃ sortedLists' buckets',
      (rest.map fun b => ((⟨offset b, (grp b).length⟩ : ChdPhBucket), b)).foldlM storeBucket
        (sortedLists, buckets) = some (sortedLists', buckets') ∧ buckets'.length = nbuckets ∧
      Sorted grp offset nbuckets maxBucketSize (List.range nbuckets) sortedLists' buckets' := by
  induction rest generalizing done sortedLists buckets with
  | nil =>
    rw [List.append_nil] at hrange
    exact ⟨sortedLists, buckets, rfl, hlen, hrange ▸ h⟩
  | cons b rest ih =>
    have happend : done ++ [b] ++ rest = List.range nbuckets := by
      rw [List.append_assoc]
      exact hrange
    have hb : b < nbuckets := List.mem_range.mp
      (hrange ▸ List.mem_append_right _ List.mem_cons_self)
    rw [List.map_cons, List.foldlM_cons]
    by_cases h0 : (grp b).length = 0
    · rw [storeBucket_zero h0, Option.bind_eq_bind, Option.bind_some]
      exact ih happend hlen (by rwa [Sorted, nonEmpty_concat_zero h0])
    · obtain ⟨sortedLists₁, buckets₁, hstore, hlen₁, hsorted⟩ :=
        storeBucket_spec hb h0 ⟨rest, happend⟩ hsmall hlt hlen h
      rw [hstore, Option.bind_eq_bind, Option.bind_some]
      exact ih happend hlen₁ hsorted

theorem startSortedLists_spec {size : Nat → Nat} (hlen : sortedLists.length = maxBucketSize + 1)
    (hpos : 0 < maxBucketSize)
    (hlists : ∀ s < maxBucketSize + 1, sortedLists[s]? = some ⟨0, size s⟩)
    (hsize : start size (maxBucketSize + 1) < 2 ^ 32 ∧ size 0 = 0) :
    ∃ sortedLists', startSortedLists sortedLists = some sortedLists' ∧
      sortedLists'.length = maxBucketSize + 1 ∧
      ∀ s < maxBucketSize + 1, sortedLists'[s]? = some ⟨start size s, 0⟩ := by
  obtain ⟨list, lists, rfl⟩ := List.exists_cons_of_length_eq_add_one hlen
  obtain ⟨hlt, hzero⟩ := hsize
  rw [List.length_cons, Nat.add_right_cancel_iff] at hlen
  subst hlen
  have hfirst : list = ⟨0, 0⟩ := by
    have := hlists 0 (Nat.succ_pos _)
    rw [hzero] at this
    exact Option.some.inj this
  obtain ⟨hlen', hspec⟩ := startLists_spec ChdPhSortedList.mk ChdPhSortedList.size lists 0
    (fun s => size (s + 1)) (fun s hs => by
      have hlist := hlists (s + 1) (Nat.succ_lt_succ hs)
      rw [List.getElem?_cons_succ] at hlist
      rw [hlist]
      rfl) (by rwa [Nat.zero_add, ← Nat.zero_add (start _ _), ← hzero, ← start_succ'])
  refine ⟨_, if_neg (List.ne_nil_of_length_pos hpos), congrArg Nat.succ hlen', fun s hs => ?_⟩
  cases s with
  | zero => exact congrArg some hfirst
  | succ s =>
    rw [List.getElem?_cons_succ, hspec s (Nat.lt_of_succ_lt_succ hs), start_succ', hzero]

/-- The first two loops of the ordering step. -/
theorem sortLists_spec {offset : Nat → Nat} (h : Bucketed grp offset nbuckets buckets items)
    (hsmall : ∀ b < nbuckets, (grp b).length ≤ maxBucketSize) (hlt : nbuckets < 2 ^ 32)
    (hmax : maxBucketSize + 1 < 2 ^ 32) (hpos : 0 < maxBucketSize) :
    ∃ sortedLists₀ sortedLists₁ sortedLists' buckets',
      buckets.foldlM countBucket (List.replicate (u32 (maxBucketSize + 1)) ⟨0, 0⟩) =
        some sortedLists₀ ∧ startSortedLists sortedLists₀ = some sortedLists₁ ∧
      buckets.zipIdx.foldlM storeBucket (sortedLists₁, List.replicate buckets.length ⟨0, 0⟩) =
        some (sortedLists', buckets') ∧ buckets'.length = nbuckets ∧
      Sorted grp offset nbuckets maxBucketSize (List.range nbuckets) sortedLists' buckets' := by
  have hsize : u32 (maxBucketSize + 1) = maxBucketSize + 1 := u32_of_eq hmax (by push_cast; rfl)
  have hlen : buckets.length = nbuckets := by rw [h.buckets, List.length_map, List.length_range]
  have hzero : ∀ s ≤ maxBucketSize, (List.replicate (maxBucketSize + 1)
      (⟨0, 0⟩ : ChdPhSortedList))[s]? = some ⟨0, (ofSize grp [] s).length⟩ := fun s hs => by
    rw [List.getElem?_replicate, if_pos (Nat.lt_succ_of_le hs)]
    rfl
  obtain ⟨sortedLists₀, hcount, hlen₀, hlists⟩ := foldlM_countBucket [] (List.range nbuckets)
    (fun b hb => hsmall b (List.mem_range.mp hb)) (by rwa [List.nil_append, List.length_range])
    offset List.length_replicate hzero
  rw [List.nil_append] at hlists
  obtain ⟨sortedLists₁, hstart, hlen₁, hlists₁⟩ := startSortedLists_spec hlen₀ hpos
    (fun s hs => hlists s (Nat.le_of_lt_succ hs)) (by
      rw [← firstOf, ofSize_zero]
      exact ⟨(firstOf_le hsmall).trans_lt hlt, rfl⟩)
  have hzip : buckets.zipIdx = (List.range nbuckets).map fun b =>
      ((⟨offset b, (grp b).length⟩ : ChdPhBucket), b) := by
    refine List.ext_getElem? fun b => ?_
    rw [List.getElem?_zipIdx, h.buckets, List.getElem?_map, List.getElem?_map]
    rcases Nat.lt_or_ge b nbuckets with hb | hb
    · rw [List.getElem?_range hb, Nat.zero_add]
      rfl
    · rw [List.getElem?_eq_none (by rwa [List.length_range])]
      rfl
  obtain ⟨sortedLists', buckets', hstore, hlen', hsorted⟩ := foldlM_storeBucket
    (List.nil_append _) hsmall hlt (List.length_replicate (a := ⟨0, 0⟩))
    (Filled.nil hlen₁ hlists₁ _)
  refine ⟨sortedLists₀, sortedLists₁, sortedLists', buckets', ?_, hstart, ?_, hlen', hsorted⟩
  · rw [hsize, h.buckets]
    exact hcount
  · rw [hzip, hlen]
    exact hstore

theorem Sorted.list {offset : Nat → Nat}
    (h : Sorted grp offset nbuckets maxBucketSize (List.range nbuckets) sortedLists buckets)
    (hs : s ≤ maxBucketSize) : sortedLists[s]? =
      some ⟨firstOf grp nbuckets s, (ofSize grp (List.range nbuckets) s).length⟩ := by
  have hlist := h.counters s (Nat.lt_succ_of_le hs)
  rwa [group, List.length_map] at hlist

/-! ## The items in their new order -/

theorem copyItems_spec {out : List ChdPhItem} (hits : HasItems items offset its)
    (hlt : items.length < 2 ^ 32) (hout : out.length < 2 ^ 32)
    (hroom : position + its.length ≤ out.length) (k : Nat) (hk : k ≤ its.length) :
    ∃ out', (List.range k).foldlM (fun outputItems j => do
        write outputItems (u32 (position + j : Nat)) (← items[u32 (offset + j : Nat)]?)) out =
          some out' ∧ out'.length = out.length ∧ HasItems out' position (its.take k) ∧
      ∀ i < position, out'[i]? = out[i]? := by
  induction k with
  | zero => exact ⟨out, rfl, rfl, fun j item h => by simp at h, fun _ _ => rfl⟩
  | succ k ih =>
    obtain ⟨out', hrun, hlen, hitems, hfront⟩ := ih (Nat.le_of_succ_le hk)
    have hitem := hits k its[k] (List.getElem?_eq_getElem hk)
    have hin : offset + k < items.length := (List.getElem?_eq_some_iff.mp hitem).1
    have hread : u32 ((offset + k : Nat) : Int) = offset + k := u32_natCast (by omega)
    have hwrite : u32 ((position + k : Nat) : Int) = position + k := u32_natCast (by omega)
    refine ⟨out'.set (position + k) its[k], ?_, by rw [List.length_set, hlen], fun j item hj => ?_,
      fun i hi => ?_⟩
    · rw [List.range_succ, List.foldlM_append, hrun, Option.bind_eq_bind, Option.bind_some,
        List.foldlM_cons, hread, hwrite, hitem]
      simp only [Option.bind_eq_bind, Option.bind_some]
      rw [write_of_lt (by omega)]
      rfl
    · rw [List.getElem?_take] at hj
      split_ifs at hj with hjk
      rw [List.getElem?_set]
      split_ifs with hpos hin'
      · obtain rfl : k = j := by omega
        rw [← hj, List.getElem?_eq_getElem hk]
      · omega
      · exact hitems j item (by rw [List.getElem?_take, if_pos (by omega), hj])
    · rw [List.getElem?_set_ne (by omega), hfront i hi]

/-- The buckets and the items when the items of some buckets are moved. -/
structure Moved (grp : Nat → List ChdPhItem) (nitems : Nat) (buckets₀ : List ChdPhBucket)
    (i position : Nat) (buckets : List ChdPhBucket) (items' : List ChdPhItem) : Prop where
  length_buckets : buckets.length = buckets₀.length
  length : items'.length = nitems
  done : ∀ i' < i, ∀ b, buckets₀[i']?.map ChdPhBucket.bucketId = some b →
    ∃ offset, buckets[i']? = some ⟨offset, b⟩ ∧ HasItems items' offset (grp b) ∧
      offset + (grp b).length ≤ position
  rest : ∀ i' ≥ i, buckets[i']? = buckets₀[i']?

theorem Moved.moveBucket {buckets₀ : List ChdPhBucket}
    (h : Moved grp nitems buckets₀ i position buckets items') (hb : buckets₀[i]? = some ⟨offset, b⟩)
    (hits : HasItems items offset (grp b)) (hlt : items.length < 2 ^ 32) (hnitems : nitems < 2 ^ 32)
    (hroom : position + (grp b).length ≤ nitems) :
    ∃ buckets' items'', moveBucket items (grp b).length (position, buckets, items') i =
        some (position + (grp b).length, buckets', items'') ∧
      Moved grp nitems buckets₀ (i + 1) (position + (grp b).length) buckets' items'' := by
  have hbucket := (h.rest i (Nat.le_refl i)).trans hb
  have hi : i < buckets.length := (List.getElem?_eq_some_iff.mp hbucket).1
  obtain ⟨items'', hcopy, hlen, hmoved, hfront⟩ := copyItems_spec hits hlt
    (h.length.trans_lt hnitems) (hroom.trans_eq h.length.symm) _ (Nat.le_refl _)
  rw [List.take_length] at hmoved
  have hposition : u32 ((position + (grp b).length : Nat) : Int) = position + (grp b).length :=
    u32_natCast (by omega)
  refine ⟨buckets.set i ⟨position, b⟩, items'', ?_, by rw [List.length_set, h.length_buckets],
    hlen.trans h.length, fun i' hi' b' hb' => ?_, fun i' hi' => ?_⟩
  · simp only [Option.bind_eq_bind] at hcopy
    simp only [Cmph.moveBucket, hbucket, write_of_lt hi, hcopy, hposition, Option.bind_eq_bind,
      Option.bind_some]
    rfl
  · rcases Nat.eq_or_lt_of_le (Nat.le_of_lt_succ hi') with rfl | hlt'
    · rw [hb] at hb'
      cases hb'
      exact ⟨position, List.getElem?_set_self hi, hmoved, Nat.le_refl _⟩
    · obtain ⟨offset', hbucket', hitems', hle⟩ := h.done i' hlt' b' hb'
      refine ⟨offset', by rw [List.getElem?_set_ne (by omega), hbucket'], fun j item hj => ?_,
        hle.trans (Nat.le_add_right _ _)⟩
      have hj' := (List.getElem?_eq_some_iff.mp hj).1
      rw [hfront _ (by omega)]
      exact hitems' j item hj
  · rw [List.getElem?_set_ne (by omega)]
    exact h.rest i' (by omega)

/-- How many items the buckets with less than `s` items have. -/
def itemsBelow (grp : Nat → List ChdPhItem) (nbuckets s : Nat) : Nat :=
  start (fun s => s * (ofSize grp (List.range nbuckets) s).length) s

theorem foldlM_moveBucket {buckets₀ : List ChdPhBucket} {offset : Nat → Nat} (k j : Nat)
    (hk : j + k = (ofSize grp (List.range nbuckets) s).length)
    (hcells : ∀ (j : Nat) b, (ofSize grp (List.range nbuckets) s)[j]? = some b →
      buckets₀[firstOf grp nbuckets s + j]? = some ⟨offset b, b⟩)
    (hits : ∀ b < nbuckets, HasItems items (offset b) (grp b)) (hlt : items.length < 2 ^ 32)
    (hnitems : nitems < 2 ^ 32) (hroom : itemsBelow grp nbuckets (s + 1) ≤ nitems)
    (h : Moved grp nitems buckets₀ (firstOf grp nbuckets s + j)
      (itemsBelow grp nbuckets s + s * j) buckets items') :
    ∃ buckets' items'', (List.range' (firstOf grp nbuckets s + j) k).foldlM (moveBucket items s)
        (itemsBelow grp nbuckets s + s * j, buckets, items') =
          some (itemsBelow grp nbuckets (s + 1), buckets', items'') ∧
      Moved grp nitems buckets₀ (firstOf grp nbuckets (s + 1)) (itemsBelow grp nbuckets (s + 1))
        buckets' items'' := by
  induction k generalizing j buckets items' with
  | zero =>
    have hfirst : firstOf grp nbuckets (s + 1) = firstOf grp nbuckets s + j := by
      rw [firstOf, start_succ, ← hk]
      rfl
    have hbelow : itemsBelow grp nbuckets (s + 1) = itemsBelow grp nbuckets s + s * j := by
      rw [itemsBelow, start_succ, ← hk]
      rfl
    rw [hfirst, hbelow]
    exact ⟨buckets, items', rfl, h⟩
  | succ k ih =>
    have hj : j < (ofSize grp (List.range nbuckets) s).length := by omega
    have hget := List.getElem?_eq_getElem hj
    obtain ⟨⟨hrange, -⟩, hsize⟩ := mem_ofSize.mp (List.mem_of_getElem? hget)
    have hle : itemsBelow grp nbuckets s + s * j + s ≤ itemsBelow grp nbuckets (s + 1) := by
      rw [itemsBelow, itemsBelow, start_succ, Nat.add_assoc, ← Nat.mul_succ]
      exact Nat.add_le_add_left (Nat.mul_le_mul_left s hj) _
    obtain ⟨buckets₁, items₁, hmove, hmoved⟩ := h.moveBucket (hcells j _ hget)
      (hits _ (List.mem_range.mp hrange)) hlt hnitems (by rw [hsize]; exact hle.trans hroom)
    have hnext : itemsBelow grp nbuckets s + s * j + s = itemsBelow grp nbuckets s + s * (j + 1) := by
      rw [Nat.add_assoc, ← Nat.mul_succ]
    rw [hsize, hnext] at hmove hmoved
    obtain ⟨buckets', items'', hrun, hmoved'⟩ := ih (j + 1) (by omega) hmoved
    refine ⟨buckets', items'', ?_, hmoved'⟩
    rw [List.range'_succ, List.foldlM_cons, hmove]
    exact hrun

theorem foldlM_moveList {buckets₀ : List ChdPhBucket} {offset : Nat → Nat} (k s : Nat)
    (hk : s + k = maxBucketSize + 1)
    (hsorted : Sorted grp offset nbuckets maxBucketSize (List.range nbuckets) sortedLists buckets₀)
    (hits : ∀ b < nbuckets, HasItems items (offset b) (grp b)) (hlt : items.length < 2 ^ 32)
    (hnitems : nitems < 2 ^ 32) (hroom : itemsBelow grp nbuckets (maxBucketSize + 1) ≤ nitems)
    (h : Moved grp nitems buckets₀ (firstOf grp nbuckets s) (itemsBelow grp nbuckets s) buckets
      items') :
    ∃ position buckets' items'', (List.range' s k).foldlM (moveList items sortedLists)
        (itemsBelow grp nbuckets s, buckets, items') = some (position, buckets', items'') ∧
      Moved grp nitems buckets₀ (firstOf grp nbuckets (maxBucketSize + 1)) position buckets'
        items'' := by
  induction k generalizing s buckets items' with
  | zero =>
    obtain rfl : s = maxBucketSize + 1 := hk
    exact ⟨_, buckets, items', rfl, h⟩
  | succ k ih =>
    have hcells : ∀ (j : Nat) b, (ofSize grp (List.range nbuckets) s)[j]? = some b →
        buckets₀[firstOf grp nbuckets s + j]? = some ⟨offset b, b⟩ := fun j b hj =>
      hsorted.cells s j _ (by rw [group, List.getElem?_map, hj]; rfl)
    obtain ⟨buckets₁, items₁, hmove, hmoved⟩ := foldlM_moveBucket _ 0 (Nat.zero_add _) hcells hits
      hlt hnitems ((start_mono _ (by omega)).trans hroom) h
    obtain ⟨position, buckets', items'', hrun, hmoved'⟩ := ih (s + 1) (by omega) hmoved
    refine ⟨position, buckets', items'', ?_, hmoved'⟩
    rw [Nat.mul_zero, Nat.add_zero, Nat.add_zero] at hmove
    simp only [List.range'_succ, List.foldlM_cons, moveList, hsorted.list (show s ≤ maxBucketSize by
      omega), Option.bind_eq_bind, Option.bind_some, hmove]
    exact hrun

/-! ## The step -/

/-- What the ordering step leaves. -/
structure Ordered (grp : Nat → List ChdPhItem) (nbuckets maxBucketSize : Nat)
    (sortedLists : List ChdPhSortedList) (buckets : List ChdPhBucket) (items : List ChdPhItem) :
    Prop where
  length : buckets.length = nbuckets
  lists : ∀ s ≤ maxBucketSize, sortedLists[s]? =
    some ⟨firstOf grp nbuckets s, (ofSize grp (List.range nbuckets) s).length⟩
  cells : ∀ s ≤ maxBucketSize, ∀ (j : Nat) b, (ofSize grp (List.range nbuckets) s)[j]? = some b →
    ∃ offset, buckets[firstOf grp nbuckets s + j]? = some ⟨offset, b⟩ ∧
      HasItems items offset (grp b)

theorem chdPhOrdering_spec {offset : Nat → Nat} (h : Bucketed grp offset nbuckets buckets items)
    (hsmall : ∀ b < nbuckets, (grp b).length ≤ maxBucketSize) (hlt : nbuckets < 2 ^ 32)
    (hmax : maxBucketSize + 1 < 2 ^ 32) (hpos : 0 < maxBucketSize)
    (hitems : items.length < 2 ^ 32) (hnitems : nitems < 2 ^ 32)
    (htotal : start (fun b => (grp b).length) nbuckets ≤ nitems) :
    ∃ sortedLists buckets' items', chdPhOrdering buckets items nitems maxBucketSize =
        some (sortedLists, buckets', items') ∧ items'.length = nitems ∧
      Ordered grp nbuckets maxBucketSize sortedLists buckets' items' := by
  obtain ⟨sortedLists₀, sortedLists₁, sortedLists', buckets₀, hcount, hstart, hstore, hlen,
    hsorted⟩ := sortLists_spec h hsmall hlt hmax hpos
  have hroom : itemsBelow grp nbuckets (maxBucketSize + 1) ≤ nitems := by
    rw [itemsBelow, start_mul_length_filter fun b hb =>
      Nat.lt_succ_of_le (hsmall b (List.mem_range.mp (mem_nonEmpty.mp hb).1))]
    refine le_trans ?_ htotal
    exact (List.filter_sublist.map _).sum_le_sum fun _ _ => Nat.zero_le _
  have hfirst : firstOf grp nbuckets 1 = 0 := by
    rw [firstOf, start_succ, ofSize_zero]
    rfl
  have hbelow : itemsBelow grp nbuckets 1 = 0 := by
    rw [itemsBelow, start_succ, Nat.zero_mul]
    rfl
  have hmoved₀ : Moved grp nitems buckets₀ (firstOf grp nbuckets 1) (itemsBelow grp nbuckets 1)
      buckets₀ (List.replicate nitems ⟨0, 0⟩) := by
    rw [hfirst]
    exact ⟨rfl, List.length_replicate, fun i' hi' => absurd hi' (Nat.not_lt_zero i'),
      fun _ _ => rfl⟩
  obtain ⟨position, buckets', items', hmove, hmoved⟩ := foldlM_moveList maxBucketSize 1
    (Nat.add_comm _ _) hsorted h.items hitems hnitems hroom hmoved₀
  rw [hbelow] at hmove
  refine ⟨sortedLists', buckets', items', ?_, hmoved.length, hmoved.length_buckets.trans hlen,
    fun s hs => ?_, fun s hs j b hj => ?_⟩
  · simp only [chdPhOrdering, hcount, hstart, hstore, hmove, Option.bind_eq_bind, Option.bind_some]
    rfl
  · exact hsorted.list hs
  · have hbucket := hsorted.cells s j ⟨offset b, b⟩ (by rw [group, List.getElem?_map, hj]; rfl)
    have hj' := (List.getElem?_eq_some_iff.mp hj).1
    have hend : firstOf grp nbuckets s + j < firstOf grp nbuckets (maxBucketSize + 1) :=
      (Nat.add_lt_add_left hj' _).trans_le (start_add_le _ (Nat.lt_succ_of_le hs))
    obtain ⟨offset', hb, hits, -⟩ := hmoved.done _ hend b (by
      rw [firstOf, hbucket]
      rfl)
    exact ⟨offset', hb, hits⟩

end PerfectHash.Cmph
