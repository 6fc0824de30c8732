import PerfectHash.Cmph.ChdPh
import PerfectHash.Lib.CountingSort

/-! # The mapping step of CHD_PH

When no two keys have the same bucket and the same item, the mapping step ends with the items of
each bucket one after the other (`chdPhMapping_spec`). -/

namespace PerfectHash.Cmph

open CountingSort

variable {nbuckets n m calls iterations maxBucketSize offset : Nat} {hl : HashState}
  {keys : List Bytes} {buckets : List ChdPhBucket} {items : List ChdPhItem}
  {all done rest : List ChdPhMapItem} {mapItem : ChdPhMapItem} {hashfunc : CmphHash}
  {rand : Nat → Nat}

/-! ## The items of the keys -/

/-- The item that is stored for a map item. -/
def ChdPhMapItem.item (mapItem : ChdPhMapItem) : ChdPhItem := { f := mapItem.f, h := mapItem.h }

/-- What a key with the given hashes is mapped to, when there are buckets and bins. -/
def keyMapItem (nbuckets n : Nat) (hl : Hashes) : ChdPhMapItem where
  f := hl.h1.toNat % n
  h := hl.h2.toNat % (n - 1) + 1
  bucketNum := hl.h0.toNat % nbuckets

theorem chdPhMapItem_eq (hnb : 0 < nbuckets) (hn : 1 < n) (hlt : n < 2 ^ 32) (hl : Hashes) :
    chdPhMapItem nbuckets n hl = some (keyMapItem nbuckets n hl) := by
  have hsub : u32 ((n : Int) - 1) = n - 1 := u32_of_eq (by omega) (by omega)
  have hmod := Nat.mod_lt hl.h2.toNat (show 0 < n - 1 by omega)
  have hsucc : u32 ((hl.h2.toNat % (n - 1) : Nat) + 1) = hl.h2.toNat % (n - 1) + 1 :=
    u32_of_eq (by omega) (by push_cast; rfl)
  rw [chdPhMapItem, hsub, if_neg (by omega), hsucc]
  rfl

/-- What the keys are mapped to. -/
def chdPhItems (nbuckets n : Nat) (hl : HashState) (keys : List Bytes) : List ChdPhMapItem :=
  keys.map fun key => keyMapItem nbuckets n (hashVector hl key)

/-- The items of a bucket. -/
abbrev itemsOf (mapItems : List ChdPhMapItem) (b : Nat) : List ChdPhItem :=
  group ChdPhMapItem.bucketNum ChdPhMapItem.item mapItems b

/-- An item is in its bucket already if the map item is there. -/
theorem item_mem_itemsOf : mapItem.item ∈ itemsOf done mapItem.bucketNum ↔ mapItem ∈ done := by
  refine mem_group.trans ⟨fun ⟨x, hx, hb, hitem⟩ => ?_, fun h => ⟨mapItem, h, rfl, rfl⟩⟩
  obtain ⟨f, h, b⟩ := x
  cases hb
  cases hitem
  exact hx

theorem length_itemsOf_le (mapItems : List ChdPhMapItem) (b : Nat) :
    (itemsOf mapItems b).length ≤ mapItems.length := by
  rw [itemsOf, group, List.length_map]
  exact List.length_filter_le _ _

theorem length_itemsOf_concat (mapItems : List ChdPhMapItem) (x : ChdPhMapItem) :
    (itemsOf (mapItems ++ [x]) x.bucketNum).length = (itemsOf mapItems x.bucketNum).length + 1 := by
  rw [itemsOf, group_concat_self, List.length_append]
  rfl

/-! ## The sizes of the buckets -/

/-- The sizes that are counted, with arbitrary starts. -/
def Counted (nbuckets : Nat) (done : List ChdPhMapItem) (buckets : List ChdPhBucket) : Prop :=
  buckets.length = nbuckets ∧
    ∀ b < nbuckets, ∃ start, buckets[b]? = some ⟨start, (itemsOf done b).length⟩

theorem chdPhGrow_spec (h : Counted nbuckets done buckets) (hx : mapItem.bucketNum < nbuckets)
    (hlt : done.length + 1 < 2 ^ 32) (maxBucketSize : Nat) :
    ∃ buckets', chdPhGrow (buckets, maxBucketSize) mapItem =
        some (buckets', max maxBucketSize (itemsOf (done ++ [mapItem]) mapItem.bucketNum).length) ∧
      Counted nbuckets (done ++ [mapItem]) buckets' := by
  obtain ⟨hlen, hcounted⟩ := h
  obtain ⟨start, hbucket⟩ := hcounted _ hx
  have hle := length_itemsOf_le done mapItem.bucketNum
  have hsucc : u32 ((itemsOf done mapItem.bucketNum).length + 1) =
      (itemsOf (done ++ [mapItem]) mapItem.bucketNum).length := by
    rw [length_itemsOf_concat]
    exact u32_of_eq (by omega) (by push_cast; rfl)
  rw [chdPhGrow, hbucket, Option.bind_eq_bind, Option.bind_some]
  dsimp only
  rw [hsucc, write_of_lt (hx.trans_eq hlen.symm)]
  refine ⟨_, congrArg (fun size => some (_, size)) ?_, List.length_set.trans hlen, fun b hb => ?_⟩
  · rw [Nat.max_def]
    split_ifs <;> omega
  · rw [List.getElem?_set, hlen]
    split_ifs with hbx
    · exact ⟨start, by rw [hbx]⟩
    · rw [itemsOf, group_concat_ne (Ne.symm hbx)]
      exact hcounted b hb

theorem foldlM_chdPhGrow (rest : List ChdPhMapItem) (h : Counted nbuckets done buckets)
    (hmax : ∀ b < nbuckets, (itemsOf done b).length ≤ maxBucketSize)
    (hrest : ∀ x ∈ rest, x.bucketNum < nbuckets) (hlt : (done ++ rest).length < 2 ^ 32)
    (hle : maxBucketSize ≤ (done ++ rest).length) :
    ∃ buckets' maxBucketSize',
      rest.foldlM chdPhGrow (buckets, maxBucketSize) = some (buckets', maxBucketSize') ∧
      Counted nbuckets (done ++ rest) buckets' ∧
      (∀ b < nbuckets, (itemsOf (done ++ rest) b).length ≤ maxBucketSize') ∧
      maxBucketSize' ≤ (done ++ rest).length := by
  induction rest generalizing done buckets maxBucketSize with
  | nil =>
    rw [List.append_nil] at hle ⊢
    exact ⟨buckets, maxBucketSize, rfl, h, hmax, hle⟩
  | cons x rest ih =>
    obtain ⟨hx, hrest⟩ := List.forall_mem_cons.mp hrest
    have happend : done ++ x :: rest = done ++ [x] ++ rest := by rw [List.append_assoc]; rfl
    rw [happend] at hlt hle ⊢
    have hlen : (done ++ [x]).length ≤ (done ++ [x] ++ rest).length :=
      (List.sublist_append_left _ _).length_le
    have hdone : done.length + 1 < 2 ^ 32 := List.length_append.symm.trans_lt (hlen.trans_lt hlt)
    obtain ⟨buckets₁, hgrow, hcounted⟩ := chdPhGrow_spec h hx hdone maxBucketSize
    rw [List.foldlM_cons, hgrow, Option.bind_eq_bind, Option.bind_some]
    refine ih hcounted (fun b hb => ?_) hrest hlt (Nat.max_le.mpr ⟨hle, ?_⟩)
    · rcases eq_or_ne b x.bucketNum with rfl | hbx
      · exact Nat.le_max_right _ _
      · rw [itemsOf, group_concat_ne hbx]
        exact (hmax b hb).trans (Nat.le_max_left _ _)
    · exact (length_itemsOf_le _ _).trans hlen

theorem counted_clean (h : buckets.length = nbuckets) :
    Counted nbuckets [] (chdPhBucketClean buckets) := by
  refine ⟨(List.length_map _).trans h, fun b hb => ?_⟩
  rw [← h] at hb
  refine ⟨buckets[b].itemsList, ?_⟩
  rw [chdPhBucketClean, List.getElem?_map, List.getElem?_eq_getElem hb]
  rfl

/-! ## The places of the buckets -/

theorem startLists_spec {γ : Type} (mk : Nat → Nat → γ) (sizeOf : γ → Nat) (lists : List γ)
    (offset : Nat) (size : Nat → Nat)
    (hlists : ∀ b < lists.length, (lists[b]?).map sizeOf = some (size b))
    (hlt : offset + start size lists.length < 2 ^ 32) :
    (startLists mk sizeOf offset lists).length = lists.length ∧
      ∀ b < lists.length, (startLists mk sizeOf offset lists)[b]? =
        some (mk (offset + start size b) 0) := by
  induction lists generalizing offset size with
  | nil => exact ⟨rfl, nofun⟩
  | cons list lists ih =>
    have hlist : sizeOf list = size 0 := Option.some.inj (hlists 0 (Nat.succ_pos _))
    rw [List.length_cons, start_succ'] at hlt
    have hsum : u32 ((offset : Int) + sizeOf list) = offset + size 0 :=
      u32_of_eq (by omega) (by push_cast [hlist]; rfl)
    obtain ⟨hlen, hspec⟩ := ih (offset + size 0) (fun b => size (b + 1))
      (fun b hb => hlists (b + 1) (Nat.succ_lt_succ hb)) (by omega)
    rw [startLists, hsum]
    refine ⟨congrArg Nat.succ hlen, fun b hb => ?_⟩
    cases b with
    | zero => rfl
    | succ b =>
      rw [List.getElem?_cons_succ, hspec b (Nat.lt_of_succ_lt_succ hb), start_succ',
        Nat.add_assoc]

/-! ## The items of the buckets -/

/-- The buckets and the items when some items are stored. -/
abbrev Stored (nbuckets : Nat) (all done : List ChdPhMapItem) : List ChdPhBucket →
    List ChdPhItem → Prop :=
  Filled ChdPhBucket.mk ChdPhMapItem.bucketNum ChdPhMapItem.item nbuckets
    (fun b => (itemsOf all b).length) done

/-- The loop of `chd_ph_bucket_insert` over the items of a bucket. -/
theorem anyM_items (q : ChdPhItem → Bool) {its : List ChdPhItem} (offset : Nat)
    (h : ∀ (j : Nat) item, its[j]? = some item → items[offset + j]? = some item) :
    (List.range' offset its.length).anyM (fun i => do
      let item ← items[i]?
      return q item) = some (its.any q) := by
  induction its generalizing offset with
  | nil => rfl
  | cons item its ih =>
    have hfirst : items[offset]? = some item := h 0 item rfl
    have hrest := ih (offset + 1) fun j item' hj => by
      rw [Nat.add_assoc, Nat.add_comm 1]
      exact h (j + 1) item' hj
    rw [List.length_cons, List.range'_succ, List.anyM, hfirst, hrest, List.any_cons]
    cases hq : q item <;> simp [hq]

theorem any_itemsOf : ((itemsOf done mapItem.bucketNum).any fun item =>
    decide (item.f = mapItem.f ∧ item.h = mapItem.h)) = decide (mapItem ∈ done) := by
  rw [Bool.eq_iff_iff, List.any_eq_true, decide_eq_true_iff, ← item_mem_itemsOf]
  constructor
  · rintro ⟨⟨f, h⟩, hitem, hdec⟩
    obtain ⟨rfl, rfl⟩ := of_decide_eq_true hdec
    exact hitem
  · exact fun h => ⟨_, h, decide_eq_true ⟨rfl, rfl⟩⟩

theorem chdPhBucketInsert_spec (h : Stored nbuckets (done ++ mapItem :: rest) done buckets items)
    (hx : mapItem.bucketNum < nbuckets)
    (hmem : ∀ x ∈ done ++ mapItem :: rest, x.bucketNum < nbuckets)
    (hlen : items.length = (done ++ mapItem :: rest).length) (hlt : items.length < 2 ^ 32) :
    ∃ buckets' items', chdPhBucketInsert buckets items mapItem =
        some (decide (mapItem ∉ done), buckets', items') ∧
      buckets'.length = nbuckets ∧ items'.length = items.length ∧ (mapItem ∉ done →
        Stored nbuckets (done ++ mapItem :: rest) (done ++ [mapItem]) buckets' items') := by
  have hfind := anyM_items (fun item => decide (item.f = mapItem.f ∧ item.h = mapItem.h)) _
    (h.cells mapItem.bucketNum)
  rw [any_itemsOf] at hfind
  rw [chdPhBucketInsert, h.counters _ hx, Option.bind_eq_bind, Option.bind_some]
  dsimp only
  rw [hfind, Option.bind_eq_bind, Option.bind_some]
  by_cases hdone : mapItem ∈ done
  · refine ⟨buckets, items, ?_, h.length, rfl, absurd hdone⟩
    rw [if_pos (decide_eq_true hdone), decide_eq_false (not_not.mpr hdone)]
    rfl
  have hroom (b : Nat) : (itemsOf (done ++ [mapItem]) b).length ≤
      (itemsOf (done ++ mapItem :: rest) b).length := by
    rw [itemsOf, itemsOf, group, group, List.length_map, List.length_map]
    exact ((List.append_sublist_append_left done).mpr
      ((List.nil_sublist rest).cons_cons mapItem)).filter _ |>.length_le
  have hcells : start (fun b => (itemsOf (done ++ mapItem :: rest) b).length) nbuckets =
      items.length := by
    rw [hlen, ← start_length_filter hmem]
    simp only [itemsOf, group, List.length_map]
  obtain ⟨hcell, hstored⟩ := h.insert hx (fun b _ => hroom b) hcells.le
  rw [if_neg (by simpa using hdone), write_of_lt hcell, Option.bind_eq_bind, Option.bind_some,
    write_of_lt (hx.trans_eq h.length.symm), decide_eq_true hdone]
  have hsucc : u32 ((itemsOf done mapItem.bucketNum).length + 1) =
      (itemsOf done mapItem.bucketNum).length + 1 := by
    have := length_itemsOf_le (done ++ mapItem :: rest) mapItem.bucketNum
    have := hroom mapItem.bucketNum
    rw [length_itemsOf_concat] at this
    exact u32_of_eq (by omega) (by push_cast; rfl)
  rw [hsucc]
  exact ⟨_, _, rfl, hstored.length, List.length_set, fun _ => hstored⟩

theorem chdPhInsertAll_spec (done rest : List ChdPhMapItem)
    (h : Stored nbuckets (done ++ rest) done buckets items)
    (hmem : ∀ x ∈ done ++ rest, x.bucketNum < nbuckets)
    (hlen : items.length = (done ++ rest).length) (hlt : items.length < 2 ^ 32)
    (hdone : done.Nodup) :
    ∃ ok buckets' items', chdPhInsertAll rest buckets items = some (ok, buckets', items') ∧
      buckets'.length = nbuckets ∧ items'.length = items.length ∧
      (ok = true ↔ (done ++ rest).Nodup) ∧
      (ok = true → Stored nbuckets (done ++ rest) (done ++ rest) buckets' items') := by
  induction rest generalizing done buckets items with
  | nil =>
    rw [List.append_nil] at h ⊢
    exact ⟨true, buckets, items, rfl, h.length, rfl, iff_of_true rfl hdone, fun _ => h⟩
  | cons x rest ih =>
    obtain ⟨buckets₁, items₁, hrun, hlen₁, hitems₁, hstored⟩ := chdPhBucketInsert_spec h
      (hmem x (List.mem_append_right _ List.mem_cons_self)) hmem hlen hlt
    rw [chdPhInsertAll, hrun, Option.bind_eq_bind, Option.bind_some]
    by_cases hx : x ∈ done
    · refine ⟨false, buckets₁, items₁, by simp [hx], hlen₁, hitems₁,
        iff_of_false nofun fun hnodup => ?_, nofun⟩
      exact List.disjoint_of_nodup_append hnodup hx List.mem_cons_self
    · have happend : done ++ x :: rest = done ++ [x] ++ rest := by rw [List.append_assoc]; rfl
      have hstored := hstored hx
      rw [happend] at hstored hmem hlen ⊢
      obtain ⟨ok, buckets', items', hrun', hlen', hitems', hok⟩ := ih _ hstored hmem
        (hitems₁.trans hlen) (hitems₁.trans_lt hlt)
        (List.Nodup.append hdone (List.nodup_singleton x) (by simpa using hx))
      exact ⟨ok, buckets', items', by simpa [hx] using hrun', hlen', hitems'.trans hitems₁, hok⟩

/-! ## The step -/

/-- The items of an attempt. -/
def chdPhAttempt (nbuckets n : Nat) (hashfunc : CmphHash) (rand : Nat → Nat) (keys : List Bytes)
    (calls : Nat) : List ChdPhMapItem :=
  chdPhItems nbuckets n (seededHash keys.length (rand calls) hashfunc) keys

/-- What a successful mapping step leaves. -/
structure ChdPhMapped.Good (nbuckets n : Nat) (keys : List Bytes) (s : ChdPhMapped) : Prop where
  nodup : (chdPhItems nbuckets n s.hl keys).Nodup
  stored : Stored nbuckets (chdPhItems nbuckets n s.hl keys) (chdPhItems nbuckets n s.hl keys)
    s.buckets s.items
  length : s.items.length = keys.length
  le_max : ∀ b < nbuckets, (itemsOf (chdPhItems nbuckets n s.hl keys) b).length ≤ s.maxBucketSize
  max_le : s.maxBucketSize ≤ keys.length

theorem mapM_chdPhMapItem (hnb : 0 < nbuckets) (hn : 1 < n) (hn32 : n < 2 ^ 32) (hl : HashState)
    (keys : List Bytes) : (keys.mapM fun key => chdPhMapItem nbuckets n (hashVector hl key)) =
      some (chdPhItems nbuckets n hl keys) := by
  simp only [chdPhMapItem_eq hnb hn hn32]
  exact List.mapM_pure

theorem bucketNum_lt (hnb : 0 < nbuckets) :
    ∀ x ∈ chdPhItems nbuckets n hl keys, x.bucketNum < nbuckets := by
  intro x hx
  obtain ⟨key, -, rfl⟩ := List.mem_map.mp hx
  exact Nat.mod_lt _ hnb

/-- The counted sizes give the places of the buckets. -/
theorem Counted.stored_nil (h : Counted nbuckets all buckets)
    (hmem : ∀ x ∈ all, x.bucketNum < nbuckets) (hlt : all.length < 2 ^ 32)
    (items : List ChdPhItem) :
    Stored nbuckets all [] (startLists ChdPhBucket.mk ChdPhBucket.size 0 buckets) items := by
  obtain ⟨rfl, hcounted⟩ := h
  have hstart : start (fun b => (itemsOf all b).length) buckets.length = all.length := by
    rw [← start_length_filter hmem]
    simp only [itemsOf, group, List.length_map]
  obtain ⟨hlen, hplaces⟩ := startLists_spec ChdPhBucket.mk ChdPhBucket.size buckets 0
    (fun b => (itemsOf all b).length)
    (fun b hb => by obtain ⟨start, hbucket⟩ := hcounted b hb; rw [hbucket]; rfl)
    (by rwa [hstart, Nat.zero_add])
  refine Filled.nil hlen (fun b hb => ?_) items
  rw [hplaces b hb, Nat.zero_add]

theorem chdPhMappingLoop_spec (hashfunc : CmphHash) (rand : Nat → Nat) (calls : Nat)
    (hkeys : keys ≠ []) (hlt : keys.length < 2 ^ 32) (hnb : 0 < nbuckets) (hn : 1 < n)
    (hn32 : n < 2 ^ 32) (hbuckets : buckets.length = nbuckets) (hitems : items.length = keys.length)
    (hmax : maxBucketSize ≤ keys.length) (hpos : 0 < iterations) :
    ∃ res, chdPhMappingLoop nbuckets n hashfunc rand keys iterations calls buckets items
        maxBucketSize = some res ∧
      (res = none ↔ ∀ k < iterations,
        ¬ (chdPhAttempt nbuckets n hashfunc rand keys (calls + k)).Nodup) ∧
      ∀ s, res = some s → s.Good nbuckets n keys := by
  induction iterations generalizing calls buckets items maxBucketSize with
  | zero => cases hpos
  | succ iterations ih =>
    generalize hall : chdPhAttempt nbuckets n hashfunc rand keys calls = all
    have hlen : all.length = keys.length := hall ▸ List.length_map _
    have hmem : ∀ x ∈ all, x.bucketNum < nbuckets := hall ▸ bucketNum_lt hnb
    obtain ⟨buckets₁, max₁, hgrow, hcounted, hle, hmax₁⟩ := foldlM_chdPhGrow all
      (counted_clean hbuckets) (fun b _ => Nat.zero_le maxBucketSize) hmem
      (by rwa [List.nil_append, hlen]) (by rwa [List.nil_append, hlen])
    rw [List.nil_append] at hcounted hle hmax₁
    obtain ⟨ok, buckets₂, items₂, hinsert, hlen₂, hitems₂, hok, hstored⟩ :=
      chdPhInsertAll_spec [] all
        (hcounted.stored_nil hmem (hlen.trans_lt hlt) items) hmem
        (hitems.trans hlen.symm) (hitems.trans_lt hlt) List.nodup_nil
    rw [List.nil_append] at hok hstored
    rw [chdPhMappingLoop, hashStateNew_eq (List.length_pos_of_ne_nil hkeys)]
    simp only [Option.bind_eq_bind, Option.bind_some, mapM_chdPhMapItem hnb hn hn32]
    rw [show chdPhItems nbuckets n (seededHash keys.length (rand calls) hashfunc) keys = all
      from hall]
    simp only [hgrow, hinsert, Option.bind_some]
    cases ok with
    | true =>
      refine ⟨_, rfl, iff_of_false nofun fun h => h 0 hpos (hall ▸ hok.mp rfl), ?_⟩
      rintro s ⟨⟩
      subst hall
      exact ⟨hok.mp rfl, hstored rfl, hitems₂.trans hitems, hle, hmax₁.trans_eq hlen⟩
    | false =>
      have hdup : ¬ all.Nodup := mt hok.mpr Bool.false_ne_true
      rw [if_neg Bool.false_ne_true]
      rcases Nat.eq_zero_or_pos iterations with rfl | hpos'
      · refine ⟨none, rfl, iff_of_true rfl fun k hk => ?_, nofun⟩
        obtain rfl : k = 0 := by omega
        exact hall ▸ hdup
      · obtain ⟨res, hrun, hnone, hsome⟩ := ih (calls + 1) hlen₂ (hitems₂.trans hitems)
          (hmax₁.trans_eq hlen) hpos'
        rw [if_neg hpos'.ne']
        refine ⟨res, hrun, hnone.trans ?_, hsome⟩
        simp only [Nat.forall_lt_succ_left, Nat.add_zero, hall, hdup, not_false_eq_true, true_and,
          Nat.add_assoc, Nat.add_comm 1]

/-- The mapping step fails exactly if in each attempt two keys have the same bucket and the same
item. -/
theorem chdPhMapping_spec (hashfunc : CmphHash) (rand : Nat → Nat) (calls : Nat)
    (hkeys : keys ≠ []) (hlt : keys.length < 2 ^ 32) (hnb : 0 < nbuckets) (hn : 1 < n)
    (hn32 : n < 2 ^ 32) (hbuckets : buckets.length = nbuckets)
    (hitems : items.length = keys.length) :
    ∃ res, chdPhMapping nbuckets n hashfunc rand keys calls buckets items = some res ∧
      (res = none ↔ ∀ k < 1000,
        ¬ (chdPhAttempt nbuckets n hashfunc rand keys (calls + k)).Nodup) ∧
      ∀ s, res = some s → s.Good nbuckets n keys :=
  chdPhMappingLoop_spec hashfunc rand calls hkeys hlt hnb hn hn32 hbuckets hitems (Nat.zero_le _)
    (by decide)

end PerfectHash.Cmph
