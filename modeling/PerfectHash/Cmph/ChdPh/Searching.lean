import PerfectHash.Cmph.Bitbool
import PerfectHash.Cmph.ChdPh.Ordering

/-! # The searching step of CHD_PH

A probe places all items of a bucket into free bins or leaves the bins as they were
(`placeBucketProbe_spec`). When the step succeeds, every bucket has a displacement with which its
items are in bins of their own (`placeBuckets2_spec`). -/

namespace PerfectHash.Cmph

open BitString CountingSort

variable {n nbuckets maxBucketSize maxProbes s b i first curr offset probe0Num probe1Num : Nat}
  {its : List ChdPhItem} {grp : Nat → List ChdPhItem} {items : List ChdPhItem}
  {buckets : List ChdPhBucket} {occupTable : List (BitVec 32)} {dispTable : List Nat}
  {sortedLists : List ChdPhSortedList} {S done kept rest todo : List Nat} {t : ChdPhTables}

/-! ## Bins -/

/-- The bins that are taken. -/
def Occupied (occupTable : List (BitVec 32)) (S : List Nat) : Prop :=
  ∀ q, (bits occupTable)[q]? = some true ↔ q ∈ S

theorem Occupied.congr {S' : List Nat} (h : Occupied occupTable S) (hS : ∀ q, q ∈ S ↔ q ∈ S') :
    Occupied occupTable S' := fun q => (h q).trans (hS q)

theorem Occupied.getBit32 (h : Occupied occupTable S) {q : Nat} (hq : q < 32 * occupTable.length) :
    getBit32 occupTable q = some (decide (q ∈ S)) := by
  have hlt : q < (bits occupTable).length := by rwa [length_bits]
  have hq' := h q
  rw [getBit32_eq, List.getElem?_eq_getElem hlt] at *
  rw [Option.some.injEq] at hq' ⊢
  rw [Bool.eq_iff_iff, decide_eq_true_iff, hq']

theorem Occupied.setBit32 (h : Occupied occupTable S) {q : Nat} (hq : q < 32 * occupTable.length) :
    ∃ occupTable', setBit32 occupTable q = some occupTable' ∧
      occupTable'.length = occupTable.length ∧ Occupied occupTable' (q :: S) := by
  obtain ⟨occupTable', hset, hlen, hbits⟩ := setBit32_spec hq
  refine ⟨occupTable', hset, hlen, fun q' => ?_⟩
  rw [hbits, List.getElem?_set, length_bits, if_pos hq, List.mem_cons]
  split_ifs with hqq
  · exact iff_of_true rfl (.inl hqq.symm)
  · rw [h q', or_iff_right (Ne.symm hqq)]

theorem Occupied.unsetBit32 {q : Nat} (h : Occupied occupTable (q :: S)) (hq : q ∉ S) :
    ∃ occupTable', unsetBit32 occupTable q = some occupTable' ∧
      occupTable'.length = occupTable.length ∧ Occupied occupTable' S := by
  have hset := (h q).mpr List.mem_cons_self
  obtain ⟨occupTable', hunset, hlen, hbits⟩ := unsetBit32_spec hset
  refine ⟨occupTable', hunset, hlen, fun q' => ?_⟩
  rw [hbits, List.getElem?_set]
  split_ifs with hqq hlt
  · subst hqq
    exact iff_of_false (by simp) hq
  · exact absurd (List.getElem?_eq_some_iff.mp hset).1 hlt
  · rw [h q', List.mem_cons, or_iff_right (Ne.symm hqq)]

/-- The bin of an item in a probe. -/
def probeBin (n probe0Num probe1Num : Nat) (item : ChdPhItem) : Nat :=
  (item.f + item.h * probe0Num + probe1Num) % n

/-- The numbers of an item are below the number of bins. -/
def ChdPhItem.Small (n : Nat) (item : ChdPhItem) : Prop := item.f < n ∧ item.h < n

theorem chdPhPosition_eq {item : ChdPhItem} (h : item.Small n) (hn : n < 2 ^ 32)
    (h0 : probe0Num < n) (h1 : probe1Num < 2 ^ 32) :
    chdPhPosition n item probe0Num probe1Num = some (probeBin n probe0Num probe1Num item) := by
  obtain ⟨hf, hh⟩ := h
  have hmul : item.h * probe0Num ≤ (2 ^ 32 - 1) * (2 ^ 32 - 1) :=
    Nat.mul_le_mul (by omega) (by omega)
  rw [chdPhPosition, if_neg (by omega), u64_of_lt (show item.h * probe0Num < 2 ^ 64 by omega),
    u64_of_lt (show item.f + item.h * probe0Num < 2 ^ 64 by omega), u64_of_lt (by omega)]
  rfl

/-! ## A probe -/

section Probe

variable (hn : n < 2 ^ 32) (h0 : probe0Num < n) (h1 : probe1Num < 2 ^ 32)

include hn h0 h1

theorem placeItems_spec (hits : HasItems items offset its) (hsmall : ∀ item ∈ its, item.Small n)
    (hocc : Occupied occupTable S) (hroom : n ≤ 32 * occupTable.length) :
    ∃ k occupTable', placeItems n items probe0Num probe1Num (List.range' offset its.length)
        occupTable = some (k, occupTable') ∧ k ≤ its.length ∧
      occupTable'.length = occupTable.length ∧
      ((its.take k).map (probeBin n probe0Num probe1Num)).Nodup ∧
      (∀ q ∈ (its.take k).map (probeBin n probe0Num probe1Num), q ∉ S) ∧
      Occupied occupTable' ((its.take k).map (probeBin n probe0Num probe1Num) ++ S) := by
  induction its generalizing offset occupTable S with
  | nil => exact ⟨0, occupTable, rfl, Nat.le_refl 0, rfl, List.nodup_nil, nofun, hocc⟩
  | cons item its ih =>
    obtain ⟨hitem, hsmall⟩ := List.forall_mem_cons.mp hsmall
    have hget : items[offset]? = some item := hits 0 item rfl
    have hq : probeBin n probe0Num probe1Num item < 32 * occupTable.length :=
      (Nat.mod_lt _ (by omega)).trans_le hroom
    have hits' : HasItems items (offset + 1) its := fun j item' hj => by
      rw [Nat.add_assoc, Nat.add_comm 1]
      exact hits (j + 1) item' hj
    rw [List.length_cons, List.range'_succ, placeItems, hget]
    simp only [Option.bind_eq_bind, Option.bind_some, chdPhPosition_eq hitem hn h0 h1,
      hocc.getBit32 hq]
    by_cases hmem : probeBin n probe0Num probe1Num item ∈ S
    · rw [if_pos (decide_eq_true hmem)]
      exact ⟨0, occupTable, rfl, Nat.zero_le _, rfl, List.nodup_nil, nofun, hocc⟩
    · obtain ⟨occupTable₁, hset, hlen₁, hocc₁⟩ := hocc.setBit32 hq
      obtain ⟨k, occupTable', hplace, hk, hlen', hnodup, hfree, hocc'⟩ := ih hits' hsmall hocc₁
        (hroom.trans_eq (by rw [hlen₁]))
      rw [if_neg (by simpa using hmem), hset, Option.bind_some, hplace]
      refine ⟨k + 1, occupTable', rfl, Nat.succ_le_succ hk, hlen'.trans hlen₁, ?_, ?_, ?_⟩
      · rw [List.take_succ_cons, List.map_cons, List.nodup_cons]
        exact ⟨fun h => hfree _ h List.mem_cons_self, hnodup⟩
      · rw [List.take_succ_cons, List.map_cons, List.forall_mem_cons]
        exact ⟨hmem, fun q hq => fun h => hfree q hq (List.mem_cons_of_mem _ h)⟩
      · refine hocc'.congr fun q => ?_
        rw [List.take_succ_cons, List.map_cons, List.cons_append, List.mem_append, List.mem_cons,
          List.mem_cons, List.mem_append, or_left_comm]

theorem undoItems_spec (hits : HasItems items offset its) (hsmall : ∀ item ∈ its, item.Small n)
    (hocc : Occupied occupTable (its.map (probeBin n probe0Num probe1Num) ++ S))
    (hnodup : (its.map (probeBin n probe0Num probe1Num)).Nodup)
    (hfree : ∀ q ∈ its.map (probeBin n probe0Num probe1Num), q ∉ S) :
    ∃ occupTable', undoItems n items probe0Num probe1Num (List.range' offset its.length)
        occupTable = some occupTable' ∧ occupTable'.length = occupTable.length ∧
      Occupied occupTable' S := by
  induction its generalizing offset occupTable with
  | nil => exact ⟨occupTable, rfl, rfl, hocc⟩
  | cons item its ih =>
    obtain ⟨hitem, hsmall⟩ := List.forall_mem_cons.mp hsmall
    rw [List.map_cons, List.forall_mem_cons] at hfree
    rw [List.map_cons, List.nodup_cons] at hnodup
    have hget : items[offset]? = some item := hits 0 item rfl
    have hits' : HasItems items (offset + 1) its := fun j item' hj => by
      rw [Nat.add_assoc, Nat.add_comm 1]
      exact hits (j + 1) item' hj
    obtain ⟨occupTable₁, hunset, hlen₁, hocc₁⟩ := Occupied.unsetBit32 hocc fun h =>
      (List.mem_append.mp h).elim hnodup.1 hfree.1
    obtain ⟨occupTable', hundo, hlen', hocc'⟩ := ih hits' hsmall hocc₁ hnodup.2 hfree.2
    refine ⟨occupTable', ?_, hlen'.trans hlen₁, hocc'⟩
    rw [undoItems, List.length_cons, List.range'_succ, List.foldlM_cons, hget]
    simp only [Option.bind_eq_bind, Option.bind_some, chdPhPosition_eq hitem hn h0 h1, hunset]
    exact hundo

/-- A probe places all items of a bucket, or leaves the bins as they were. -/
theorem placeBucketProbe_spec (hits : HasItems items offset its)
    (hsmall : ∀ item ∈ its, item.Small n) (hocc : Occupied occupTable S)
    (hroom : n ≤ 32 * occupTable.length) (b : Nat) :
    ∃ placed occupTable', placeBucketProbe n items probe0Num probe1Num ⟨offset, b⟩ its.length
        occupTable = some (placed, occupTable') ∧ occupTable'.length = occupTable.length ∧
      if placed then (its.map (probeBin n probe0Num probe1Num)).Nodup ∧
        (∀ q ∈ its.map (probeBin n probe0Num probe1Num), q ∉ S) ∧
        Occupied occupTable' (its.map (probeBin n probe0Num probe1Num) ++ S)
      else Occupied occupTable' S := by
  obtain ⟨k, occupTable₁, hplace, hk, hlen, hnodup, hfree, hocc₁⟩ :=
    placeItems_spec hn h0 h1 hits hsmall hocc hroom
  rw [placeBucketProbe, hplace, Option.bind_eq_bind, Option.bind_some]
  dsimp only
  by_cases hall : k = its.length
  · rw [hall, List.take_length] at hnodup hfree hocc₁
    rw [if_neg (not_not.mpr hall)]
    exact ⟨true, occupTable₁, rfl, hlen, hnodup, hfree, hocc₁⟩
  · have hits' : HasItems items offset (its.take k) := fun j item hj => by
      rw [List.getElem?_take] at hj
      split_ifs at hj
      exact hits j item hj
    obtain ⟨occupTable', hundo, hlen', hocc'⟩ := undoItems_spec hn h0 h1 hits'
      (fun item hitem => hsmall item (List.mem_of_mem_take hitem)) hocc₁ hnodup hfree
    rw [List.length_take, Nat.min_eq_left hk] at hundo
    rw [if_pos hall, hundo]
    exact ⟨false, occupTable', rfl, hlen'.trans hlen, hocc'⟩

end Probe

/-! ## The buckets that are placed -/

/-- The bin of an item with a displacement. -/
def displacedBin (n d : Nat) (item : ChdPhItem) : Nat := probeBin n (d % n) (d / n) item

/-- The bins of the items of a bucket. -/
def binsOf (n : Nat) (grp : Nat → List ChdPhItem) (dispTable : List Nat) (b : Nat) : List Nat :=
  (grp b).map (displacedBin n (dispTable.getD b 0))

/-- The items of some buckets are in bins of their own, with the displacements of the buckets. -/
structure Placed (n : Nat) (grp : Nat → List ChdPhItem) (nbuckets : Nat) (done : List Nat)
    (t : ChdPhTables) : Prop where
  length : t.dispTable.length = nbuckets
  small : ∀ d ∈ t.dispTable, d < 2 ^ 32 - 1
  room : n ≤ 32 * t.occupTable.length
  nodup : (done.flatMap (binsOf n grp t.dispTable)).Nodup
  occupied : Occupied t.occupTable (done.flatMap (binsOf n grp t.dispTable))

theorem displacedBin_probe (h0 : probe0Num < n) :
    displacedBin n (probe0Num + probe1Num * n) = probeBin n probe0Num probe1Num := by
  funext item
  rw [displacedBin, Nat.add_mul_mod_self_right, Nat.mod_eq_of_lt h0,
    Nat.add_mul_div_right _ _ (by omega), Nat.div_eq_of_lt h0, Nat.zero_add]

theorem flatMap_binsOf_set (hb : b ∉ done) (d : Nat) :
    done.flatMap (binsOf n grp (dispTable.set b d)) = done.flatMap (binsOf n grp dispTable) := by
  refine List.flatMap_congr fun b' hb' => ?_
  have hne : b ≠ b' := fun h => hb (h ▸ hb')
  rw [binsOf, binsOf, List.getD_eq_getElem?_getD, List.getElem?_set_ne hne,
    List.getD_eq_getElem?_getD]

/-- A bucket that is placed gets the displacement of the probe. -/
theorem Placed.place (h : Placed n grp nbuckets done t) (h0 : probe0Num < n)
    (hd : probe0Num + probe1Num * n < 2 ^ 32 - 1) (hb : b < nbuckets) (hnew : b ∉ done)
    (hnodup : ((grp b).map (probeBin n probe0Num probe1Num)).Nodup)
    (hfree : ∀ q ∈ (grp b).map (probeBin n probe0Num probe1Num),
      q ∉ done.flatMap (binsOf n grp t.dispTable))
    {occupTable' : List (BitVec 32)} (hlen : occupTable'.length = t.occupTable.length)
    (hocc : Occupied occupTable' ((grp b).map (probeBin n probe0Num probe1Num) ++
      done.flatMap (binsOf n grp t.dispTable))) (buckets : List ChdPhBucket) :
    Placed n grp nbuckets (b :: done)
      ⟨buckets, occupTable', t.dispTable.set b (probe0Num + probe1Num * n)⟩ := by
  have hbins : (b :: done).flatMap (binsOf n grp (t.dispTable.set b (probe0Num + probe1Num * n))) =
      (grp b).map (probeBin n probe0Num probe1Num) ++ done.flatMap (binsOf n grp t.dispTable) := by
    rw [List.flatMap_cons, flatMap_binsOf_set hnew, binsOf, List.getD_eq_getElem?_getD,
      List.getElem?_set_self (hb.trans_eq h.length.symm), Option.getD_some, displacedBin_probe h0]
  refine ⟨List.length_set.trans h.length, fun d hmem => ?_, h.room.trans_eq (by rw [hlen]), ?_, ?_⟩
  · rcases List.mem_or_eq_of_mem_set hmem with hmem | rfl
    · exact h.small d hmem
    · exact hd
  · rw [hbins]
    exact List.nodup_append.mpr ⟨hnodup, h.nodup, fun q hq q' hq' hqq => hfree q hq (hqq ▸ hq')⟩
  · rw [hbins]
    exact hocc

/-! ## A turn -/

/-- Some buckets stand one after the other. -/
def Segment (buckets : List ChdPhBucket) (items : List ChdPhItem) (grp : Nat → List ChdPhItem)
    (first : Nat) (ids : List Nat) : Prop :=
  ∀ (j : Nat) b, ids[j]? = some b →
    ∃ offset, buckets[first + j]? = some ⟨offset, b⟩ ∧ HasItems items offset (grp b)

theorem Segment.tail (h : Segment buckets items grp first (b :: rest)) :
    Segment buckets items grp (first + 1) rest := fun j b hj => by
  rw [Nat.add_assoc, Nat.add_comm 1]
  exact h (j + 1) b hj

/-- A bucket is moved behind those that were kept. -/
theorem Segment.concat {bucket : ChdPhBucket} (h : Segment buckets items grp first kept)
    (hlt : first + kept.length < buckets.length)
    (hbucket : bucket = ⟨offset, b⟩) (hits : HasItems items offset (grp b)) :
    Segment (buckets.set (first + kept.length) bucket) items grp first (kept ++ [b]) := by
  intro j b' hj
  rw [List.getElem?_append] at hj
  split_ifs at hj with hjk
  · rw [List.getElem?_set_ne (by omega)]
    exact h j b' hj
  · obtain ⟨hj', rfl⟩ := List.getElem?_eq_some_iff.mp hj
    rw [List.length_singleton] at hj'
    rw [List.getElem_singleton, show j = kept.length by omega, List.getElem?_set_self hlt, hbucket]
    exact ⟨offset, rfl, hits⟩

theorem Segment.set (h : Segment buckets items grp first rest) {k : Nat} (hk : k < first)
    (bucket : ChdPhBucket) : Segment (buckets.set k bucket) items grp first rest := fun j b hj => by
  rw [List.getElem?_set_ne (by omega)]
  exact h j b hj

theorem placeTurn_spec (hn : n < 2 ^ 32) (h0 : probe0Num < n) (h1 : probe1Num < n)
    (hd : probe0Num + probe1Num * n < 2 ^ 32 - 1)
    (hsmall : ∀ b < nbuckets, ∀ item ∈ grp b, item.Small n) (rest kept done : List Nat)
    (t : ChdPhTables) (hrest : Segment t.buckets items grp curr rest)
    (hkept : Segment t.buckets items grp first kept) (hle : first + kept.length ≤ curr)
    (hend : curr + rest.length ≤ t.buckets.length) (hlt : t.buckets.length < 2 ^ 32)
    (hsize : ∀ b ∈ rest, b < nbuckets ∧ (grp b).length = i) (hnodup : (kept ++ rest ++ done).Nodup)
    (hplaced : Placed n grp nbuckets done t) :
    ∃ kept' done' t', placeTurn n items i first probe0Num probe1Num rest.length curr kept.length t =
        some (kept'.length, t') ∧ kept'.Sublist (kept ++ rest) ∧
      (kept' ++ done').Perm (kept ++ rest ++ done) ∧ Segment t'.buckets items grp first kept' ∧
      Placed n grp nbuckets done' t' ∧ t'.buckets.length = t.buckets.length ∧
      ∀ k, k < first ∨ curr + rest.length ≤ k → t'.buckets[k]? = t.buckets[k]? := by
  induction rest generalizing curr kept done t with
  | nil =>
    rw [List.append_nil]
    exact ⟨kept, done, t, rfl, .refl _, .refl _, hkept, hplaced, rfl, fun _ _ => rfl⟩
  | cons b rest ih =>
    obtain ⟨⟨hb, hlen⟩, hsize⟩ := List.forall_mem_cons.mp hsize
    obtain ⟨offset, hbucket, hits⟩ := hrest 0 b rfl
    rw [Nat.add_zero] at hbucket
    rw [List.length_cons] at hend
    have hnew : b ∉ done := fun h => List.disjoint_of_nodup_append hnodup
      (List.mem_append_right _ List.mem_cons_self) h
    obtain ⟨placed, occupTable', hprobe, hocclen, hspec⟩ := placeBucketProbe_spec hn h0
      (h1.trans hn) hits (hsmall b hb) hplaced.occupied hplaced.room b
    rw [hlen] at hprobe
    have hnext : u32 ((curr : Int) + 1) = curr + 1 := u32_of_eq (by omega) (by push_cast; rfl)
    have hmul : u32 ((probe1Num : Int) * n) = probe1Num * n :=
      u32_of_eq (by omega) (by push_cast; rfl)
    have hdisp : u32 ((probe0Num : Int) + u32 ((probe1Num : Int) * n)) =
        probe0Num + probe1Num * n := by
      rw [hmul]
      exact u32_of_eq (by omega) (by push_cast; rfl)
    simp only [List.length_cons, placeTurn, hbucket, hprobe, hnext, Option.bind_eq_bind,
      Option.bind_some]
    cases placed with
    | true =>
      obtain ⟨hbins, hfree, hocc⟩ := hspec
      have hplaced' := hplaced.place h0 hd hb hnew hbins hfree hocclen hocc t.buckets
      have hperm : (kept ++ rest ++ b :: done).Perm (kept ++ b :: rest ++ done) := by
        rw [List.append_assoc, List.append_assoc, List.cons_append]
        exact List.perm_middle.append_left kept
      obtain ⟨kept', done', t', hrun, hsub, hperm', hseg, hdone, hlen', hframe⟩ :=
        ih kept (b :: done) ⟨t.buckets, occupTable', _⟩ hrest.tail hkept
          (show first + kept.length ≤ curr + 1 by omega)
          (show curr + 1 + rest.length ≤ t.buckets.length by omega) hlt hsize
          (hperm.nodup_iff.mpr hnodup) hplaced'
      refine ⟨kept', done', t', ?_, hsub.trans ((List.append_sublist_append_left kept).mpr
        (List.sublist_cons_self b rest)), hperm'.trans hperm, hseg, hdone, hlen', fun k hk =>
          hframe k (by omega)⟩
      rw [if_pos rfl, hdisp, write_of_lt (hb.trans_eq hplaced.length.symm)]
      exact hrun
    | false =>
      have hplace : u32 ((kept.length + first : Nat) : Int) = first + kept.length :=
        u32_of_eq (by omega) (by push_cast; omega)
      have hsucc : u32 ((kept.length : Int) + 1) = (kept ++ [b]).length := by
        rw [List.length_append]
        exact u32_of_eq (by rw [List.length_singleton]; omega) (by push_cast; rfl)
      have hin : first + kept.length < t.buckets.length := by omega
      obtain ⟨kept', done', t', hrun, hsub, hperm', hseg, hdone, hlen', hframe⟩ :=
        ih (kept ++ [b]) done
        ⟨t.buckets.set (first + kept.length) ⟨offset, b⟩, occupTable', t.dispTable⟩
        (hrest.tail.set (by omega) _) (hkept.concat hin rfl hits)
        (by rw [List.length_append, List.length_singleton]; omega)
        (by rw [List.length_set]; omega) (by rwa [List.length_set]) hsize
        (by rwa [List.append_assoc kept, List.singleton_append])
        ⟨hplaced.length, hplaced.small, hplaced.room.trans_eq (by rw [hocclen]), hplaced.nodup, hspec⟩
      rw [List.append_assoc kept, List.singleton_append] at hsub hperm'
      refine ⟨kept', done', t', ?_, hsub, hperm', hseg, hdone, hlen'.trans List.length_set,
        fun k hk => ?_⟩
      · rw [if_neg Bool.false_ne_true, hplace, write_of_lt hin, Option.bind_some, hsucc]
        exact hrun
      · rw [hframe k (by omega), List.getElem?_set_ne (by omega)]

/-! ## The probes of a list -/

/-- The probe behind a probe. -/
theorem nextProbe_spec (hn : n < 2 ^ 32) (h0 : probe0Num < n) (h1 : probe1Num < n) :
    ∃ probe0Num' probe1Num', (if u32 ((probe0Num : Int) + 1) ≥ n then
        (u32 ((u32 ((probe0Num : Int) + 1) : Int) - n), u32 ((probe1Num : Int) + 1))
      else (u32 ((probe0Num : Int) + 1), probe1Num)) = (probe0Num', probe1Num') ∧ probe0Num' < n ∧
      probe0Num' + probe1Num' * n = probe0Num + probe1Num * n + 1 := by
  have hsucc0 : u32 ((probe0Num : Int) + 1) = probe0Num + 1 :=
    u32_of_eq (by omega) (by push_cast; rfl)
  have hsucc1 : u32 ((probe1Num : Int) + 1) = probe1Num + 1 :=
    u32_of_eq (by omega) (by push_cast; rfl)
  rw [hsucc0, hsucc1]
  split_ifs with h
  · have hzero : u32 (((probe0Num + 1 : Nat) : Int) - n) = 0 := u32_of_eq (by decide) (by omega)
    refine ⟨0, probe1Num + 1, by rw [hzero], by omega, ?_⟩
    rw [Nat.succ_mul]
    omega
  · exact ⟨probe0Num + 1, probe1Num, rfl, by omega, by omega⟩

theorem placeList_spec (hn : n < 2 ^ 32) (hmax : maxProbes < 2 ^ 32)
    (hsmall : ∀ b < nbuckets, ∀ item ∈ grp b, item.Small n) (turns : Nat) (todo done : List Nat)
    (t : ChdPhTables) (probe0Num probe1Num : Nat) (h0 : probe0Num < n) (h1 : probe1Num < n)
    (hprobe : probe0Num + probe1Num * n < maxProbes ∨ probe0Num + probe1Num * n = 0)
    (hturns : maxProbes < turns + (probe0Num + probe1Num * n))
    (hseg : Segment t.buckets items grp first todo)
    (hend : first + todo.length ≤ t.buckets.length) (hlt : t.buckets.length < 2 ^ 32)
    (hsize : ∀ b ∈ todo, b < nbuckets ∧ (grp b).length = i) (hnodup : (todo ++ done).Nodup)
    (hplaced : Placed n grp nbuckets done t) :
    ∃ ok left done' t', placeList n maxProbes items i first turns todo.length
        (probe0Num + probe1Num * n) probe0Num probe1Num t = some (ok, t') ∧
      (ok = true → left = []) ∧ (left ++ done').Perm (todo ++ done) ∧
      Placed n grp nbuckets done' t' ∧ t'.buckets.length = t.buckets.length ∧
      ∀ k, k < first ∨ first + todo.length ≤ k → t'.buckets[k]? = t.buckets[k]? := by
  induction turns generalizing todo done t probe0Num probe1Num with
  | zero => omega
  | succ turns ih =>
    rw [placeList]
    rcases eq_or_ne todo [] with rfl | hne
    · exact ⟨true, [], done, t, rfl, fun _ => rfl, .refl _, hplaced, rfl, fun _ _ => rfl⟩
    have hpos := List.length_pos_of_ne_nil hne
    obtain ⟨kept, done', t', hturn, hsub, hperm, hkept, hdone, hlen, hframe⟩ :=
      placeTurn_spec hn h0 h1 (by omega) hsmall todo [] done t hseg (fun j b hj => by simp at hj)
        (Nat.le_refl first) hend hlt hsize hnodup hplaced
    rw [List.nil_append] at hsub hperm
    obtain ⟨probe0Num', probe1Num', hnext, h0', hprobe'⟩ := nextProbe_spec hn h0 h1
    have hsucc : u32 (((probe0Num + probe1Num * n : Nat) : Int) + 1) =
        probe0Num' + probe1Num' * n := by
      rw [hprobe']
      exact u32_of_eq (by omega) (by push_cast; rfl)
    have hkeptle := hsub.length_le
    simp only [if_neg hpos.ne', List.length_nil, hsucc] at hturn ⊢
    rw [hturn, Option.bind_eq_bind, Option.bind_some]
    dsimp only
    rw [hnext]
    dsimp only
    split_ifs with hlast
    · exact ⟨false, kept, done', t', rfl, nofun, hperm, hdone, hlen, hframe⟩
    · obtain ⟨ok, left, done'', t'', hrun, hok, hperm', hdone', hlen', hframe'⟩ := ih kept done' t'
        probe0Num' probe1Num' h0' (by omega) (.inl (by omega)) (by omega) hkept (by omega)
        (by omega) (fun b hb => hsize b (hsub.subset hb)) (hperm.nodup_iff.mpr hnodup) hdone
      exact ⟨ok, left, done'', t'', hrun, hok, hperm'.trans hperm, hdone', hlen'.trans hlen,
        fun k hk => (hframe' k (by omega)).trans (hframe k hk)⟩

/-! ## All lists -/

/-- The bins and the displacements when the lists of the buckets with up to `i` items are placed
behind the buckets that were placed before. -/
theorem placeBuckets2_spec (hpos : 0 < n) (hn : n < 2 ^ 32) (hmax : maxProbes < 2 ^ 32)
    (hsmall : ∀ b < nbuckets, ∀ item ∈ grp b, item.Small n) (hnb : nbuckets < 2 ^ 32) (i : Nat)
    (done : List Nat) (t : ChdPhTables)
    (hlists : ∀ s ≤ i, sortedLists[s]? =
      some ⟨firstOf grp nbuckets s, (ofSize grp (List.range nbuckets) s).length⟩)
    (hsegs : ∀ s ≤ i, Segment t.buckets items grp (firstOf grp nbuckets s)
      (ofSize grp (List.range nbuckets) s))
    (hlen : t.buckets.length = nbuckets) (hfirst : firstOf grp nbuckets (i + 1) ≤ nbuckets)
    (hnodup : done.Nodup) (hdone : ∀ b ∈ done, i < (grp b).length)
    (hplaced : Placed n grp nbuckets done t) :
    ∃ ok done' t', placeBuckets2 n maxProbes items sortedLists i t = some (ok, t') ∧
      Placed n grp nbuckets done' t' ∧ t'.buckets.length = nbuckets ∧ (ok = true → done'.Nodup ∧
        ∀ b, b ∈ done' ↔ b ∈ done ∨
          b ∈ nonEmpty grp (List.range nbuckets) ∧ (grp b).length ≤ i) := by
  induction i generalizing done t with
  | zero =>
    refine ⟨true, done, t, rfl, hplaced, hlen, fun _ => ⟨hnodup, fun b => ?_⟩⟩
    rw [or_iff_left fun h => (mem_nonEmpty.mp h.1).2 (Nat.le_zero.mp h.2)]
  | succ i ih =>
    have hlast := hlists (i + 1) (Nat.le_refl _)
    have hroom : firstOf grp nbuckets (i + 1) + (ofSize grp (List.range nbuckets) (i + 1)).length =
        firstOf grp nbuckets (i + 1 + 1) := (start_succ _ _).symm
    have hsize : ∀ b ∈ ofSize grp (List.range nbuckets) (i + 1),
        b < nbuckets ∧ (grp b).length = i + 1 := fun b hb =>
      ⟨List.mem_range.mp (mem_ofSize.mp hb).1.1, (mem_ofSize.mp hb).2⟩
    have hnodup' : (ofSize grp (List.range nbuckets) (i + 1) ++ done).Nodup :=
      (((List.nodup_range.filter _).filter _).append hnodup fun b hb hb' =>
        absurd (hsize b hb).2 (hdone b hb').ne')
    obtain ⟨ok, left, done', t', hrun, hok, hperm, hplaced', hlen', hframe⟩ := placeList_spec hn hmax
      hsmall (maxProbes + 1) _ done t 0 0 hpos hpos (.inr (by rw [Nat.zero_mul]))
      (by rw [Nat.zero_mul]; omega) (hsegs (i + 1) (Nat.le_refl _)) (by omega) (by omega) hsize
      hnodup' hplaced
    rw [Nat.zero_mul, Nat.add_zero] at hrun
    rw [placeBuckets2, hlast, Option.bind_eq_bind, Option.bind_some]
    dsimp only
    rw [hrun, Option.bind_eq_bind, Option.bind_some]
    cases ok with
    | false => exact ⟨false, done', t', rfl, hplaced', hlen'.trans hlen, nofun⟩
    | true =>
      rw [hok rfl, List.nil_append] at hperm
      have hmem (b : Nat) : b ∈ done' ↔ b ∈ ofSize grp (List.range nbuckets) (i + 1) ∨ b ∈ done :=
        hperm.mem_iff.trans List.mem_append
      have hsegs' : ∀ s ≤ i, Segment t'.buckets items grp (firstOf grp nbuckets s)
          (ofSize grp (List.range nbuckets) s) := by
        intro s hs j b hj
        obtain ⟨offset, hbucket, hits⟩ := hsegs s (Nat.le_succ_of_le hs) j b hj
        have hj' := (List.getElem?_eq_some_iff.mp hj).1
        have hbefore : firstOf grp nbuckets s + j < firstOf grp nbuckets (i + 1) :=
          (Nat.add_lt_add_left hj' _).trans_le (start_add_le _ (Nat.lt_succ_of_le hs))
        exact ⟨offset, (hframe _ (.inl hbefore)).trans hbucket, hits⟩
      have hdone' : ∀ b ∈ done', i < (grp b).length := by
        intro b hb
        rcases (hmem b).mp hb with hb | hb
        · exact (hsize b hb).2 ▸ Nat.lt_succ_self i
        · exact Nat.lt_of_succ_lt (hdone b hb)
      obtain ⟨ok, done'', t'', hrun', hplaced'', hlen'', hspec⟩ := ih done' t'
        (fun s hs => hlists s (Nat.le_succ_of_le hs)) hsegs' (hlen'.trans hlen) (by omega)
        (hperm.nodup_iff.mpr hnodup') hdone' hplaced'
      refine ⟨ok, done'', t'', hrun', hplaced'', hlen'', fun h => ⟨(hspec h).1, fun b => ?_⟩⟩
      rw [(hspec h).2, hmem, mem_ofSize, mem_nonEmpty]
      constructor
      · rintro ((⟨hb, hs⟩ | hb) | ⟨hb, hs⟩)
        · exact .inr ⟨hb, hs.le⟩
        · exact .inl hb
        · exact .inr ⟨hb, Nat.le_succ_of_le hs⟩
      · rintro (hb | ⟨hb, hs⟩)
        · exact .inl (.inr hb)
        · rcases Nat.eq_or_lt_of_le hs with hs | hs
          · exact .inl (.inl ⟨hb, hs⟩)
          · exact .inr ⟨hb, Nat.le_of_lt_succ hs⟩

end PerfectHash.Cmph
