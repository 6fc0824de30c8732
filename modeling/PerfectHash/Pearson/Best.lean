import PerfectHash.Pearson.Lookup
import PerfectHash.Pearson.Cost

/-! # The best table (`$best` of `new`)

`new` keeps in `$best` the table with the fewest collisions, but as a reference to the only object,
whose table it goes on to shuffle in place. Here the search runs on references. It computes what
`build` computes without `$best` (`buildRef_eq_build`), so the table that is returned is the last
one tried. This is a best one exactly if no table tried sends the keys to more slots
(`returnsBest_iff`). -/

namespace PerfectHash.Pearson

/-! ## The search on references -/

/-- The arrays that `new` makes. A reference is the number of a table or of an object. An object
`[$size, $H]` holds a reference to its table. -/
structure Memory where
  tables : List (List Nat)
  objects : List (Nat × Nat)

namespace Memory

/-- `$ph->[0]` -/
def size (m : Memory) (ph : Nat) : Nat := (m.objects.getD ph (0, 0)).1

/-- `$ph->[1]` -/
def H (m : Memory) (ph : Nat) : Nat := (m.objects.getD ph (0, 0)).2

/-- `@$H` -/
def table (m : Memory) (H : Nat) : List Nat := m.tables.getD H []

/-- `$ph->shuffle()`, which shuffles the table of the object in place. -/
def shuffle (m : Memory) (draw : Nat → Nat) (ph : Nat) : Memory :=
  { m with tables := m.tables.modify (m.H ph) (Pearson.shuffle draw) }

/-- `$ph->cost($keys)` -/
def cost (m : Memory) (ph : Nat) (keys : List Bytes) : Run Cost :=
  Pearson.cost (object (m.size ph) (m.table (m.H ph))) keys

end Memory

/-- The variables `$maxsum`, `$maxdepth` and `$best`. -/
structure Best where
  maxsum : Option Nat
  maxdepth : Nat
  best : Option Nat

/-- The condition of `Pearson::new` under which a table is remembered. -/
def better (c : Cost) (b : Best) : Bool :=
  match b.maxsum with
  | none => true
  | some maxsum => c.sum < maxsum ∨ c.max = 1 ∨ c.sum = maxsum ∧ c.max < b.maxdepth

section
variable (better : Cost → Best → Bool) (draws : Nat → Nat → Nat) (inTime : Nat → Bool)

/-- The search of `new`, with `$best`. -/
def searchRef (keys : List Bytes) (ph : Nat) (remaining counter : Nat) (m : Memory) (b : Best) :
    Run (Memory × Best × Cost) := do
  let m := m.shuffle (draws counter) ph
  let c ← m.cost ph keys
  let b := if better c b then { maxsum := some c.sum, maxdepth := c.max, best := some ph } else b
  match remaining with
  | 0 => return (m, b, c)
  | remaining + 1 =>
    if c.max > 1 ∧ inTime (counter + 1) then
      searchRef keys ph remaining (counter + 1) m b
    else return (m, b, c)

/-- The common text of `Pearson::new` and `PearsonNP::new`, with `$best`. The cost of `$best` that
the latter computes once more is only printed. -/
def buildRef {α : Type} [Scalar α] (hsize maxcount : Nat → Nat) (dict : Dict α)
    (args : List String) : Run (Pearson α) := do
  let options := withMaxTime (handleOpts args)
  let (keys, values) ← dictInit dict
  let size := keys.length
  let H := 0
  let ph := 0
  let m : Memory := { tables := [List.range (hsize size)], objects := [(size, H)] }
  let (m, b, c) ← searchRef better draws inTime keys ph (maxcount size - 1) 0 m
    { maxsum := none, maxdepth := 0, best := none }
  let C ←
    if c.max > 1 then
      match b.best with
      | none => .error (.die "Can't call method \"collisions\" on an undefined value")
      | some ph => some <$> collisions (m.size ph) (m.table (m.H ph)) keys values
    else pure none
  return {
    size, H := m.table H, C, options
    keys := if options.has "-false-positives" then none else some keys }

end

section
variable {α : Type} [Scalar α]

/-- `Pearson::new` -/
def newRef (draws : Nat → Nat → Nat) (inTime : Nat → Bool) : Dict α → List String →
    Run (Pearson α) :=
  buildRef better draws inTime (fun size => roundUp size size 8) (fun size => size - 1)

end

end Pearson

namespace PearsonNP

open Pearson

/-- The condition of `PearsonNP::new` under which a table is remembered. -/
def better (c : Cost) (b : Best) : Bool :=
  match b.maxsum with
  | none => true
  | some maxsum => c.sum < maxsum ∨ c.max = 1

/-- `PearsonNP::new` -/
def newRef {α : Type} [Scalar α] (draws : Nat → Nat → Nat) (inTime : Nat → Bool) :
    Dict α → List String → Run (Pearson α) :=
  buildRef better draws inTime (fun _ => 256) (fun _ => 30)

end PearsonNP

namespace Pearson

/-! ## There is one object -/

variable {α : Type} [Scalar α] {better : Cost → Best → Bool} {draws : Nat → Nat → Nat}
  {inTime : Nat → Bool} {H : List Nat} {keys : List Bytes} {values : List (Option α)} {b : Best}
  {c : Cost}

/-- The memory with one table and its object. -/
def single (size : Nat) (H : List Nat) : Memory := { tables := [H], objects := [(size, 0)] }

/-- The first table is remembered. -/
def RemembersFirst (better : Cost → Best → Bool) : Prop :=
  ∀ c b, b.maxsum = none → better c b = true

theorem better_remembersFirst : RemembersFirst Pearson.better := by
  intro c b h
  rw [Pearson.better, h]

theorem betterNP_remembersFirst : RemembersFirst PearsonNP.better := by
  intro c b h
  rw [PearsonNP.better, h]

/-- Nothing is remembered yet, or `$best` is the one object. -/
def Best.IsObject (b : Best) : Prop := b.maxsum = none ∨ b.best = some 0

/-- After a table was tried, `$best` is the one object. -/
theorem Best.IsObject.remember (hb : b.IsObject) (hbetter : RemembersFirst better) (c : Cost) :
    (if better c b then { maxsum := some c.sum, maxdepth := c.max, best := some 0 } else b).best =
      some 0 := by
  rcases hb with hfirst | hbest
  · rw [if_pos (hbetter c b hfirst)]
  · split
    · rfl
    · exact hbest

theorem cost_shuffle_single (draw : Nat → Nat) (size : Nat) (H : List Nat) (keys : List Bytes) :
    ((single size H).shuffle draw 0).cost 0 keys = cost (object size (shuffle draw H)) keys := rfl

/-- Every shuffle changes the table of the object in `$best`, too: the search on references
computes the table of `search`, and `$best` is the object of this table. -/
theorem searchRef_eq (hbetter : RemembersFirst better) (draws : Nat → Nat → Nat)
    (inTime : Nat → Bool) (size : Nat) (keys : List Bytes) (remaining counter : Nat) (H : List Nat)
    (hb : b.IsObject) :
    (searchRef better draws inTime keys 0 remaining counter (single size H) b).map
        (fun r => (r.1, r.2.1.best, r.2.2)) =
      (search draws inTime size keys remaining counter H).map
        fun r => (single size r.1, some 0, r.2) := by
  induction remaining generalizing counter H b with
  | zero =>
    unfold searchRef search
    simp only [cost_shuffle_single]
    cases cost (object size (shuffle (draws counter) H)) keys with
    | error e => rfl
    | ok c =>
      change Except.ok (_, _, c) = Except.ok (_, _, c)
      rw [hb.remember hbetter c]
      rfl
  | succ remaining ih =>
    unfold searchRef search
    simp only [cost_shuffle_single]
    cases cost (object size (shuffle (draws counter) H)) keys with
    | error e => rfl
    | ok c =>
      simp only [bind, Except.bind]
      split
      · exact ih _ _ (.inr (hb.remember hbetter c))
      · change Except.ok (_, _, c) = Except.ok (_, _, c)
        rw [hb.remember hbetter c]
        rfl

/-- With `$best` the class computes what it computes without. -/
theorem buildRef_eq_build (hbetter : RemembersFirst better) (hsize maxcount : Nat → Nat)
    (dict : Dict α) (args : List String) :
    buildRef better draws inTime hsize maxcount dict args =
      build hsize maxcount draws inTime dict args := by
  unfold buildRef build
  cases dictInit dict with
  | error e => rfl
  | ok r =>
    obtain ⟨keys, values⟩ := r
    have hsearch := searchRef_eq (b := { maxsum := none, maxdepth := 0, best := none }) hbetter
      draws inTime keys.length keys (maxcount keys.length - 1) 0
      (List.range (hsize keys.length)) (.inl rfl)
    rw [single] at hsearch
    simp only [bind, Except.bind]
    generalize searchRef better draws inTime keys 0 (maxcount keys.length - 1) 0 _ _ = r at *
    generalize search draws inTime keys.length keys (maxcount keys.length - 1) 0
      (List.range (hsize keys.length)) = s at *
    cases s with
    | error e =>
      cases r with
      | error e' =>
        obtain rfl : e' = e := Except.error.inj hsearch
        rfl
      | ok r => cases hsearch
    | ok s =>
      cases r with
      | error e => cases hsearch
      | ok r =>
        obtain ⟨H, c⟩ := s
        obtain ⟨m, b, c'⟩ := r
        obtain ⟨rfl, hbest, rfl⟩ : m = single keys.length H ∧ b.best = some 0 ∧ c' = c := by
          simpa [Except.map] using hsearch
        simp only [hbest]
        rfl

/-! ## The tables that are tried -/

/-- The table after the shuffle with the given number. -/
def shuffled (draws : Nat → Nat → Nat) (H : List Nat) : Nat → List Nat
  | 0 => shuffle (draws 0) H
  | n + 1 => shuffle (draws (n + 1)) (shuffled draws H n)

/-- The number of slots to which a table sends the keys. -/
def usedSlots (keys : List Bytes) (H : List Nat) : Nat :=
  (keys.map (slot keys.length H)).toFinset.card

/-- The number of the last shuffle, if the one with number `n` is made and at most `remaining` after
it: the search stops when the keys have distinct slots or the time is over. -/
def lastShuffle (draws : Nat → Nat → Nat) (inTime : Nat → Bool) (keys : List Bytes) (H : List Nat) :
    Nat → Nat → Nat
  | 0, n => n
  | remaining + 1, n =>
    if ¬ (keys.map (slot keys.length (shuffled draws H n))).Nodup ∧ inTime (n + 1) then
      lastShuffle draws inTime keys H remaining (n + 1)
    else n

/-- The cost of a table for the keys of an object. -/
theorem cost_keys (hH : H ≠ []) (keys : List Bytes) :
    ∃ c, cost (object keys.length H) keys = .ok c ∧ c.sum + usedSlots keys H = keys.length ∧
      (c.max ≤ 1 ↔ (keys.map (slot keys.length H)).Nodup) := by
  have hhash (k : Bytes) (hk : k ∈ keys) :
      hash (object keys.length H) k = .ok (slot keys.length H k) :=
    hash_object hH (List.length_pos_of_mem hk) k
  have hsum := Cost.sum_of (keys.map (slot keys.length H))
  rw [List.length_map] at hsum
  exact ⟨_, cost_of_hash hhash, hsum, (Cost.counts_of _).max_le_one_iff⟩

theorem shuffled_ne_nil (draws : Nat → Nat → Nat) (hH : H ≠ []) (n : Nat) :
    shuffled draws H n ≠ [] := by
  induction n with
  | zero => exact shuffle_ne_nil _ hH
  | succ n ih => exact shuffle_ne_nil _ ih

/-- The search returns the table after the last shuffle. -/
theorem search_eq (draws : Nat → Nat → Nat) (inTime : Nat → Bool) (keys : List Bytes)
    (hH : H ≠ []) (remaining counter : Nat) {H' : List Nat}
    (h : shuffle (draws counter) H' = shuffled draws H counter) :
    search draws inTime keys.length keys remaining counter H' =
      (cost (object keys.length
          (shuffled draws H (lastShuffle draws inTime keys H remaining counter))) keys).map
        fun c => (shuffled draws H (lastShuffle draws inTime keys H remaining counter), c) := by
  obtain ⟨c, hcost, -, hmax⟩ := cost_keys (shuffled_ne_nil draws hH counter) keys
  induction remaining generalizing counter H' c with
  | zero =>
    unfold search lastShuffle
    simp only [h, hcost]
    rfl
  | succ remaining ih =>
    unfold search lastShuffle
    have hcond : c.max > 1 ↔ ¬ (keys.map (slot keys.length (shuffled draws H counter))).Nodup := by
      rw [← hmax, not_le]
    simp only [h, hcost, bind, Except.bind, hcond]
    split
    · obtain ⟨c', hcost', -, hmax'⟩ := cost_keys (shuffled_ne_nil draws hH (counter + 1)) keys
      exact ih (counter + 1) rfl c' hcost' hmax'
    · rw [hcost]
      rfl

/-! ## The table that is returned -/

section
variable (hsize maxcount : Nat → Nat) (draws : Nat → Nat → Nat) (inTime : Nat → Bool)
  (keys : List Bytes)

/-- The table after shuffle `n` of the search in `build`. -/
def triedTable (n : Nat) : List Nat := shuffled draws (List.range (hsize keys.length)) n

/-- The number of the last shuffle of the search in `build`. -/
def lastTry : Nat :=
  lastShuffle draws inTime keys (List.range (hsize keys.length)) (maxcount keys.length - 1) 0

/-- No table tried before the last one sends the keys to more slots than the last one. -/
def LastIsBest : Prop :=
  ∀ n < lastTry hsize maxcount draws inTime keys,
    usedSlots keys (triedTable hsize draws keys n) ≤
      usedSlots keys (triedTable hsize draws keys (lastTry hsize maxcount draws inTime keys))

end

/-- `build` returns the table that was tried last. -/
theorem build_returns_last {hsize : Nat → Nat} (hpos : ∀ n, 0 < hsize n) (maxcount : Nat → Nat)
    (draws : Nat → Nat → Nat) (inTime : Nat → Bool) {dict : Dict α} (args : List String)
    (hdict : dictInit dict = .ok (keys, values)) :
    ∃ ph, build hsize maxcount draws inTime dict args = .ok ph ∧ ph.size = keys.length ∧
      ph.H = triedTable hsize draws keys (lastTry hsize maxcount draws inTime keys) := by
  have hH : List.range (hsize keys.length) ≠ [] :=
    mt List.range_eq_nil.mp (hpos keys.length).ne'
  have hsearch := search_eq draws inTime keys hH (maxcount keys.length - 1) 0 rfl
  have hlast := shuffled_ne_nil draws hH (lastTry hsize maxcount draws inTime keys)
  obtain ⟨c, hcost, -, hmax⟩ := cost_keys hlast keys
  rw [← lastTry, hcost] at hsearch
  unfold build
  simp only [hdict, hsearch, bind, Except.bind, Except.map]
  split
  · have hkeys : keys ≠ [] := by
      rintro rfl
      have := hmax.mpr List.nodup_nil
      omega
    rw [collisions_eq hlast (List.length_pos_iff.mpr hkeys)]
    exact ⟨_, rfl, rfl, rfl⟩
  · exact ⟨_, rfl, rfl, rfl⟩

/-- `new` returns an object, and the collision sum of its table is not larger than the one of any
table with a number up to `last`. -/
def ReturnsBest (new : Run (Pearson α)) (keys : List Bytes) (tried : Nat → List Nat) (last : Nat) :
    Prop :=
  ∃ ph, new = .ok ph ∧ ∀ n ≤ last, ∃ c c', cost (object ph.size ph.H) keys = .ok c ∧
    cost (object ph.size (tried n)) keys = .ok c' ∧ c.sum ≤ c'.sum

/-- The common text returns a best one of the tables it tries exactly if the last one is. -/
theorem returnsBest_buildRef_iff (hbetter : RemembersFirst better) {hsize : Nat → Nat}
    (hpos : ∀ n, 0 < hsize n) (maxcount : Nat → Nat) (draws : Nat → Nat → Nat)
    (inTime : Nat → Bool) {dict : Dict α} (args : List String)
    (hdict : dictInit dict = .ok (keys, values)) :
    ReturnsBest (buildRef better draws inTime hsize maxcount dict args) keys
        (triedTable hsize draws keys) (lastTry hsize maxcount draws inTime keys) ↔
      LastIsBest hsize maxcount draws inTime keys := by
  unfold LastIsBest
  obtain ⟨ph, hnew, hsize', hH⟩ := build_returns_last hpos maxcount draws inTime args hdict
  rw [buildRef_eq_build hbetter, hnew]
  generalize lastTry hsize maxcount draws inTime keys = last at *
  have htable (n : Nat) : triedTable hsize draws keys n ≠ [] :=
    shuffled_ne_nil draws (mt List.range_eq_nil.mp (hpos keys.length).ne') n
  obtain ⟨c, hcost, hsum, -⟩ := cost_keys (htable last) keys
  constructor
  · rintro ⟨ph', hph', hbest⟩ n hn
    obtain rfl := Except.ok.inj hph'
    obtain ⟨c₁, c₂, hc₁, hc₂, hle⟩ := hbest n (Nat.le_of_lt hn)
    rw [hsize'] at hc₁ hc₂
    obtain ⟨c', hcost', hsum', -⟩ := cost_keys (htable n) keys
    obtain rfl := Except.ok.inj (hcost'.symm.trans hc₂)
    rw [hH] at hc₁
    obtain rfl := Except.ok.inj (hcost.symm.trans hc₁)
    omega
  · intro hbest
    refine ⟨ph, rfl, fun n hn => ?_⟩
    obtain ⟨c', hcost', hsum', -⟩ := cost_keys (htable n) keys
    rw [hsize', hH]
    refine ⟨c, c', hcost, hcost', ?_⟩
    rcases Nat.lt_or_eq_of_le hn with hlt | rfl
    · have := hbest n hlt
      omega
    · rw [hcost] at hcost'
      cases hcost'
      exact Nat.le_refl _

/-- `Pearson::new` and `PearsonNP::new` return the best of the tables they try exactly if it happens
to be the last one. -/
theorem returnsBest_iff (draws : Nat → Nat → Nat) (inTime : Nat → Bool) {dict : Dict α}
    (args : List String) (hdict : dictInit dict = .ok (keys, values)) :
    (ReturnsBest (Pearson.newRef draws inTime dict args) keys
        (triedTable (fun size => roundUp size size 8) draws keys)
        (lastTry (fun size => roundUp size size 8) (fun size => size - 1) draws inTime keys) ↔
      LastIsBest (fun size => roundUp size size 8) (fun size => size - 1) draws inTime keys) ∧
    (ReturnsBest (PearsonNP.newRef draws inTime dict args) keys
        (triedTable (fun _ => 256) draws keys)
        (lastTry (fun _ => 256) (fun _ => 30) draws inTime keys) ↔
      LastIsBest (fun _ => 256) (fun _ => 30) draws inTime keys) :=
  ⟨returnsBest_buildRef_iff better_remembersFirst (fun _ => roundUp_pos ..) _ draws inTime args
      hdict,
    returnsBest_buildRef_iff betterNP_remembersFirst (fun _ => Nat.succ_pos 255) _ draws inTime args
      hdict⟩

/-- Under the ordered table two of these keys share a slot. -/
def threeBytes : List Bytes := [[0], [1], [3]]

/-- The first shuffle keeps the ordered table, the second one swaps the numbers `1` and `6`. -/
def swapsOneSix (n i : Nat) : Nat := if n = 1 ∧ i = 1 then 5 else 0

theorem shuffled_swapsOneSix_zero :
    shuffled swapsOneSix (List.range 256) 0 = List.range 256 :=
  shuffle_zero (List.range 256)

theorem shuffled_swapsOneSix_one :
    shuffled swapsOneSix (List.range 256) 1 = shuffleStep (swapsOneSix 1) (List.range 256) 1 := by
  rw [shuffled, shuffled_swapsOneSix_zero]
  exact shuffle_single (by rw [List.length_range]; decide) fun j hj => if_neg fun h => hj h.2

/-- Under the ordered table these keys share one slot. -/
def multiplesOfThree : List Bytes := [[0], [6], [3]]

/-- The second table, which sends the second key to another slot, is returned and is the better. -/
theorem returnsBest_iff_multiplesOfThree : ReturnsBest
    (Pearson.newRef swapsOneSix (fun _ => true) (.array multiplesOfThree : Dict Int) [])
    multiplesOfThree (triedTable (fun size => roundUp size size 8) swapsOneSix multiplesOfThree)
    1 := by
  have hlast : lastTry (fun size => roundUp size size 8) (fun size => size - 1) swapsOneSix
      (fun _ => true) multiplesOfThree = 1 := by
    change lastShuffle swapsOneSix (fun _ => true) multiplesOfThree (List.range 256) 1 0 = 1
    rw [lastShuffle, shuffled_swapsOneSix_zero]
    decide +kernel
  have hdict : dictInit (.array multiplesOfThree : Dict Int) = .ok (multiplesOfThree, []) := rfl
  have hiff := (returnsBest_iff swapsOneSix (fun _ => true) [] hdict).1
  rw [LastIsBest, hlast] at hiff
  refine hiff.mpr fun n hn => ?_
  obtain rfl : n = 0 := by omega
  change usedSlots multiplesOfThree (shuffled swapsOneSix (List.range 256) 0) ≤
    usedSlots multiplesOfThree (shuffled swapsOneSix (List.range 256) 1)
  rw [shuffled_swapsOneSix_zero, shuffled_swapsOneSix_one]
  decide +kernel

/-- The second table sends all three keys to one slot, and it is returned. -/
theorem not_returnsBest : ¬ ReturnsBest
    (Pearson.newRef swapsOneSix (fun _ => true) (.array threeBytes : Dict Int) []) threeBytes
    (triedTable (fun size => roundUp size size 8) swapsOneSix threeBytes)
    (lastTry (fun size => roundUp size size 8) (fun size => size - 1) swapsOneSix (fun _ => true)
      threeBytes) := by
  have hlast : lastTry (fun size => roundUp size size 8) (fun size => size - 1) swapsOneSix
      (fun _ => true) threeBytes = 1 := by
    change lastShuffle swapsOneSix (fun _ => true) threeBytes (List.range 256) 1 0 = 1
    rw [lastShuffle, shuffled_swapsOneSix_zero]
    decide +kernel
  rw [Pearson.newRef, returnsBest_buildRef_iff better_remembersFirst (fun _ => roundUp_pos ..) _ _ _
    _ rfl, LastIsBest, hlast]
  intro hbest
  have hle : usedSlots threeBytes (shuffled swapsOneSix (List.range 256) 0) ≤
      usedSlots threeBytes (shuffled swapsOneSix (List.range 256) 1) := hbest 0 Nat.zero_lt_one
  rw [shuffled_swapsOneSix_zero, shuffled_swapsOneSix_one] at hle
  revert hle
  decide +kernel

end PerfectHash.Pearson
