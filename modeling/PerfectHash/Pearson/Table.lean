import PerfectHash.Pearson
import PerfectHash.Lib.Buckets

/-! # The tables of the Pearson hashes

What the loops of `new` compute: a shuffle permutes the table, `cost` finds out whether two keys
share a slot, and `collisions` distributes the keys with their values over the slots. All of it
holds for any table that is not empty, since that is what `hash` needs to return. -/

namespace PerfectHash.Pearson

/-- The number that `hash` walks to from `d`. -/
def walk (H : List Nat) (d : Nat) (key : Bytes) : Nat :=
  key.foldl (fun d c =>
    H.getD (if H.length = 256 then d ^^^ c.toNat else (d ^^^ c.toNat) % H.length) 0) d

/-- The slot of a key. -/
def slot (size : Nat) (H : List Nat) (key : Bytes) : Nat := walk H 0 key % size

variable {α : Type} {size : Nat} {H : List Nat} {keys : List Bytes} {values : List (Option α)}

theorem slot_lt (hsize : 0 < size) (key : Bytes) : slot size H key < size := Nat.mod_lt _ hsize

theorem slot_nil : slot size H [] = 0 := Nat.zero_mod _

theorem foldlM_step (hH : H ≠ []) (key : Bytes) (d : Nat) :
    key.foldlM (step H) d = .ok (walk H d key) := by
  induction key generalizing d with
  | nil => rfl
  | cons c key ih =>
    have hstep : step H d c =
        .ok (H.getD (if H.length = 256 then d ^^^ c.toNat else (d ^^^ c.toNat) % H.length) 0) := by
      unfold step
      split
      · rfl
      · rw [modulo_pos (List.length_pos_iff.mpr hH)]
        rfl
    rw [List.foldlM_cons, hstep]
    exact ih _

theorem hash_object (hH : H ≠ []) (hsize : 0 < size) (key : Bytes) :
    hash (object size H) key = .ok (slot size H key) := by
  simp only [hash, object, foldlM_step hH, bind, Except.bind, modulo_pos hsize, slot]

/-! ## Shuffling -/

theorem shuffleStep_perm (draw : Nat → Nat) {i : Nat} (hi : i < H.length) :
    (shuffleStep draw H i).Perm H := by
  have hj : i + draw i % max (H.length - 1 - i) 1 < H.length := by
    have := Nat.mod_lt (draw i) (show 0 < max (H.length - 1 - i) 1 by omega)
    rcases Nat.eq_zero_or_pos (H.length - 1 - i) with h | h
    · rw [h] at this ⊢
      omega
    · rw [Nat.max_eq_left h] at this ⊢
      omega
  unfold shuffleStep
  dsimp only
  simp only [List.getD_eq_getElem?_getD, List.getElem?_eq_getElem hi,
    List.getElem?_eq_getElem hj, Option.getD_some]
  exact List.set_set_perm hi hj

/-- A shuffle permutes the table. -/
theorem shuffle_perm (draw : Nat → Nat) (H : List Nat) : (shuffle draw H).Perm H := by
  have main (is : List Nat) (H' : List Nat) (his : ∀ i ∈ is, i < H'.length) :
      (is.foldl (shuffleStep draw) H').Perm H' := by
    induction is generalizing H' with
    | nil => exact .refl _
    | cons i is ih =>
      have hstep := shuffleStep_perm draw (his i List.mem_cons_self)
      refine (ih _ fun j hj => ?_).trans hstep
      rw [hstep.length_eq]
      exact his j (List.mem_cons_of_mem _ hj)
  exact main _ H fun i hi => List.mem_range.mp hi

theorem shuffle_ne_nil (draw : Nat → Nat) (hH : H ≠ []) : shuffle draw H ≠ [] :=
  fun h => hH (List.nil_perm.mp (h ▸ shuffle_perm draw H))

theorem shuffleStep_zero {draw : Nat → Nat} {i : Nat} (h : draw i = 0) (H : List Nat) :
    shuffleStep draw H i = H := by
  unfold shuffleStep
  dsimp only
  rw [h, Nat.zero_mod, Nat.add_zero, List.set_set]
  rcases Nat.lt_or_ge i H.length with hi | hi
  · rw [List.getD_eq_getElem _ _ hi, List.set_getElem_self]
  · rw [List.set_eq_of_length_le hi]

theorem foldl_shuffleStep_zero {draw : Nat → Nat} {is : List Nat} (h : ∀ i ∈ is, draw i = 0)
    (H : List Nat) : is.foldl (shuffleStep draw) H = H := by
  induction is with
  | nil => rfl
  | cons i is ih =>
    obtain ⟨hi, h⟩ := List.forall_mem_cons.mp h
    rw [List.foldl_cons, shuffleStep_zero hi, ih h]

/-- With zeros for the random numbers a shuffle leaves the table as it is. -/
theorem shuffle_zero (H : List Nat) : shuffle (fun _ => 0) H = H :=
  foldl_shuffleStep_zero (fun _ _ => rfl) H

/-- With zeros for all but one of the random numbers a shuffle is one step. -/
theorem shuffle_single {draw : Nat → Nat} {i : Nat} (hi : i < H.length)
    (h : ∀ j ≠ i, draw j = 0) : shuffle draw H = shuffleStep draw H i := by
  obtain ⟨front, back, hrange⟩ := List.append_of_mem (List.mem_range.mpr hi)
  have hnodup : (front ++ i :: back).Nodup := hrange ▸ List.nodup_range
  rw [List.nodup_middle, List.nodup_cons, List.mem_append, not_or] at hnodup
  rw [shuffle, hrange, List.foldl_append, List.foldl_cons,
    foldl_shuffleStep_zero fun j hj => h j (ne_of_mem_of_not_mem hj hnodup.1.1),
    foldl_shuffleStep_zero fun j hj => h j (ne_of_mem_of_not_mem hj hnodup.1.2)]

/-! ## The cost of a table -/

/-- The counters of `cost` after the keys that were sent to `slots`. -/
structure Cost.Counts (c : Cost) (slots : List Nat) : Prop where
  N : ∀ i, c.N i = slots.count i
  max : ∀ m, c.max ≤ m ↔ ∀ i, slots.count i ≤ m

theorem Cost.Counts.count {c : Cost} {slots : List Nat} (hc : c.Counts slots) (h : Nat) :
    (c.count h).Counts (slots ++ [h]) := by
  have hcount : ∀ i, (slots ++ [h]).count i = slots.count i + if i = h then 1 else 0 := by
    intro i
    rw [List.count_append, List.count_singleton]
    rcases eq_or_ne h i with rfl | hne
    · simp
    · simp [hne, hne.symm]
  refine ⟨fun i => ?_, fun m => ?_⟩
  · rw [hcount, Cost.count]
    dsimp only
    split
    · rename_i hi
      rw [hi, hc.N]
    · rw [hc.N, Nat.add_zero]
  · have hmax : (c.count h).max ≤ m ↔ c.max ≤ m ∧ c.N h + 1 ≤ m := by
      rw [Cost.count]
      dsimp only
      split <;> omega
    rw [hmax, hc.max, hc.N]
    constructor
    · rintro ⟨hle, hh⟩ i
      rw [hcount]
      split
      · rename_i hi
        rwa [hi]
      · exact hle i
    · intro hle
      refine ⟨fun i => ?_, ?_⟩
      · have := hle i
        rw [hcount] at this
        omega
      · have := hle h
        rwa [hcount, if_pos rfl] at this

/-- The counters of `cost` for keys with the given slots. -/
def Cost.of (slots : List Nat) : Cost :=
  slots.foldl Cost.count { N := fun _ => 0, sum := 0, max := 0 }

theorem Cost.of_concat (slots : List Nat) (h : Nat) :
    Cost.of (slots ++ [h]) = (Cost.of slots).count h := by
  rw [Cost.of, List.foldl_append]
  rfl

theorem Cost.counts_of (slots : List Nat) : (Cost.of slots).Counts slots := by
  induction slots using List.reverseRecOn with
  | nil => exact ⟨fun i => rfl, fun m => by simp [Cost.of]⟩
  | append_singleton slots h ih =>
    rw [Cost.of_concat]
    exact ih.count h

/-- `cost` counts the keys of each slot if they have one. -/
theorem cost_of_hash (h : ∀ k ∈ keys, hash (object size H) k = .ok (slot size H k)) :
    cost (object size H) keys = .ok (.of (keys.map (slot size H))) := by
  have main (ks : List Bytes) (hks : ∀ k ∈ ks, hash (object size H) k = .ok (slot size H k))
      (c : Cost) :
      (ks.foldlM (fun c k => do return c.count (← hash (object size H) k)) c : Run Cost) =
        .ok ((ks.map (slot size H)).foldl Cost.count c) := by
    induction ks generalizing c with
    | nil => rfl
    | cons k ks ih =>
      obtain ⟨hk, hks⟩ := List.forall_mem_cons.mp hks
      rw [List.foldlM_cons, hk]
      exact ih hks _
  exact main keys h _

/-- `cost` returns, and its `max` is at most 1 exactly when no two keys share a slot. -/
theorem cost_eq (hH : H ≠ []) (hsize : 0 < size) (keys : List Bytes) :
    ∃ c, cost (object size H) keys = .ok c ∧ c.Counts (keys.map (slot size H)) :=
  ⟨_, cost_of_hash fun k _ => hash_object hH hsize k, Cost.counts_of _⟩

theorem Cost.Counts.max_le_one_iff {c : Cost} {slots : List Nat} (hc : c.Counts slots) :
    c.max ≤ 1 ↔ slots.Nodup := by
  rw [hc.max, List.nodup_iff_count_le_one]

/-! ## The search -/

/-- The search of `new` returns a permutation of the table it starts with, and the cost of that
permutation. -/
theorem search_ok {draws : Nat → Nat → Nat} {inTime : Nat → Bool} {remaining counter : Nat}
    {H' : List Nat} {c : Cost}
    (h : search draws inTime size keys remaining counter H = .ok (H', c)) :
    H'.Perm H ∧ cost (object size H') keys = .ok c := by
  induction remaining generalizing counter H with
  | zero =>
    obtain ⟨c', hcost, h⟩ := bind_eq_ok.mp h
    cases h
    exact ⟨shuffle_perm _ _, hcost⟩
  | succ remaining ih =>
    obtain ⟨c', hcost, h⟩ := bind_eq_ok.mp h
    split at h
    · obtain ⟨hperm, hc⟩ := ih h
      exact ⟨hperm.trans (shuffle_perm _ _), hc⟩
    · cases h
      exact ⟨shuffle_perm _ _, hcost⟩

theorem search_zero {inTime : Nat → Bool} {remaining counter : Nat} {H' : List Nat} {c : Cost}
    (h : search (fun _ _ => 0) inTime size keys remaining counter H = .ok (H', c)) : H' = H := by
  induction remaining generalizing counter with
  | zero =>
    obtain ⟨c', -, h⟩ := bind_eq_ok.mp h
    cases h
    exact shuffle_zero H
  | succ remaining ih =>
    obtain ⟨c', -, h⟩ := bind_eq_ok.mp h
    rw [shuffle_zero] at h
    split at h
    · exact ih h
    · cases h
      rfl

/-- The search returns. -/
theorem search_returns (draws : Nat → Nat → Nat) (inTime : Nat → Bool) (keys : List Bytes)
    (remaining counter : Nat) (hH : H ≠ []) (hsize : 0 < size) :
    ∃ r, search draws inTime size keys remaining counter H = .ok r := by
  induction remaining generalizing counter H with
  | zero =>
    obtain ⟨c, hc, -⟩ := cost_eq (shuffle_ne_nil (draws counter) hH) hsize keys
    unfold search
    simp only [hc, bind, Except.bind]
    exact ⟨_, rfl⟩
  | succ remaining ih =>
    obtain ⟨c, hc, -⟩ := cost_eq (shuffle_ne_nil (draws counter) hH) hsize keys
    unfold search
    simp only [hc, bind, Except.bind]
    split
    · exact ih (counter + 1) (shuffle_ne_nil _ hH)
    · exact ⟨_, rfl⟩

/-! ## The collision lists -/

section
variable [Scalar α]

/-- The values that `collisions` gives the keys: their indices if there are no values. -/
def valuesOr (size : Nat) (values : List (Option α)) : List (Option α) :=
  if values ≠ [] then values else (List.range size).map fun i : Nat => some (Scalar.ofInt i)

/-- The keys with the values that `collisions` gives them. -/
def keyValues (size : Nat) (keys : List Bytes) (values : List (Option α)) :
    List (Bytes × Option α) :=
  keys.zipIdx.map fun p => (p.1, (valuesOr size values)[p.2]?.join)

/-- `collisions` distributes the keys with their values over the slots, if the keys have one. -/
theorem collisions_of_hash (values : List (Option α))
    (h : ∀ k ∈ keys, hash (object size H) k = .ok (slot size H k)) :
    collisions size H keys values = .ok ((Buckets.distribute
      (fun q : Bytes × Option α => slot size H q.1) size
        (keyValues size keys values)).map gather) := by
  have main (l : List (Bytes × Nat))
      (hl : ∀ p ∈ l, hash (object size H) p.1 = .ok (slot size H p.1))
      (acc : List (List (Bytes × Option α))) :
      (l.foldlM (fun C p => do
        let h ← hash (object size H) p.1
        return C.modify h (· ++ [(p.1, (valuesOr size values)[p.2]?.join)])) acc : Run _) =
      .ok ((l.map fun p => (p.1, (valuesOr size values)[p.2]?.join)).foldl
        (fun C q => C.modify (slot size H q.1) (· ++ [q])) acc) := by
    induction l generalizing acc with
    | nil => rfl
    | cons p l ih =>
      obtain ⟨hp, hl⟩ := List.forall_mem_cons.mp hl
      rw [List.foldlM_cons, hp, List.map_cons, List.foldl_cons, ← ih hl]
      rfl
  unfold collisions
  dsimp only
  rw [← valuesOr, main _ fun p hp => h p.1 (List.fst_mem_of_mem_zipIdx hp)]
  rfl

theorem collisions_eq (hH : H ≠ []) (hsize : 0 < size) (keys : List Bytes)
    (values : List (Option α)) :
    collisions size H keys values = .ok ((Buckets.distribute
      (fun q : Bytes × Option α => slot size H q.1) size
        (keyValues size keys values)).map gather) :=
  collisions_of_hash values fun k _ => hash_object hH hsize k

/-- The list of a slot holds the keys of the slot with their values. -/
theorem collisions_ok (hH : H ≠ []) (hsize : 0 < size) {C : List (Option (Colliding α))}
    (h : collisions size H keys values = .ok C) {i : Nat} (hi : i < size) :
    C[i]?.join = gather ((keyValues size keys values).filter fun p => slot size H p.1 = i) := by
  rw [collisions_eq hH hsize] at h
  cases h
  rw [List.getElem?_map, Buckets.getElem?_distribute hi]
  rfl

end
end PerfectHash.Pearson
