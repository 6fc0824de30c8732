import PerfectHash.HanovPP.Termination
import PerfectHash.Lib.HittingSets
import Mathlib.Data.Nat.Lattice
import Mathlib.Order.Interval.Finset.Nat

/-! # Buckets with room for their keys

Each seed that tells the keys of a bucket apart gives them a set of slots. If no `T` slots hit all
of these sets, where `T` is the number of keys in the buckets before it, then the bucket gets a
seed whatever seeds the other buckets got. `Roomy` says so of every bucket of two or more keys;
each bucket is looked at alone, and of the others only the number of keys counts. It is enough that
the seeds that tell the keys apart are many (`Ample`), since the seeds `1 .. 2 ^ 32` give a key as
many different hashes.

Conversely, if `new` terminates then each bucket of two or more keys has a seed that tells its keys
apart, which is all that `Roomy` asks of the only such bucket, and the buckets fit into the halves
of an even table. -/

namespace PerfectHash.HanovPP

open HittingSets

open scoped Finset

section
variable (hash : Bytes → Nat → Nat) (size : Nat) (keys : List Bytes) (bound : Nat)

/-- The seeds up to the bound that send the keys of bucket `b` to distinct slots. -/
def separating (b : Nat) : Finset Nat :=
  {d ∈ Finset.Icc 1 bound | ((bucket hash size keys b).map fun k => hash k d % size).Nodup}

/-- The slots of the keys of bucket `b` under seed `d`. -/
def slotSet (b d : Nat) : Finset Nat :=
  ((bucket hash size keys b).map fun k => hash k d % size).toFinset

/-- The sets of slots that the keys of bucket `b` get under the seeds that separate them. -/
def slotSets (b : Nat) : Set (Finset Nat) :=
  slotSet hash size keys b '' separating hash size keys bound b

/-- Some seed up to the bound separates the keys of each bucket of two or more. -/
def Separable : Prop :=
  ∀ b, 2 ≤ (bucket hash size keys b).length → (separating hash size keys bound b).Nonempty

/-- No set of as many slots as there are keys in the buckets before it hits the slot sets of a
bucket of two or more keys. -/
def Roomy : Prop :=
  ∀ before b after, sortBuckets size (fillBuckets hash size keys) = before ++ b :: after →
    2 ≤ (bucket hash size keys b).length →
    Resists (slotSets hash size keys bound b) (Finset.range size) (load hash size keys before)

/-- So many seeds separate the keys of a bucket of two or more that the slots of the keys in the
buckets before it cannot be in the way of all of them. -/
def Ample : Prop :=
  ∀ before b after, sortBuckets size (fillBuckets hash size keys) = before ++ b :: after →
    2 ≤ (bucket hash size keys b).length →
    load hash size keys before * ((bucket hash size keys b).length * (bound / size + 1)) <
      #(separating hash size keys bound b)

end

variable {hash : Bytes → Nat → Nat} {size bound : Nat} {keys : List Bytes} {args : List String}

/-! ## Roomy buckets get their seeds -/

/-- A bucket that resists as many slots as are taken has a fresh seed. -/
theorem nonempty_freshSeeds {taken : List Nat} (htaken : ∀ x ∈ taken, x < size)
    (h : Resists (slotSets hash size keys bound b) (Finset.range size) taken.length) :
    (freshSeeds hash size keys bound taken b).Nonempty := by
  have hsub : taken.toFinset ⊆ Finset.range size := fun x hx =>
    Finset.mem_range.mpr (htaken x (List.mem_toFinset.mp hx))
  obtain ⟨-, ⟨d, hd, rfl⟩, hdisj⟩ := h taken.toFinset hsub (List.toFinset_card_le taken)
  obtain ⟨hd, hnd⟩ := Finset.mem_filter.mp hd
  obtain ⟨hone, hbound⟩ := Finset.mem_Icc.mp hd
  refine ⟨d, hone, hbound, hnd, fun k hk hmem => ?_⟩
  refine Finset.disjoint_left.mp hdisj ?_ (List.mem_toFinset.mpr hmem)
  exact List.mem_toFinset.mpr (List.mem_map_of_mem hk)

/-- The buckets that are left are seedable whatever slots the keys before them took. -/
theorem Roomy.seedable (h : Roomy hash size keys bound) (hsize : 0 < size) {before taken : List Nat}
    (hsorted : sortBuckets size (fillBuckets hash size keys) = before ++ sorted)
    (htaken : ∀ x ∈ taken, x < size) (hload : taken.length = load hash size keys before) :
    Seedable hash size keys bound sorted taken := by
  induction sorted generalizing before taken with
  | nil => trivial
  | cons b sorted ih =>
    by_cases hone : (bucket hash size keys b).length ≤ 1
    · exact .inl hone
    have hroom := h before b sorted hsorted (by omega)
    rw [← hload] at hroom
    have hfresh := nonempty_freshSeeds htaken hroom
    refine .inr ⟨sInf _, ⟨Nat.sInf_mem hfresh, fun d hd => Nat.sInf_le hd⟩, ?_⟩
    have hnext : sortBuckets size (fillBuckets hash size keys) = (before ++ [b]) ++ sorted := by
      rw [hsorted, List.append_assoc]
      rfl
    refine ih hnext ?_ ?_
    · intro x hx
      rcases List.mem_append.mp hx with hx | hx
      · exact htaken x hx
      · obtain ⟨k, -, rfl⟩ := List.mem_map.mp hx
        exact Nat.mod_lt _ hsize
    · rw [List.length_append, List.length_map, hload, load, load, List.map_append, List.sum_append,
        List.map_singleton, List.sum_singleton]

/-- With one bucket of two or more keys, a seed that separates its keys is enough. -/
theorem roomy_of_one (hone : ∀ b b', 2 ≤ (bucket hash size keys b).length →
      2 ≤ (bucket hash size keys b').length → b = b')
    (hsep : Separable hash size keys bound) : Roomy hash size keys bound := by
  intro before b after hsorted hmany
  have hdesc : (sortBuckets size (fillBuckets hash size keys)).Pairwise _ := pairwise_sortBuckets
  have hnd := nodup_sortBuckets size (fillBuckets hash size keys)
  rw [hsorted] at hdesc hnd
  -- a bucket before it has as many keys, so it is the same bucket
  have hnil : before = [] := by
    refine List.eq_nil_iff_forall_not_mem.mpr fun c hc => ?_
    have hle := (List.pairwise_append.mp hdesc).2.2 c hc b List.mem_cons_self
    have hne := (List.nodup_append.mp hnd).2.2 c hc b List.mem_cons_self
    exact hne (hone c b (hmany.trans hle) hmany)
  rw [hnil]
  exact resists_zero_iff.mpr ((hsep b hmany).to_set.image _)

/-! ## Many separating seeds -/

/-- A slot belongs to a key under few seeds. -/
theorem card_seeds_le (k : Bytes) (x : Nat) :
    #{d ∈ Finset.Icc 1 (2 ^ 32) | fnv k d % size = x} ≤ 2 ^ 32 / size + 1 := by
  -- the quotients of the hashes are different and small
  have hmem {d : Nat} (hd : d ∈ Finset.filter (fun d => fnv k d % size = x)
      (Finset.Icc 1 (2 ^ 32))) : (1 ≤ d ∧ d ≤ 2 ^ 32) ∧ fnv k d % size = x :=
    (Finset.mem_filter.mp hd).imp Finset.mem_Icc.mp id
  rw [← Finset.card_range (2 ^ 32 / size + 1)]
  refine Finset.card_le_card_of_injOn (fun d => fnv k d / size) (fun d _ => ?_) ?_
  · have := Nat.div_le_div_right (c := size) (Nat.le_of_lt (fnv_lt k d))
    exact Finset.mem_coe.mpr (Finset.mem_range.mpr (Nat.lt_succ_of_le this))
  · intro d hd d' hd' h
    obtain ⟨hd, hx⟩ := hmem hd
    obtain ⟨hd', hx'⟩ := hmem hd'
    dsimp only at h
    have hhash : fnv k d = fnv k d' := by
      rw [← Nat.div_add_mod (fnv k d) size, ← Nat.div_add_mod (fnv k d') size, hx, hx', h]
    exact fnv_inj hd hd' hhash

theorem Ample.roomy (h : Ample fnv size keys (2 ^ 32)) : Roomy fnv size keys (2 ^ 32) := by
  intro before b after hsorted hmany
  refine resists_of_card_lt (fun d hd => Set.mem_image_of_mem _ hd) (fun x _ => ?_)
    (h before b after hsorted hmany)
  have hcover : {d ∈ separating fnv size keys (2 ^ 32) b | x ∈ slotSet fnv size keys b d} ⊆
      (bucket fnv size keys b).toFinset.biUnion fun k =>
        {d ∈ Finset.Icc 1 (2 ^ 32) | fnv k d % size = x} := by
    intro d hd
    obtain ⟨hd, hx⟩ := Finset.mem_filter.mp hd
    obtain ⟨k, hk, hslot⟩ := List.mem_map.mp (List.mem_toFinset.mp hx)
    exact Finset.mem_biUnion.mpr ⟨k, List.mem_toFinset.mpr hk,
      Finset.mem_filter.mpr ⟨(Finset.mem_filter.mp hd).1, hslot⟩⟩
  refine (Finset.card_le_card hcover).trans ?_
  refine (Finset.card_biUnion_le_card_mul _ _ _ fun k _ => card_seeds_le k x).trans ?_
  exact Nat.mul_le_mul_right _ (List.toFinset_card_le _)

/-! ## When `new` terminates -/

theorem separable_of_new {keys : List Bytes} {ph : HanovPP Int}
    (hnew : new fnv turns (.array keys) args = .ok ph) :
    Separable fnv (pad keys).length (pad keys) (2 ^ 32) := by
  intro b hmany
  obtain ⟨keys', values, hinit, ht, -⟩ := new_ok hnew
  cases hinit
  obtain ⟨k, hk⟩ := List.exists_mem_of_length_pos (Nat.zero_lt_of_lt hmany)
  obtain ⟨hkeys, rfl⟩ := mem_bucket.mp hk
  have hc := tables_complete (List.ne_nil_of_mem hkeys) ht
  have hentry := hc.entry _ (Nat.mod_lt (fnv k 0) (List.length_pos_of_mem hkeys))
  have hseed := hentry.multi hmany
  obtain ⟨d, hd⟩ := Int.eq_ofNat_of_zero_le (Int.le_of_lt hseed)
  have hone : 1 ≤ d := by omega
  have hdistinct := hentry.distinct
  rw [hd, map_entrySlot_natCast hone] at hdistinct
  obtain ⟨d', hd', hle, heq⟩ := exists_seed_le hone
  refine ⟨d', Finset.mem_filter.mpr ⟨Finset.mem_Icc.mpr ⟨hd', hle⟩, ?_⟩⟩
  simpa only [heq] using hdistinct

/-- `new` terminates on an arrayref whose buckets are roomy. They are roomy if they are ample, or if
only one of them has two or more keys and some seed separates these. Where `new` terminates some
seed separates the keys of each bucket, and the buckets of two or more keys fit into the halves of
a table of even size. -/
theorem new_terminates (keys : List Bytes) (args : List String) :
    let size := (pad keys).length
    (Roomy fnv size (pad keys) (2 ^ 32) → Terminates keys args) ∧
      (Ample fnv size (pad keys) (2 ^ 32) → Roomy fnv size (pad keys) (2 ^ 32)) ∧
      ((∀ b b', 2 ≤ (bucket fnv size (pad keys) b).length →
          2 ≤ (bucket fnv size (pad keys) b').length → b = b') →
        Separable fnv size (pad keys) (2 ^ 32) → Roomy fnv size (pad keys) (2 ^ 32)) ∧
      (Terminates keys args → Separable fnv size (pad keys) (2 ^ 32) ∧
        (2 ∣ size → Halvable fnv size (pad keys))) := by
  refine ⟨fun hroomy => ?_, Ample.roomy, roomy_of_one, ?_⟩
  · rw [terminates_iff_seedable]
    rcases Nat.eq_zero_or_pos (pad keys).length with h0 | hpos
    · rw [h0]
      trivial
    · exact hroomy.seedable hpos (List.nil_append _).symm nofun rfl
  · rintro ⟨⟨turns, ph, hnew⟩, -⟩
    exact ⟨separable_of_new hnew, halvable_of_new hnew⟩

/-- The keys `b`, `d`, `f`, `h` and `j`. -/
def fiveKeys : List Bytes := [[98], [100], [102], [104], [106]]

/-- Two keys of `fiveKeys` are in bucket 0 and two in bucket 3. Under five of the first seeds the
slots of the latter are those of the sides of a pentagon, which no two corners hit. -/
theorem roomy_fiveKeys : Roomy fnv 5 fiveKeys (2 ^ 32) := by
  intro before b after hsorted hmany S hS hcard
  have hsome : ∀ S ∈ (Finset.range 5).powerset, #S ≤ load fnv 5 fiveKeys before →
      ∃ d ∈ List.range 21, ((bucket fnv 5 fiveKeys b).map fun k => fnv k (d + 1) % 5).Nodup ∧
        Disjoint (slotSet fnv 5 fiveKeys b (d + 1)) S := by
    rw [show sortBuckets 5 (fillBuckets fnv 5 fiveKeys) = [0, 3, 2, 1, 4] by decide +kernel]
      at hsorted
    match before, hsorted with
    | [], hsorted =>
      obtain ⟨rfl, -⟩ := List.cons.inj hsorted
      decide +kernel
    | [first], hsorted =>
      obtain ⟨hfirst, htail⟩ := List.cons.inj hsorted
      subst hfirst
      obtain ⟨rfl, -⟩ := List.cons.inj htail
      decide +kernel
    | _ :: _ :: before, hsorted =>
      have hmem : b ∈ [2, 1, 4] := by
        rw [(List.cons.inj (List.cons.inj hsorted).2).2]
        exact List.mem_append_right _ List.mem_cons_self
      have hfew : ∀ b ∈ [2, 1, 4], (bucket fnv 5 fiveKeys b).length < 2 := by decide +kernel
      have := hfew b hmem
      omega
  obtain ⟨d, hd, hnd, hdisj⟩ := hsome S (Finset.mem_powerset.mpr hS) hcard
  have := List.mem_range.mp hd
  refine ⟨_, Set.mem_image_of_mem _ (Finset.mem_filter.mpr ⟨Finset.mem_Icc.mpr ?_, hnd⟩), hdisj⟩
  omega

theorem new_terminates_fiveKeys : Terminates fiveKeys [] :=
  (new_terminates fiveKeys []).1 roomy_fiveKeys

end PerfectHash.HanovPP
