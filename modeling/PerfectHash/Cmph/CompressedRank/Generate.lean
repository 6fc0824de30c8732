import PerfectHash.Cmph.CompressedRank
import PerfectHash.Cmph.Select.Query

/-! # What `compressed_rank_generate` stores

The table holds the low bits of the values, and the select structure how many values have a smaller
quotient (`compressedRankGenerate_holds`). -/

namespace PerfectHash.Cmph

open BitString RankSelect Codes

variable {vals : List Nat} {t : List (BitVec 32)} {a : List Bool} {r z i j q count maxVal : Nat}

/-- How many values have a smaller quotient. -/
def smaller (remR : Nat) (vals : List Nat) (q : Nat) : Nat :=
  vals.countP fun val => val >>> remR < q

theorem smaller_mono (r : Nat) (vals : List Nat) (h : i ≤ j) :
    smaller r vals i ≤ smaller r vals j :=
  List.countP_mono_left fun _ _ hval => decide_eq_true ((of_decide_eq_true hval).trans_le h)

theorem smaller_le (r : Nat) (vals : List Nat) (q : Nat) : smaller r vals q ≤ vals.length :=
  List.countP_le_length

theorem shiftRight_mono (r : Nat) (h : i ≤ j) : i >>> r ≤ j >>> r := by
  rw [Nat.shiftRight_eq_div_pow, Nat.shiftRight_eq_div_pow]
  exact Nat.div_le_div_right h

/-- The values with a smaller quotient are the first ones. -/
theorem lt_smaller_iff (hsorted : vals.Pairwise (· ≤ ·)) {v : Nat} (hi : vals[i]? = some v) :
    i < smaller r vals q ↔ v >>> r < q := by
  rw [smaller, lt_countP_iff (x := v) (hsorted.imp fun hab hb => ?_) hi, decide_eq_true_iff]
  exact decide_eq_true ((shiftRight_mono r hab).trans_lt (of_decide_eq_true hb))

theorem storeRems_spec (hr : 0 < r) (hr32 : r < 32)
    (ht : bits t = a ++ List.replicate (vals.length * r + z) false) (ha : a.length = i * r)
    (hlt : (i + vals.length) * r < 2 ^ 32) :
    ∃ t', storeRems r (mask r) vals i t = some t' ∧ t'.length = t.length ∧
      bits t' = a ++ vals.flatMap (remCode r) ++ List.replicate z false := by
  induction vals generalizing a t i with
  | nil =>
    refine ⟨t, rfl, rfl, ?_⟩
    rw [ht, List.length_nil, Nat.zero_mul, Nat.zero_add, List.flatMap_nil, List.append_nil]
  | cons v vals ih =>
    rw [List.length_cons] at ht hlt
    rw [Nat.succ_mul, Nat.add_comm _ r, Nat.add_assoc] at ht
    have hmul : i * r ≤ (i + (vals.length + 1)) * r := Nat.mul_le_mul_right r (by omega)
    obtain ⟨t₁, hset, hlen₁, hbits₁⟩ := setBitsValue_zeros hr hr32 ht ha (by omega) v
    have hlen : (a ++ remCode r v).length = (i + 1) * r := by
      rw [List.length_append, length_remCode, ha, Nat.succ_mul]
    obtain ⟨t', hstore, hlen', hbits⟩ := ih hbits₁ hlen (by rwa [Nat.add_right_comm, Nat.add_assoc])
    refine ⟨t', ?_, hlen'.trans hlen₁, ?_⟩
    · rw [storeRems, hset, Option.bind_eq_bind, Option.bind_some, hstore]
    · rw [hbits, List.flatMap_cons, List.append_assoc a]

/-- The loop stops at the first value with a quotient that is not smaller. -/
theorem skipVals_spec (hsorted : vals.Pairwise (· ≤ ·)) (hj : j ≤ smaller r vals q)
    (hlt : smaller r vals q < vals.length) :
    skipVals r q (vals.drop j) j = some (smaller r vals q) := by
  induction hd : smaller r vals q - j generalizing j with
  | zero =>
    have hjlt : j < vals.length := by omega
    have hnot := mt (lt_smaller_iff (r := r) (q := q) hsorted (List.getElem?_eq_getElem hjlt)).mpr
      (show ¬j < smaller r vals q by omega)
    rw [List.drop_eq_getElem_cons hjlt, skipVals, if_neg hnot]
    congr 1
    omega
  | succ d ih =>
    have hjlt : j < vals.length := by omega
    have hq := (lt_smaller_iff (r := r) (q := q) hsorted (List.getElem?_eq_getElem hjlt)).mp
      (by omega)
    rw [List.drop_eq_getElem_cons hjlt, skipVals, if_pos hq, ih (by omega) (by omega)]

theorem storeSelectVec_spec (hsorted : vals.Pairwise (· ≤ ·)) (hj : j ≤ smaller r vals i)
    (hlt : ∀ q < i + count, smaller r vals q < vals.length) :
    storeSelectVec vals r count i j = some ((List.range' i count).map (smaller r vals)) := by
  induction count generalizing i j with
  | zero => rfl
  | succ count ih =>
    have hskip := skipVals_spec hsorted hj (hlt i (by omega))
    have hrest := ih (i := i + 1) (smaller_mono r vals (Nat.le_succ i))
      fun q hq => hlt q (by omega)
    simp only [storeSelectVec, hskip, hrest, Option.bind_eq_bind, Option.bind_some,
      List.range'_succ, List.map_cons, Option.pure_def]

/-- The numbers of the select structure. -/
def selectVec (remR maxVal : Nat) (vals : List Nat) : List Nat :=
  (List.range' 1 (maxVal >>> remR)).map (smaller remR vals)

theorem getElem?_selectVec {k : Nat} : (selectVec r maxVal vals)[j]? = some k ↔
    j < maxVal >>> r ∧ k = smaller r vals (j + 1) := by
  rw [selectVec, List.getElem?_map, Option.map_eq_some_iff]
  constructor
  · rintro ⟨q, hq, rfl⟩
    obtain ⟨hj, rfl⟩ := List.getElem?_eq_some_iff.mp hq
    rw [List.length_range'] at hj
    rw [List.getElem_range', Nat.one_mul, Nat.add_comm]
    exact ⟨hj, rfl⟩
  · rintro ⟨hj, rfl⟩
    refine ⟨j + 1, ?_, rfl⟩
    rw [List.getElem?_range' hj, Nat.one_mul, Nat.add_comm]

theorem pairwise_selectVec (r maxVal : Nat) (vals : List Nat) :
    (0 :: selectVec r maxVal vals).Pairwise (· ≤ ·) := by
  refine List.pairwise_cons.mpr ⟨fun k _ => Nat.zero_le k, List.Pairwise.map _ (fun a b hab => ?_)
    (List.pairwise_lt_range' 1)⟩
  exact smaller_mono r vals (Nat.le_of_lt hab)

/-- The structure stores the ascending values. -/
structure CompressedRank.Holds (cr : CompressedRank) (vals : List Nat) : Prop where
  n : cr.n = vals.length
  maxVal : vals.getLast? = some cr.maxVal
  pos : 0 < cr.remR
  lt : cr.remR < 32
  sorted : vals.Pairwise (· ≤ ·)
  valsRems : ∃ z, bits cr.valsRems = vals.flatMap (remCode cr.remR) ++ List.replicate z false
  sel : ∃ z, cr.sel.Holds
    (unary 0 (selectVec cr.remR cr.maxVal vals) ++ List.replicate z false)
  sel_n : cr.sel.n = cr.maxVal >>> cr.remR
  sel_m : cr.sel.m = vals.length
  size : vals.length + cr.maxVal + 128 ≤ 2 ^ 32
  mul_remR : vals.length * cr.remR ≤ vals.length + cr.maxVal
  length_valsRems : cr.valsRems.length = (vals.length * cr.remR + 31) / 32

/-- `compressed_rank_generate` stores ascending values. Where all of them are less than 2, it reads
an entry of the empty table `select_vec`. -/
theorem compressedRankGenerate_holds (hsorted : vals.Pairwise (· ≤ ·))
    (hmax : vals.getLast? = some maxVal) (htwo : 2 ≤ maxVal)
    (hsize : vals.length + maxVal + 128 ≤ 2 ^ 32) :
    ∃ cr, compressedRankGenerate vals = some cr ∧ cr.Holds vals := by
  generalize hn : vals.length = n at hsize
  have hlast : vals[n - 1]? = some maxVal := by rw [← hn, ← List.getLast?_eq_getElem?, hmax]
  have hpos : 0 < n := by
    have hlt := (List.getElem?_eq_some_iff.mp hlast).1
    omega
  generalize hremR : (if iLog2 (maxVal / n) 0 = 0 then 1 else iLog2 (maxVal / n) 0) = r
  obtain ⟨hr, hr32, hmul, hpow⟩ := remR_spec hremR (by omega)
  have hremsSize : u32 ((n : Int) * r + 31) = n * r + 31 := u32_of_eq (by omega) (by push_cast; rfl)
  have hstart : bits (List.replicate ((n * r + 31) / 32) (0 : BitVec 32)) =
      [] ++ List.replicate (vals.length * r + (32 * ((n * r + 31) / 32) - n * r)) false := by
    rw [bits_replicate_zero, hn, List.nil_append]
    congr 1
    omega
  have hzero : ([] : List Bool).length = 0 * r := (Nat.zero_mul r).symm
  obtain ⟨valsRems, hstore, hlen, hbits⟩ := storeRems_spec hr hr32 hstart hzero
    (by rw [hn, Nat.zero_add]; omega)
  rw [List.length_replicate] at hlen
  rw [List.nil_append] at hbits
  -- the last value has the largest quotient
  have hlt : ∀ q < 1 + maxVal >>> r, smaller r vals q < vals.length := by
    intro q hq
    have hnot := mt (lt_smaller_iff (r := r) (q := q) hsorted hlast).mp (by omega)
    omega
  have hvec := storeSelectVec_spec (j := 0) hsorted (Nat.zero_le _) hlt
  have hne : 0 < maxVal >>> r := by
    rw [Nat.shiftRight_eq_div_pow]
    exact Nat.div_pos (hpow htwo) (Nat.two_pow_pos r)
  have hveclen : (selectVec r maxVal vals).length = maxVal >>> r := by
    rw [selectVec, List.length_map, List.length_range']
  have hshift := Nat.shiftRight_le maxVal r
  obtain ⟨sel, zeros, hgen, hseln, hselm, hsel⟩ := selectGenerate_holds (m := n)
    (List.ne_nil_of_length_pos (by rwa [hveclen]))
    (List.pairwise_cons.mp (pairwise_selectVec r maxVal vals)).2
    (fun k hk => by
      obtain ⟨q, -, rfl⟩ := List.mem_map.mp hk
      rw [← hn]
      exact smaller_le r vals q)
    (by rw [hveclen]; omega)
  rw [hveclen] at hgen hseln
  refine ⟨{ maxVal, n, remR := r, sel, valsRems }, ?_, hn.symm, hmax, hr, hr32, hsorted, ⟨_, hbits⟩,
    ⟨_, hsel⟩, hseln, hselm.trans hn.symm, by rw [hn]; exact hsize, by rw [hn]; exact hmul,
    by rw [hn]; exact hlen⟩
  simp only [compressedRankGenerate, hn, hlast, hremR, bitsTableSize, hremsSize, shiftRight_five,
    hstore, hvec, Option.bind_eq_bind, Option.bind_some]
  rw [← selectVec, hgen]
  rfl

end PerfectHash.Cmph
