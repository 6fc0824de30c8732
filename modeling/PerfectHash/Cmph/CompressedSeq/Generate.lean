import PerfectHash.Cmph.CompressedSeq
import PerfectHash.Cmph.Select.Query
import PerfectHash.Lib.Codes

/-! # What `compressed_seq_generate` stores

The tables hold the codes of the values and the low bits of their ends, and the select structure
the high bits of the ends (`compressedSeqGenerate_holds`). -/

namespace PerfectHash.Cmph

open BitString RankSelect Codes

variable {vals lengths : List Nat} {t rems : List (BitVec 32)} {a : List Bool}
  {v e r z i total : Nat}

theorem encLength_eq (hv : v < 2 ^ 32 - 1) : encLength v = Nat.log2 (v + 1) := by
  rw [encLength]
  split
  · rename_i h
    rw [h]
    rfl
  · rw [iLog2_eq, u32_of_eq (n := v + 1) (by omega) (by push_cast; rfl), Nat.add_zero]

/-- The top bit of a value plus one. -/
theorem two_pow_encLength (hv : v < 2 ^ 32 - 1) :
    2 ^ encLength v ≤ v + 1 ∧ v + 1 < 2 ^ (encLength v + 1) := by
  rw [encLength_eq hv]
  exact ⟨Nat.log2_self_le (Nat.succ_ne_zero v), Nat.lt_log2_self⟩

theorem encLength_lt (hv : v < 2 ^ 32 - 1) : encLength v < 32 := by
  have hle := (two_pow_encLength hv).1
  by_contra h
  have := Nat.pow_le_pow_right (n := 2) (by decide) (Nat.le_of_not_lt h)
  omega

theorem encLength_eq_zero_iff (hv : v < 2 ^ 32 - 1) : encLength v = 0 ↔ v = 0 := by
  constructor
  · intro h
    have hlt := (two_pow_encLength hv).2
    rw [h] at hlt
    omega
  · rintro rfl
    rfl

/-- The stored value: a value plus one without its top bit. -/
def storedValue (val : Nat) : BitVec 32 := BitVec.ofNat 32 (val + 1 - 2 ^ encLength val)

/-- The code of a value. -/
def valueCode (val : Nat) : List Bool := word (encLength val) (storedValue val)

theorem toNat_storedValue (hv : v < 2 ^ 32 - 1) :
    (storedValue v).toNat = v + 1 - 2 ^ encLength v := by
  have hpos := Nat.two_pow_pos (encLength v)
  rw [storedValue, BitVec.toNat_ofNat, Nat.mod_eq_of_lt (by omega)]

theorem storedValue_lt (hv : v < 2 ^ 32 - 1) : (storedValue v).toNat < 2 ^ encLength v := by
  obtain ⟨hle, hlt⟩ := two_pow_encLength hv
  rw [toNat_storedValue hv]
  rw [Nat.pow_succ] at hlt
  omega

@[simp] theorem length_valueCode (v : Nat) : (valueCode v).length = encLength v := length_word _ _

theorem length_flatMap_valueCode (vals : List Nat) :
    (vals.flatMap valueCode).length = (vals.map encLength).sum := by
  rw [List.length_flatMap]
  simp only [length_valueCode]

theorem storeVals_spec (hvals : ∀ v ∈ vals, v < 2 ^ 32 - 1)
    (ht : bits t = a ++ List.replicate ((vals.map encLength).sum + z) false)
    (hlt : a.length + (vals.map encLength).sum < 2 ^ 32) :
    ∃ t', storeVals vals (vals.map encLength) a.length t =
        some (a.length + (vals.map encLength).sum, t') ∧ t'.length = t.length ∧
      bits t' = a ++ vals.flatMap valueCode ++ List.replicate z false := by
  induction vals generalizing a t with
  | nil =>
    refine ⟨t, rfl, rfl, ?_⟩
    rw [ht, List.map_nil, List.sum_nil, Nat.zero_add, List.flatMap_nil, List.append_nil]
  | cons v vals ih =>
    obtain ⟨hv, hvals⟩ := List.forall_mem_cons.mp hvals
    rw [List.map_cons, List.sum_cons] at ht hlt ⊢
    by_cases h0 : v = 0
    · have hlength := (encLength_eq_zero_iff hv).mpr h0
      rw [hlength, Nat.zero_add] at ht hlt ⊢
      obtain ⟨t', hstore, htlen, hbits⟩ := ih hvals ht hlt
      refine ⟨t', by rw [storeVals, if_pos h0, hstore], htlen, ?_⟩
      rw [hbits, List.flatMap_cons, valueCode, hlength]
      rfl
    · have hpos : 0 < encLength v :=
        Nat.pos_of_ne_zero fun h => h0 ((encLength_eq_zero_iff hv).mp h)
      have hpow := two_pow_encLength hv
      rw [Nat.add_assoc] at ht
      obtain ⟨t₁, hset, htlen₁, hbits₁⟩ := setField_zeros hpos (encLength_lt hv) (storedValue_lt hv) ht
      have hlen : (a ++ valueCode v).length = a.length + encLength v := by
        rw [List.length_append, length_valueCode]
      obtain ⟨t', hstore, htlen, hbits⟩ := ih hvals hbits₁ (by rw [← valueCode, hlen]; omega)
      rw [← valueCode, hlen] at hstore
      refine ⟨t', ?_, htlen.trans htlen₁, ?_⟩
      · have hvalue : BitVec.ofNat 32 (u32 ((v : Int) - (mask (encLength v)).toNat)) =
            storedValue v := by
          rw [toNat_mask (encLength_lt hv), u32_of_eq (n := v + 1 - 2 ^ encLength v) (by omega)
            (by omega)]
          rfl
        have hend : u32 ((a.length : Int) + encLength v) = a.length + encLength v :=
          u32_of_eq (by omega) (by push_cast; rfl)
        rw [storeVals, if_neg h0]
        dsimp only
        rw [hvalue, setBitsAtPos, hset, hend, Option.bind_eq_bind, Option.bind_some, hstore,
          Nat.add_assoc]
      · rw [hbits, List.flatMap_cons, ← valueCode, List.append_assoc a]

theorem storeEnds_spec (hr : 0 < r) (hr32 : r < 32)
    (ht : bits rems = a ++ List.replicate (lengths.length * r + z) false) (ha : a.length = i * r)
    (hlt : total + lengths.sum < 2 ^ 32) (hrlt : (i + lengths.length) * r < 2 ^ 32) :
    ∃ rems', storeEnds r (mask r) lengths i total rems =
        some ((ends total lengths).map (· >>> r), total + lengths.sum, rems') ∧
      rems'.length = rems.length ∧
      bits rems' = a ++ (ends total lengths).flatMap (remCode r) ++ List.replicate z false := by
  induction lengths generalizing a rems i total with
  | nil =>
    refine ⟨rems, rfl, rfl, ?_⟩
    rw [ht, List.length_nil, Nat.zero_mul, Nat.zero_add, ends, List.flatMap_nil, List.append_nil]
  | cons length lengths ih =>
    rw [List.sum_cons] at hlt ⊢
    rw [List.length_cons] at ht hrlt
    rw [Nat.succ_mul, Nat.add_comm _ r, Nat.add_assoc] at ht
    have hmul : i * r ≤ (i + (lengths.length + 1)) * r := Nat.mul_le_mul_right r (by omega)
    obtain ⟨rems₁, hset, hlen₁, hbits₁⟩ := setBitsValue_zeros hr hr32 ht ha (by omega)
      (total + length)
    have hlen : (a ++ remCode r (total + length)).length = (i + 1) * r := by
      rw [List.length_append, length_remCode, ha, Nat.succ_mul]
    have htotal : total + length + lengths.sum < 2 ^ 32 := by omega
    obtain ⟨rems', hstore, hrlen, hbits⟩ := ih hbits₁ hlen htotal
      (by rwa [Nat.add_right_comm, Nat.add_assoc])
    have hend : u32 ((total : Int) + length) = total + length :=
      u32_of_eq (by omega) (by push_cast; rfl)
    refine ⟨rems', ?_, hrlen.trans hlen₁, ?_⟩
    · rw [storeEnds, hend, hset]
      simp only [Option.bind_eq_bind, Option.bind_some, hstore]
      rw [Nat.add_assoc]
      rfl
    · rw [hbits, ends, List.flatMap_cons, List.append_assoc a]

/-- The structure stores the values. -/
structure CompressedSeq.Holds (cs : CompressedSeq) (vals : List Nat) : Prop where
  n : cs.n = vals.length
  totalLength : cs.totalLength = (vals.map encLength).sum
  pos : 0 < cs.remR
  lt : cs.remR < 32
  bound : ∀ v ∈ vals, v < 2 ^ 32 - 1
  storeTable : ∃ z, bits cs.storeTable = vals.flatMap valueCode ++ List.replicate z false
  lengthRems : ∃ z, bits cs.lengthRems =
    (ends 0 (vals.map encLength)).flatMap (remCode cs.remR) ++ List.replicate z false
  sel : ∃ z, cs.sel.Holds (unary 0 ((ends 0 (vals.map encLength)).map (· >>> cs.remR)) ++
    List.replicate z false)
  size : vals.length + (vals.map encLength).sum + 128 ≤ 2 ^ 32
  mul_remR : vals.length * cs.remR ≤ vals.length + (vals.map encLength).sum
  length_storeTable : cs.storeTable.length = ((vals.map encLength).sum + 31) / 32
  length_lengthRems : cs.lengthRems.length = (vals.length * cs.remR + 31) / 32

/-- The sum of the lengths of the codes. -/
theorem foldl_encLength (hlt : total + lengths.sum < 2 ^ 32) :
    lengths.foldl (fun (total length : Nat) => u32 (total + length)) total = total + lengths.sum := by
  induction lengths generalizing total with
  | nil => rfl
  | cons length lengths ih =>
    rw [List.sum_cons] at hlt ⊢
    rw [List.foldl_cons, u32_of_eq (n := total + length) (by omega) (by push_cast; rfl),
      ih (by omega), Nat.add_assoc]

/-- The high bits of the ends are ascending. -/
theorem pairwise_high (r : Nat) (lengths : List Nat) :
    (0 :: (ends 0 lengths).map (· >>> r)).Pairwise (· ≤ ·) := by
  refine List.pairwise_cons.mpr ⟨fun k _ => Nat.zero_le k,
    List.Pairwise.map _ (fun a b hab => ?_) (List.pairwise_cons.mp (pairwise_ends 0 _)).2⟩
  rw [Nat.shiftRight_eq_div_pow, Nat.shiftRight_eq_div_pow]
  exact Nat.div_le_div_right hab

/-- `compressed_seq_generate` stores the values, as long as a value plus one, and the table of the
codes, have not too many bits. -/
theorem compressedSeqGenerate_holds (hne : vals ≠ []) (hvals : ∀ v ∈ vals, v < 2 ^ 32 - 1)
    (hsize : vals.length + (vals.map encLength).sum + 128 ≤ 2 ^ 32) :
    ∃ cs, compressedSeqGenerate vals = some cs ∧ cs.Holds vals := by
  generalize hn : vals.length = n at hsize
  generalize htotal : (vals.map encLength).sum = total at hsize
  have hpos : 0 < n := hn ▸ List.length_pos_of_ne_nil hne
  generalize hremR : (if iLog2 (total / n) 0 = 0 then 1 else iLog2 (total / n) 0) = r
  obtain ⟨hr, hr32, hmul, -⟩ := remR_spec hremR (by omega)
  have hsum : (vals.map encLength).foldl (fun (total length : Nat) => u32 (total + length)) 0 =
      total := by
    rw [foldl_encLength (by omega), htotal, Nat.zero_add]
  have hstoreSize : u32 ((total : Int) + 31) = total + 31 := u32_of_eq (by omega) (by push_cast; rfl)
  have hremsSize : u32 ((n : Int) * r + 31) = n * r + 31 := u32_of_eq (by omega) (by push_cast; rfl)
  have hstart : bits (List.replicate ((total + 31) / 32) (0 : BitVec 32)) =
      [] ++ List.replicate ((vals.map encLength).sum + (32 * ((total + 31) / 32) - total)) false := by
    rw [bits_replicate_zero, htotal, List.nil_append]
    congr 1
    omega
  obtain ⟨storeTable, hstore, hslen, hsbits⟩ := storeVals_spec hvals hstart
    (by rw [List.length_nil]; omega)
  have hrstart : bits (List.replicate ((n * r + 31) / 32) (0 : BitVec 32)) = [] ++
      List.replicate ((vals.map encLength).length * r + (32 * ((n * r + 31) / 32) - n * r)) false := by
    rw [bits_replicate_zero, List.length_map, hn, List.nil_append]
    congr 1
    omega
  have hzero : ([] : List Bool).length = 0 * r := (Nat.zero_mul r).symm
  have hsumlt : 0 + (vals.map encLength).sum < 2 ^ 32 := by omega
  obtain ⟨lengthRems, hends, hrlen, hrbits⟩ := storeEnds_spec hr hr32 hrstart hzero hsumlt
    (by rw [List.length_map, hn, Nat.zero_add]; omega)
  rw [htotal, Nat.zero_add] at hends
  rw [htotal, List.length_nil, Nat.zero_add] at hstore
  rw [List.length_replicate] at hslen hrlen
  rw [List.nil_append] at hsbits hrbits
  have hsorted := (List.pairwise_cons.mp (pairwise_high r (vals.map encLength))).2
  have hhigh : ∀ k ∈ (ends 0 (vals.map encLength)).map (· >>> r), k ≤ total >>> r := by
    intro k hk
    obtain ⟨e, he, rfl⟩ := List.mem_map.mp hk
    have hle := le_of_mem_ends he
    rw [htotal, Nat.zero_add] at hle
    rw [Nat.shiftRight_eq_div_pow, Nat.shiftRight_eq_div_pow]
    exact Nat.div_le_div_right hle
  have hlen : ((ends 0 (vals.map encLength)).map (· >>> r)).length = n := by
    rw [List.length_map, length_ends, List.length_map, hn]
  have hshift := Nat.shiftRight_le total r
  obtain ⟨sel, zeros, hgen, -, -, hsel⟩ := selectGenerate_holds (m := total >>> r)
    (List.ne_nil_of_length_pos (by rwa [hlen])) hsorted hhigh (by rw [hlen]; omega)
  rw [hlen] at hgen
  refine ⟨{ n, remR := r, totalLength := total, sel, lengthRems, storeTable }, ?_,
    hn.symm, htotal.symm, hr, hr32, hvals, ⟨_, hsbits⟩, ⟨_, hrbits⟩, ⟨_, hsel⟩, by omega, ?_, ?_, ?_⟩
  · simp only [compressedSeqGenerate, hn, hsum, hstoreSize, shiftRight_five, hstore,
      Option.bind_eq_bind, Option.bind_some, if_neg hpos.ne', hremR, bitsTableSize, hremsSize, hends,
      hgen]
    rfl
  · rw [hn, htotal]
    exact hmul
  · rw [htotal]
    exact hslen
  · rw [hn]
    exact hrlen

end PerfectHash.Cmph
