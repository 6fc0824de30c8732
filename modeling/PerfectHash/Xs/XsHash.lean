import PerfectHash.Pearson.SaveC

/-! # The hash of `Pearson` in C (`xs_hash` of `Hash.xs`)

`xs_hash` takes for the length of the table its last index, `AvFILL(H)`. So for no table with a
power of two of entries does it take the path for 256 entries, and it never reads the last entry. It
agrees with `Pearson::hash` on a key and its prefixes as long as the latter does not read this entry
either and the numbers fit an `int` (`xsHash_eq_iff`). -/

namespace PerfectHash.Xs

open CValues C
open HanovPP (at? at?_natCast)
open Pearson (object walk)

/-- `x % n` for a `long` -/
def longRem (x n : Int) : Option Int :=
  if n = 0 then none else do
    -- the quotient has to fit, too
    let _ ← long.arith (x.tdiv n)
    return x.tmod n

/-- `SvIVX(AvARRAY(H)[i])` -/
def svIvx (H : List Nat) (i : Int) : Option Int := (at? H i).map fun n : Nat => long.conv n

/-- `d = h[ d ^ c ]` -/
def fastStep (h : List Int) (d : Int) (c : UInt8) : Option Int := at? h (Int.xor d c.toNat)

/-- `d = SvIVX(AvARRAY(H)[(d ^ c) % hsize])` -/
def xsStep (H : List Nat) (hsize : Int) (d : Int) (c : UInt8) : Option Int := do
  svIvx H (← longRem (Int.xor d c.toNat) hsize)

/-- The loops over the key, from the values `i` and `d` on. -/
def xsLoop (step : Int → UInt8 → Option Int) (i d : Int) : Bytes → Option Int
  | [] => some d
  | c :: s => do
    let d ← step d c
    xsLoop step (← int.arith (i + 1)) d s

/-- `xs_hash(ph, key)` for the object of a size and a table. -/
def xsHash (size : Nat) (H : List Nat) (key : Bytes) : Option Int := do
  let size := int.conv size
  let hsize := int.conv (H.length - 1)
  let d ←
    if hsize = 256 then do
      let h ← (List.range 256).mapM fun i : Nat => (svIvx H i).map unsignedChar.conv
      xsLoop (fastStep h) 0 0 key
    else xsLoop (xsStep H hsize) 0 0 key
  return unsignedLong.conv (← longRem d size)

/-! ## The arithmetic -/

variable {H : List Nat} {key k : Bytes} {c : UInt8} {d i n size : Nat}

theorem long_fits_of_le {q : Int} (hd : d < 2 ^ 63) (hq : q.natAbs ≤ d) : long.Fits q :=
  ⟨by norm_num [long]; omega, by norm_num [long]; omega⟩

/-- The sign of the divisor does not matter. -/
theorem longRem_natCast {n : Int} (hd : d < 2 ^ 63) (hn : n ≠ 0) :
    longRem d n = some ((d % n.natAbs : Nat) : Int) := by
  have hquot : ((d : Int).tdiv n).natAbs ≤ d := by
    rw [Int.natAbs_tdiv]
    exact Nat.div_le_self _ _
  have hrem : (d : Int).tmod n = ((d % n.natAbs : Nat) : Int) := by
    rcases Int.natAbs_eq n with h | h
    · rw [h, Int.natAbs_natCast]
      exact (Int.ofNat_tmod d n.natAbs).symm
    · rw [h, Int.tmod_neg, Int.natAbs_neg, Int.natAbs_natCast]
      exact (Int.ofNat_tmod d n.natAbs).symm
  rw [longRem, if_neg hn, IntType.arith_of_fits (long_fits_of_le hd hquot), hrem]
  rfl

/-! ## The loops -/

theorem xsLoop_cons (step : Int → UInt8 → Option Int) (i d : Int) (c : UInt8) (s : Bytes) :
    xsLoop step i d (c :: s) =
      (step d c).bind fun d => (int.arith (i + 1)).bind fun i => xsLoop step i d s := rfl

/-- For a long key the index overflows. -/
theorem xsLoop_overflow (step : Int → UInt8 → Option Int) (d : Int) (hi : i < 2 ^ 31)
    (h : 2 ^ 31 ≤ i + key.length) : xsLoop step i d key = none := by
  induction key generalizing i d with
  | nil => exact absurd h (Nat.not_le.mpr hi)
  | cons c key ih =>
    rw [List.length_cons] at h
    rw [xsLoop_cons]
    cases step d c with
    | none => rfl
    | some d' =>
      rw [Option.bind_some]
      by_cases hlt : i + 1 < 2 ^ 31
      · rw [arith_succ hlt, Option.bind_some]
        exact ih _ hlt (by omega)
      · rw [arith_overflow hlt, Option.bind_none]

theorem xsLoop_concat (step : Int → UInt8 → Option Int) (d : Int)
    (h : i + (k ++ [c]).length < 2 ^ 31) :
    xsLoop step i d (k ++ [c]) = (xsLoop step i d k).bind (step · c) := by
  induction k generalizing i d with
  | nil =>
    rw [List.nil_append, List.length_singleton] at h
    rw [List.nil_append, xsLoop_cons, arith_succ h]
    exact Option.bind_fun_some (step d c)
  | cons b k ih =>
    rw [List.cons_append, List.length_cons] at h
    rw [List.cons_append, xsLoop_cons, xsLoop_cons]
    cases step d b with
    | none => rw [Option.bind_none, Option.bind_none, Option.bind_none]
    | some d' =>
      rw [Option.bind_some, Option.bind_some, arith_succ (by omega), Option.bind_some,
        Option.bind_some]
      exact ih _ (by omega)

/-! ## The tables -/

theorem length_le {bits : Nat} (hH : H.Perm (List.range (2 ^ bits))) (h : H.length < 2 ^ 32) :
    H.length ≤ 2 ^ 31 := by
  rw [length_of_perm_range hH] at h ⊢
  have hlt : bits < 32 := (Nat.pow_lt_pow_iff_right Nat.one_lt_two).mp h
  exact Nat.pow_le_pow_right Nat.two_pos (by omega)

section
variable {bits : Nat} (hbits : 8 ≤ bits) (hH : H.Perm (List.range (2 ^ bits)))
include hbits hH

theorem le_length : 256 ≤ H.length := by
  rw [length_of_perm_range hH]
  exact Nat.pow_le_pow_right Nat.two_pos hbits

/-- The last index is not 256. -/
theorem last_ne : H.length - 1 ≠ 256 := by
  have heven : 2 ∣ H.length := by
    rw [length_of_perm_range hH]
    exact dvd_pow_self 2 (by omega)
  omega

theorem table : Pearson.Table .pearson H where
  lt x hx := by
    rw [length_of_perm_range hH]
    exact lt_of_perm_range hH hx
  ne_nil := List.ne_nil_of_length_pos (Nat.zero_lt_of_lt (le_length hbits hH))
  length_eq h := absurd rfl h

theorem getD_lt {i : Nat} (hi : i < H.length) : H.getD i 0 < H.length := by
  rw [List.getD_eq_getElem _ _ hi]
  exact (table hbits hH).lt _ (List.getElem_mem hi)

theorem walk_lt (k : Bytes) : walk H 0 k < H.length :=
  Pearson.walk_lt (table hbits hH) (Nat.zero_lt_of_lt (le_length hbits hH)) k

/-- The index that `hash` reads. -/
theorem xor_lt (k : Bytes) (c : UInt8) : walk H 0 k ^^^ c.toNat < H.length := by
  have hwalk := walk_lt hbits hH k
  have hc := c.toNat_lt.trans_le (le_length hbits hH)
  rw [length_of_perm_range hH] at hwalk hc ⊢
  exact Nat.xor_lt_two_pow hwalk hc

theorem walk_concat (k : Bytes) (c : UInt8) :
    walk H 0 (k ++ [c]) = H.getD (walk H 0 k ^^^ c.toNat) 0 := by
  have hwalk : walk H 0 (k ++ [c]) = H.getD (if H.length = 256 then walk H 0 k ^^^ c.toNat
      else (walk H 0 k ^^^ c.toNat) % H.length) 0 := by
    rw [walk, List.foldl_append]
    rfl
  rw [hwalk, Nat.mod_eq_of_lt (xor_lt hbits hH k c), ite_self]

end

/-! ## The hash -/

/-- `hsize` is the last index. -/
theorem conv_last (hpos : 256 ≤ H.length) (hlength : H.length ≤ 2 ^ 31) :
    int.conv ((H.length : Int) - 1) = ((H.length - 1 : Nat) : Int) := by
  rw [← int_conv_natCast (show H.length - 1 < 2 ^ 31 by omega)]
  congr 1
  omega

section
variable {bits : Nat} (hbits : 8 ≤ bits) (hH : H.Perm (List.range (2 ^ bits)))
  (hlength : H.length ≤ 2 ^ 31)
include hbits hH hlength

/-- The step reads the entry that `hash` reads, but the first one for the last one. -/
theorem xsStep_walk (k : Bytes) (c : UInt8) :
    xsStep H (int.conv (H.length - 1)) (walk H 0 k) c =
      some ((H.getD ((walk H 0 k ^^^ c.toNat) % (H.length - 1)) 0 : Nat) : Int) := by
  have hpos := le_length hbits hH
  have hlt := xor_lt hbits hH k c
  have hxor : Int.xor (walk H 0 k) c.toNat = ((walk H 0 k ^^^ c.toNat : Nat) : Int) := rfl
  rw [xsStep, hxor, conv_last hpos hlength, longRem_natCast (by omega) (by omega),
    Int.natAbs_natCast]
  generalize (walk H 0 k ^^^ c.toNat) = x at *
  have hmod := Nat.mod_lt x (show 0 < H.length - 1 by omega)
  have hentry := getD_lt hbits hH (show x % (H.length - 1) < H.length by omega)
  rw [Option.bind_eq_bind, Option.bind_some, svIvx, at?_natCast,
    getElem?_eq_getD (by omega) 0, Option.map_some, (Pearson.conv_entry (by omega) hentry).2]

/-- As long as the last entry is not read, the loop walks as `hash` does. -/
theorem xsLoop_eq_walk {k : Bytes} (hk : k.length < 2 ^ 31)
    (hlast : ∀ p c, p ++ [c] <+: k → walk H 0 p ^^^ c.toNat ≠ H.length - 1) :
    xsLoop (xsStep H (int.conv (H.length - 1))) 0 0 k = some (walk H 0 k : Int) := by
  induction k using List.reverseRecOn with
  | nil => rfl
  | append_singleton k c ih =>
    have hpos := le_length hbits hH
    have hlt := xor_lt hbits hH k c
    have hne := hlast k c (List.prefix_refl _)
    have hfront := ih (by rw [List.length_append] at hk; omega) fun p b hp =>
      hlast p b (hp.trans (List.prefix_append k [c]))
    rw [← Nat.cast_zero, xsLoop_concat _ _ (by omega), Nat.cast_zero, hfront, Option.bind_some,
      xsStep_walk hbits hH hlength, Nat.mod_eq_of_lt (by omega), walk_concat hbits hH]

end

/-- `xs_hash` takes the slow path on every table with a power of two of entries. -/
theorem xsHash_eq {bits : Nat} (hbits : 8 ≤ bits) (hH : H.Perm (List.range (2 ^ bits)))
    (hlength : H.length ≤ 2 ^ 31) (n : Nat) (k : Bytes) :
    xsHash n H k = (xsLoop (xsStep H (int.conv (H.length - 1))) 0 0 k).bind fun d =>
      (longRem d (int.conv n)).map unsignedLong.conv := by
  have hpos := le_length hbits hH
  have hne : int.conv ((H.length : Int) - 1) ≠ 256 := by
    have := last_ne hbits hH
    rw [conv_last hpos hlength]
    omega
  unfold xsHash
  simp only [if_neg hne]
  generalize xsLoop (xsStep H (int.conv (H.length - 1))) 0 0 k = r
  cases r with
  | none => rw [Option.bind_eq_bind, Option.bind_none, Option.bind_none]
  | some d =>
    rw [Option.bind_eq_bind, Option.bind_some, Option.bind_some]
    exact Option.map_eq_bind.symm

/-! ## Where they agree -/

/-- `xs_hash` returns what `hash` returns for a size and a key. -/
def AgreesAt (H : List Nat) (n : Nat) (k : Bytes) : Prop :=
  xsHash n H k = (Pearson.hash (object n H) k).toOption.map fun h : Nat => (h : Int)

theorem hash_toOption (hH : H ≠ []) (n : Nat) (k : Bytes) :
    (Pearson.hash (object n H) k).toOption = if n = 0 then none else some (walk H 0 k % n) := by
  simp only [Pearson.hash, object, Pearson.foldlM_step hH, bind, Except.bind, modulo]
  split <;> rfl

/-- What `xs_hash` is good for: the index in the key does not overflow, the last entry of the table
is not read, and no number that is read gets, with the larger one of the size and the length of the
table, out of the range of an `unsigned int`. -/
structure Covered (H : List Nat) (size : Nat) (key : Bytes) : Prop where
  length : key.length < 2 ^ 31
  last : ∀ k c, k ++ [c] <+: key → walk H 0 k ^^^ c.toNat ≠ H.length - 1
  size : ∀ k, k <+: key → walk H 0 k + max H.length size < 2 ^ 32

theorem natAbs_conv_of_le (hn : n ≤ 2 ^ 31) : (int.conv n).natAbs = n := by
  rw [int_conv, Int.bmod_def]
  omega

theorem natAbs_conv_of_ge (hn : 2 ^ 31 ≤ n) (hlt : n < 2 ^ 32) :
    (int.conv n).natAbs = 2 ^ 32 - n := by
  rw [int_conv, Int.bmod_def]
  omega

/-- A size that is a multiple of `2 ^ 32` is converted to 0. -/
theorem xsHash_of_conv_eq_zero (h : int.conv n = 0) (H : List Nat) (k : Bytes) :
    xsHash n H k = none := by
  have hrem (d : Int) : longRem d 0 = none := rfl
  unfold xsHash
  simp [h, hrem]

section
variable {bits : Nat} (hbits : 8 ≤ bits) (hH : H.Perm (List.range (2 ^ bits)))
  (hlength : H.length ≤ 2 ^ 31)
include hbits hH hlength

/-- The value of `xs_hash` after a loop that returned an entry. -/
theorem xsHash_of_loop (hd : d < H.length)
    (hloop : xsLoop (xsStep H (int.conv (H.length - 1))) 0 0 k = some (d : Int)) (n : Nat) :
    xsHash n H k =
      if int.conv n = 0 then none else some ((d % (int.conv n).natAbs : Nat) : Int) := by
  rw [xsHash_eq hbits hH hlength, hloop, Option.bind_some]
  split
  · rename_i h
    rw [h]
    rfl
  · rename_i h
    have hle := Nat.mod_le d (int.conv n).natAbs
    rw [longRem_natCast (by omega) h, Option.map_some, unsignedLong_conv_natCast (by omega)]

/-- The last entry of the table is not the first one. -/
theorem getD_last_ne : H.getD (H.length - 1) 0 ≠ H.getD 0 0 := by
  have hpos := le_length hbits hH
  have hnodup : H.Nodup := hH.nodup_iff.mpr List.nodup_range
  rw [List.getD_eq_getElem _ _ (by omega), List.getD_eq_getElem _ _ (by omega)]
  intro h
  have := (hnodup.getElem_inj_iff).mp h
  omega

/-- Where the loop returns what `hash` walks to, the two agree exactly for the sizes that give the
same remainder when they are converted to an `int`. -/
theorem agreesAt_iff
    (hloop : xsLoop (xsStep H (int.conv (H.length - 1))) 0 0 k = some (walk H 0 k : Int)) :
    AgreesAt H n k ↔ (int.conv n = 0 ↔ n = 0) ∧
      (n ≠ 0 → walk H 0 k % (int.conv n).natAbs = walk H 0 k % n) := by
  rw [AgreesAt, xsHash_of_loop hbits hH hlength (walk_lt hbits hH k) hloop,
    hash_toOption (table hbits hH).ne_nil]
  generalize int.conv n = m
  by_cases hm : m = 0
  · rw [if_pos hm]
    by_cases hn : n = 0
    · rw [if_pos hn]
      exact ⟨fun _ => ⟨⟨fun _ => hn, fun _ => hm⟩, fun h => absurd hn h⟩, fun _ => rfl⟩
    · rw [if_neg hn]
      exact ⟨nofun, fun h => absurd (h.1.mp hm) hn⟩
  · rw [if_neg hm]
    by_cases hn : n = 0
    · rw [if_pos hn]
      exact ⟨nofun, fun h => absurd (h.1.mpr hn) hm⟩
    · rw [if_neg hn, Option.map_some, Option.some.injEq, Int.ofNat_inj]
      exact ⟨fun h => ⟨⟨fun h => absurd h hm, fun h => absurd h hn⟩, fun _ => h⟩, fun h => h.2 hn⟩

/-- If the two agree where `hash` reads the last entry, it was not read. -/
theorem last_of_agreesAt {c : UInt8} (hk : (k ++ [c]).length < 2 ^ 31)
    (hfront : ∀ p b, p ++ [b] <+: k → walk H 0 p ^^^ b.toNat ≠ H.length - 1)
    (h : AgreesAt H H.length (k ++ [c])) : walk H 0 k ^^^ c.toNat ≠ H.length - 1 := by
  intro hlast
  have hpos := le_length hbits hH
  have hfirst := getD_lt hbits hH (show 0 < H.length by omega)
  have hloop : xsLoop (xsStep H (int.conv (H.length - 1))) 0 0 (k ++ [c]) =
      some (H.getD 0 0 : Int) := by
    have hk' : k.length < 2 ^ 31 := by
      rw [List.length_append] at hk
      omega
    rw [← Nat.cast_zero, xsLoop_concat _ _ (by omega), Nat.cast_zero,
      xsLoop_eq_walk hbits hH hlength hk' hfront, Option.bind_some, xsStep_walk hbits hH hlength,
      hlast, Nat.mod_self]
  have habs := natAbs_conv_of_le hlength
  have hconv : int.conv H.length ≠ 0 := fun h => by
    rw [h] at habs
    omega
  rw [AgreesAt, xsHash_of_loop hbits hH hlength hfirst hloop, if_neg hconv, habs,
    hash_toOption (table hbits hH).ne_nil, if_neg (by omega), Option.map_some, Option.some.injEq,
    Int.ofNat_inj, Nat.mod_eq_of_lt hfirst, Nat.mod_eq_of_lt (walk_lt hbits hH _),
    walk_concat hbits hH, hlast] at h
  exact getD_last_ne hbits hH hlength h.symm

end

/-- When the two hashes agree on a key and its prefixes, for all sizes up to the larger one of the
given size and the length of the table. -/
theorem xsHash_eq_iff {bits : Nat} (hbits : 8 ≤ bits) (hH : H.Perm (List.range (2 ^ bits)))
    (size : Nat) (key : Bytes) :
    (∀ k, k <+: key → ∀ n ≤ max H.length size, AgreesAt H n k) ↔ Covered H size key := by
  have hpos := le_length hbits hH
  have hne := (table hbits hH).ne_nil
  constructor
  · intro h
    have hmax : max H.length size < 2 ^ 32 := by
      by_contra hge
      have hnil := h [] List.nil_prefix (2 ^ 32) (by omega)
      have hconv : int.conv ((2 ^ 32 : Nat) : Int) = 0 := by decide
      rw [AgreesAt, xsHash_of_conv_eq_zero hconv, hash_toOption hne, if_neg (by decide)] at hnil
      cases hnil
    have hlength : H.length ≤ 2 ^ 31 := length_le hH (by omega)
    have hkey : key.length < 2 ^ 31 := by
      by_contra hge
      have hone := h key (List.prefix_refl key) 1 (by omega)
      have hloop : xsLoop (xsStep H (int.conv (H.length - 1))) 0 0 key = none :=
        xsLoop_overflow (i := 0) _ 0 (by decide) (by omega)
      rw [AgreesAt, xsHash_eq hbits hH hlength, hloop, hash_toOption hne] at hone
      cases hone
    have hlast (k : Bytes) : ∀ c, k ++ [c] <+: key → walk H 0 k ^^^ c.toNat ≠ H.length - 1 := by
      induction hn : k.length using Nat.strong_induction_on generalizing k with
      | _ n ih =>
        intro c hk
        have hle := hk.length_le
        refine last_of_agreesAt hbits hH hlength (by omega) (fun p b hp => ?_)
          (h _ hk _ (Nat.le_max_left ..))
        have hlt := hp.length_le
        rw [List.length_append, List.length_singleton] at hlt
        exact ih p.length (by omega) p rfl b
          (hp.trans ((List.prefix_append k [c]).trans hk))
    refine ⟨hkey, hlast, fun k hk => ?_⟩
    by_contra hge
    have hwalk := walk_lt hbits hH k
    have hloop := xsLoop_eq_walk hbits hH hlength (hk.length_le.trans_lt hkey) fun p c hp =>
      hlast p c (hp.trans hk)
    have hmod := ((agreesAt_iff hbits hH hlength hloop).mp (h k hk _ (Nat.le_refl _))).2 (by omega)
    have hlt := Nat.mod_lt (walk H 0 k) (show 0 < 2 ^ 32 - max H.length size by omega)
    rw [natAbs_conv_of_ge (by omega) hmax,
      Nat.mod_eq_of_lt (b := max H.length size) (by omega)] at hmod
    omega
  · intro hc k hk n hn
    have hsize := hc.size k hk
    have hlength : H.length ≤ 2 ^ 31 := length_le hH (by omega)
    have hwalk := walk_lt hbits hH k
    have hloop := xsLoop_eq_walk hbits hH hlength (hk.length_le.trans_lt hc.length) fun p c hp =>
      hc.last p c (hp.trans hk)
    refine (agreesAt_iff hbits hH hlength hloop).mpr ?_
    rw [← Int.natAbs_eq_zero]
    rcases Nat.le_total n (2 ^ 31) with hle | hge
    · rw [natAbs_conv_of_le hle]
      exact ⟨Iff.rfl, fun _ => rfl⟩
    · rw [natAbs_conv_of_ge hge (by omega)]
      refine ⟨by omega, fun _ => ?_⟩
      rw [Nat.mod_eq_of_lt (by omega), Nat.mod_eq_of_lt (by omega)]

theorem range_perm : (List.range 256).Perm (List.range (2 ^ 8)) := .refl _

/-- In the ordered table of 256 entries no prefix of the key `abc` leads to the last entry. -/
theorem xsHash_eq_iff_abc : AgreesAt (List.range 256) 256 [97, 98, 99] := by
  refine (xsHash_eq_iff (Nat.le_refl 8) range_perm 256 [97, 98, 99]).mpr ⟨by decide, ?_, ?_⟩
    [97, 98, 99] (List.prefix_refl _) 256 (Nat.le_max_right ..)
  · intro k c hk
    have hall : ∀ n ∈ List.range 4, n ≠ 0 →
        walk (List.range 256) 0 (([97, 98, 99] : Bytes).take n).dropLast ^^^
          ((([97, 98, 99] : Bytes).take n).getLastD 0).toNat ≠ 255 := by decide +kernel
    have hmem : (k ++ [c]).length ∈ List.range 4 :=
      List.mem_range.mpr (Nat.lt_succ_of_le hk.length_le)
    have hne := hall _ hmem (by simp)
    rw [← List.prefix_iff_eq_take.mp hk, List.dropLast_concat] at hne
    rw [List.length_range]
    simpa using hne
  · intro k _
    have hwalk := walk_lt (Nat.le_refl 8) range_perm k
    rw [List.length_range] at hwalk ⊢
    omega

/-- In the ordered table of 256 entries the byte 255 leads to the last entry, and `xs_hash` reads
the first one. -/
theorem not_agreesAt : ¬ ∀ (bits : Nat) (H : List Nat) (size : Nat) (key : Bytes), 8 ≤ bits →
    H.Perm (List.range (2 ^ bits)) → AgreesAt H size key := by
  intro h
  have hlast := h 8 (List.range 256) 256 [255] (Nat.le_refl 8) range_perm
  revert hlast
  unfold AgreesAt
  decide +kernel

end PerfectHash.Xs
