import PerfectHash.PerfectHashInt.Assign

/-! # The generated hash function

A table that `_construct_hash_table` returns adds up to the index of every key (`Table`), and the
generated C function computes the same two hashes in 32 bits (`call_of_generate`). -/

namespace PerfectHash.PerfectHashInt

open CValues C

variable {κ : Type} {mode : Mode} {E : List (Nat × Nat)} {nverts nedges : Nat}

/-! ## The graph -/

/-- What one turn of the loop over `$nverts` does. -/
theorem adjust_succ {mult1 mult2 : Nat} (h1 : 0 < mult1) (h2 : 0 < mult2) (turns nverts : Nat) :
    adjust mult1 mult2 (turns + 1) nverts =
      if nverts % mult1 = 0 ∨ nverts % mult2 = 0 then adjust mult1 mult2 turns (nverts + 1)
      else .ok nverts := by
  simp only [adjust, modulo_pos h1, modulo_pos h2, bind, Except.bind]
  by_cases hmult1 : nverts % mult1 = 0
  · rw [if_pos hmult1, if_pos (.inl hmult1)]
  · rw [if_neg hmult1]
    by_cases hmult2 : nverts % mult2 = 0
    · rw [if_pos hmult2, if_pos (.inr hmult2)]
    · rw [if_neg hmult2, if_neg (not_or.mpr ⟨hmult1, hmult2⟩)]
      rfl

/-- A size that the loop ends with is a multiple of neither multiplier. -/
theorem adjust_ok {mult1 mult2 turns nverts size : Nat}
    (h : adjust mult1 mult2 turns nverts = .ok size) :
    nverts ≤ size ∧ (0 < mult1 ∧ size % mult1 ≠ 0) ∧ 0 < mult2 ∧ size % mult2 ≠ 0 := by
  induction turns generalizing nverts with
  | zero => cases h
  | succ turns ih =>
    obtain ⟨r1, hr1, h⟩ := bind_eq_ok.mp h
    have hmult1 : 0 < mult1 := Nat.pos_of_ne_zero fun h0 => by
      rw [h0] at hr1
      cases hr1
    obtain rfl := Except.ok.inj ((modulo_pos hmult1).symm.trans hr1)
    split at h
    · have := ih h
      exact ⟨by omega, this.2⟩
    rename_i hne1
    obtain ⟨r2, hr2, h⟩ := bind_eq_ok.mp h
    have hmult2 : 0 < mult2 := Nat.pos_of_ne_zero fun h0 => by
      rw [h0] at hr2
      cases hr2
    obtain rfl := Except.ok.inj ((modulo_pos hmult2).symm.trans hr2)
    split at h
    · have := ih h
      exact ⟨by omega, this.2⟩
    · rename_i hne2
      obtain rfl : nverts = size := Except.ok.inj h
      exact ⟨Nat.le_refl _, ⟨hmult1, hne1⟩, hmult2, hne2⟩

theorem adjust_error {mult1 mult2 turns nverts : Nat} {stop : Stop}
    (h : adjust mult1 mult2 turns nverts = .error stop) :
    stop = .running ∨ stop = .die "Illegal modulus zero" := by
  induction turns generalizing nverts with
  | zero => exact .inl (Except.error.inj h).symm
  | succ turns ih =>
    simp only [adjust, bind, Except.bind] at h
    split at h
    · rename_i hmod
      cases h
      exact .inr (modulo_error hmod)
    split at h
    · exact ih h
    split at h
    · rename_i hmod
      cases h
      exact .inr (modulo_error hmod)
    split at h
    · exact ih h
    · cases h

/-- Where the loop ends no multiplier is 0, of which it dies, or 1, with which it does not end. -/
theorem two_le_of_adjust_ok {mult1 mult2 turns nverts size : Nat}
    (h : adjust mult1 mult2 turns nverts = .ok size) : 2 ≤ mult1 ∧ 2 ≤ mult2 := by
  obtain ⟨-, ⟨hpos1, hne1⟩, hpos2, hne2⟩ := adjust_ok h
  have two_le {mult : Nat} (hpos : 0 < mult) (hne : size % mult ≠ 0) : 2 ≤ mult := by
    by_contra hlt
    obtain rfl : mult = 1 := by omega
    exact hne (Nat.mod_one size)
  exact ⟨two_le hpos1 hne1, two_le hpos2 hne2⟩

theorem mapM_eq_some {α β : Type} {f : α → Option β} {l : List α} {l' : List β}
    (h : l.mapM f = some l') :
    l'.length = l.length ∧ ∀ (i : Nat) x, l[i]? = some x → ∃ y, f x = some y ∧ l'[i]? = some y := by
  induction l generalizing l' with
  | nil =>
    cases h
    exact ⟨rfl, nofun⟩
  | cons x l ih =>
    rw [List.mapM_cons] at h
    obtain ⟨y, hy, h⟩ := Option.bind_eq_some_iff.mp h
    obtain ⟨ys, hys, h⟩ := Option.bind_eq_some_iff.mp h
    cases h
    obtain ⟨hlen, hget⟩ := ih hys
    refine ⟨by rw [List.length_cons, hlen, List.length_cons], fun i z hz => ?_⟩
    cases i with
    | zero =>
      cases hz
      exact ⟨y, hy, rfl⟩
    | succ i => exact hget i z hz

/-- The loop ends at the latest at a number that is a multiple of neither multiplier. -/
private theorem adjust_reaches {mult1 mult2 turns nverts j : Nat} (h1 : 0 < mult1) (h2 : 0 < mult2)
    (hj : j < turns) (hgood : (nverts + j) % mult1 ≠ 0 ∧ (nverts + j) % mult2 ≠ 0) :
    ∃ size, adjust mult1 mult2 turns nverts = .ok size := by
  induction turns generalizing nverts j with
  | zero => exact absurd hj (Nat.not_lt_zero j)
  | succ turns ih =>
    rw [adjust_succ h1 h2]
    split
    · rename_i hbad
      obtain ⟨j, rfl⟩ : ∃ i, j = i + 1 := Nat.exists_eq_succ_of_ne_zero fun h0 => by
        rw [h0, Nat.add_zero] at hgood
        omega
      exact ih (Nat.lt_of_succ_lt_succ hj) (by rwa [Nat.add_right_comm])
    · exact ⟨_, rfl⟩

private theorem exists_add_mod_eq_one (n : Nat) {m : Nat} (hm : 2 ≤ m) :
    ∃ j ≤ m, (n + j) % m = 1 := by
  have hlt := Nat.mod_lt n (show 0 < m by omega)
  rcases Nat.eq_zero_or_pos (n % m) with h0 | hpos
  · refine ⟨1, by omega, ?_⟩
    rw [Nat.add_mod, h0, Nat.zero_add, Nat.mod_mod, Nat.mod_eq_of_lt hm]
  · refine ⟨m + 1 - n % m, by omega, ?_⟩
    have hsum : n + (m + 1 - n % m) = 1 + m * (n / m + 1) := by
      have := Nat.div_add_mod n m
      rw [Nat.mul_succ]
      omega
    rw [hsum, Nat.add_mul_mod_self_left, Nat.mod_eq_of_lt hm]

/-- Within a period of the remainders the loop reaches a number that leaves the remainder 1 under
both multipliers. -/
theorem adjust_returns {mult1 mult2 : Nat} (h1 : 2 ≤ mult1) (h2 : 2 ≤ mult2) (nverts : Nat) :
    ∃ size, adjust mult1 mult2 ((mult1 + 1) * (mult2 + 1)) nverts = .ok size := by
  have hM : 4 ≤ mult1 * mult2 := Nat.mul_le_mul h1 h2
  obtain ⟨j, hj, hone⟩ := exists_add_mod_eq_one nverts (show 2 ≤ mult1 * mult2 by omega)
  have hturns : j < (mult1 + 1) * (mult2 + 1) := by
    rw [Nat.succ_mul, Nat.mul_succ]
    omega
  refine adjust_reaches (by omega) (by omega) hturns ⟨?_, ?_⟩
  · rw [← Nat.mod_mul_right_mod (nverts + j) mult1 mult2, hone, Nat.mod_eq_of_lt (by omega)]
    decide
  · rw [← Nat.mod_mul_left_mod (nverts + j) mult1 mult2, hone, Nat.mod_eq_of_lt (by omega)]
    decide

/-- The edge of a key joins its two hashes. -/
theorem edges_ok {hash1 hash2 : κ → Nat} {keys : List κ} (hpos : 0 < nverts)
    (h : edges hash1 hash2 nverts keys = some E) :
    E.length = keys.length ∧ ∀ (i : Nat) key, keys[i]? = some key →
      left E i = hash1 key % nverts ∧ right E i = hash2 key % nverts ∧ IsEdge E nverts i := by
  obtain ⟨hlen, hget⟩ := mapM_eq_some h
  refine ⟨hlen, fun i key hi => ?_⟩
  obtain ⟨p, hp, hEi⟩ := hget i key hi
  have hE : E.getD i (0, 0) = p := by rw [List.getD_eq_getElem?_getD, hEi, Option.getD_some]
  dsimp only at hp
  split at hp
  · cases hp
  · rename_i hne
    cases hp
    have hleft : left E i = hash1 key % nverts := by rw [left, hE]
    have hright : right E i = hash2 key % nverts := by rw [right, hE]
    refine ⟨hleft, hright, ?_, ?_, ?_⟩
    · rw [hleft]
      exact Nat.mod_lt _ hpos
    · rw [hright]
      exact Nat.mod_lt _ hpos
    · rwa [hleft, hright]

/-! ## The type of the entries -/

private theorem foldl_min_le (l : List Int) (m : Int) :
    l.foldl (fun hmin x => if x < hmin then x else hmin) m ≤ m ∧
      ∀ x ∈ l, l.foldl (fun hmin x => if x < hmin then x else hmin) m ≤ x := by
  induction l generalizing m with
  | nil => simp
  | cons y l ih =>
    obtain ⟨h1, h2⟩ := ih (if y < m then y else m)
    rw [List.foldl_cons]
    refine ⟨h1.trans (by split <;> omega), fun x hx => ?_⟩
    rcases List.mem_cons.mp hx with rfl | hx
    · exact h1.trans (by split <;> omega)
    · exact h2 x hx

private theorem le_foldl_max (l : List Int) (m : Int) :
    m ≤ l.foldl (fun hmax x => if x > hmax then x else hmax) m ∧
      ∀ x ∈ l, x ≤ l.foldl (fun hmax x => if x > hmax then x else hmax) m := by
  induction l generalizing m with
  | nil => simp
  | cons y l ih =>
    obtain ⟨h1, h2⟩ := ih (if y > m then y else m)
    rw [List.foldl_cons]
    refine ⟨le_trans (by split <;> omega) h1, fun x hx => ?_⟩
    rcases List.mem_cons.mp hx with rfl | hx
    · exact le_trans (by split <;> omega) h1
    · exact h2 x hx

/-- The type and the flag that go with the entries: the type holds every entry, and an entry and the
flag add up to no index. -/
structure ElemType (nedges : Nat) (hashtab : List Int) (t : IntType) (flag : Int) : Prop where
  cases : t = signedChar ∧ flag = 0x7F ∨ t = short ∧ flag = 0x7FFF ∨ t = int ∧ flag = 0x3FFFFFFF
  fits : ∀ x ∈ hashtab, t.Fits x
  le_add : ∀ x ∈ hashtab, nedges ≤ x + flag

theorem elemType_ok {hashtab : List Int} {t : IntType} {flag : Int}
    (h : elemType nedges hashtab = .ok (t, flag)) : ElemType nedges hashtab t flag := by
  have hmin := (foldl_min_le hashtab nedges).2
  have hmax := (le_foldl_max hashtab 0).2
  unfold elemType at h
  dsimp only at h
  split at h
  · cases h
    refine ⟨by simp, fun x hx => ⟨?_, ?_⟩, fun x hx => ?_⟩ <;>
      have := hmin x hx <;> have := hmax x hx <;> norm_num [signedChar] <;> omega
  · split at h
    · cases h
      refine ⟨by simp, fun x hx => ⟨?_, ?_⟩, fun x hx => ?_⟩ <;>
        have := hmin x hx <;> have := hmax x hx <;> norm_num [short] <;> omega
    · split at h
      · cases h
        refine ⟨by simp, fun x hx => ⟨?_, ?_⟩, fun x hx => ?_⟩ <;>
          have := hmin x hx <;> have := hmax x hx <;> norm_num [int] <;> omega
      · cases h

theorem elemType_error {hashtab : List Int} {stop : Stop}
    (h : elemType nedges hashtab = .error stop) : stop = .die "hash table values too wide" := by
  unfold elemType at h
  dsimp only at h
  split at h
  · cases h
  · split at h
    · cases h
    · split at h
      · cases h
      · cases h
        rfl

namespace ElemType

variable {hashtab : List Int} {t : IntType} {flag : Int} (h : ElemType nedges hashtab t flag)
include h

theorem promote : t.promote = int := by
  rcases h.cases with ⟨rfl, -⟩ | ⟨rfl, -⟩ | ⟨rfl, -⟩ <;> rfl

theorem fits_flag : t.Fits flag := by
  rcases h.cases with ⟨rfl, rfl⟩ | ⟨rfl, rfl⟩ | ⟨rfl, rfl⟩ <;> decide

theorem flag_lt : 0 < flag ∧ flag < 2 ^ 30 := by
  rcases h.cases with ⟨-, rfl⟩ | ⟨-, rfl⟩ | ⟨-, rfl⟩ <;> decide

theorem lt {x : Int} (hx : x ∈ hashtab) : x < 2 ^ 31 := by
  have hfits := (h.fits x hx).promote
  rw [h.promote] at hfits
  have hlt := hfits.2
  norm_num [int] at hlt
  omega

end ElemType

/-! ## The table -/

/-- A table whose entries fit their type and whose two entries of a key add up to its index. -/
structure Table (mode : Mode) (keys : List mode.Key) (mult1 mult2 seed1 seed2 : Nat) (t : IntType)
    (h : List Int) : Prop where
  pos : 0 < h.length
  fits : ∀ x ∈ h, t.Fits x
  promote : t.promote = int
  length_keys : keys.length ≤ 2 ^ 30
  sum : ∀ (i : Nat) key, keys[i]? = some key →
    h.getD (calcHash mode key mult1 seed1 % h.length) 0 +
      h.getD (calcHash mode key mult2 seed2 % h.length) 0 = i

/-- The entries as they are returned: unused ones hold the flag. -/
def flagged (a : Assignment) (flag : Int) : List Int :=
  (a.hashtab.zip a.visited).map fun p => if ¬ p.2 then flag else p.1

theorem getD_flagged {a : Assignment} {order : List Nat} {v : Nat} (flag : Int)
    (ha : Assigned E nverts order a) (hv : a.visited.getD v false = true) :
    (flagged a flag).getD v 0 = a.hashtab.getD v 0 := by
  have hlt : v < a.visited.length := by
    by_contra hge
    rw [List.getD_eq_default _ _ (by omega)] at hv
    cases hv
  have hlt' : v < a.hashtab.length := by rwa [ha.length_hashtab, ← ha.length_visited]
  rw [List.getD_eq_getElem _ _ hlt] at hv
  simp [flagged, List.getD_eq_getElem?_getD, hlt, hlt', hv]

/-- Some vertex stays unvisited: there are more than two for each key. -/
theorem exists_unvisited {a : Assignment} {order : List Nat} (ha : Assigned E nverts order a)
    (hle : 2 * order.length < nverts) : ∃ v < nverts, a.visited.getD v false = false := by
  obtain ⟨b, hb, hfalse⟩ : ∃ b ∈ a.visited, b = false := by
    by_contra hall
    have hcount : a.visited.count true = a.visited.length :=
      List.count_eq_length.mpr fun b hb => by
        cases b with
        | true => rfl
        | false => exact absurd ⟨false, hb, rfl⟩ hall
    have := ha.count
    have := ha.length_visited
    omega
  obtain ⟨v, hv, rfl⟩ := List.mem_iff_getElem.mp hb
  exact ⟨v, ha.length_visited ▸ hv, (List.getD_eq_getElem _ _ hv).trans hfalse⟩

/-- The entry of an unvisited vertex is 0. -/
theorem zero_mem_hashtab {a : Assignment} {order : List Nat} (ha : Assigned E nverts order a)
    (hle : 2 * order.length < nverts) : 0 ∈ a.hashtab := by
  obtain ⟨v, hv, hfalse⟩ := exists_unvisited ha hle
  have hzero := ha.unused v hfalse
  rw [List.getD_eq_getElem _ _ (ha.length_hashtab.symm ▸ hv)] at hzero
  exact hzero ▸ List.getElem_mem _

theorem length_flagged {a : Assignment} {order : List Nat} (flag : Int)
    (ha : Assigned E nverts order a) : (flagged a flag).length = nverts := by
  simp [flagged, ha.length_hashtab, ha.length_visited]

/-- A finished assignment of all edges is a table. -/
theorem Assigned.table {keys : List mode.Key} {mult1 mult2 seed1 seed2 : Nat} {a : Assignment}
    {order : List Nat} {t : IntType} {flag : Int} (hle : 2 * keys.length < nverts)
    (hedge : ∀ (i : Nat) key, keys[i]? = some key →
      left E i = calcHash mode key mult1 seed1 % nverts ∧
      right E i = calcHash mode key mult2 seed2 % nverts ∧ IsEdge E nverts i)
    (hlt : ∀ e ∈ order, e < keys.length) (hlen : order.length = keys.length)
    (ha : Assigned E nverts order a) (helem : elemType keys.length a.hashtab = .ok (t, flag)) :
    Table mode keys mult1 mult2 seed1 seed2 t (flagged a flag) := by
  have helem := elemType_ok helem
  have hlength := length_flagged flag ha
  have hall : ∀ i < keys.length, i ∈ order := fun i hi =>
    (perm_range ha.nodup hlt hlen).mem_iff.mpr (List.mem_range.mpr hi)
  refine ⟨by omega, fun x hx => ?_, helem.promote, ?_, fun i key hi => ?_⟩
  · obtain ⟨p, hp, rfl⟩ := List.mem_map.mp hx
    split
    · exact helem.fits_flag
    · exact helem.fits _ (List.of_mem_zip hp).1
  · have := helem.le_add 0 (zero_mem_hashtab ha (by omega))
    have := helem.flag_lt
    omega
  · have hi' := (List.getElem?_eq_some_iff.mp hi).1
    obtain ⟨hleft, hright, -⟩ := hedge i key hi
    obtain ⟨hl, hr⟩ := ha.frozen i (hall i hi')
    rw [hlength, ← hleft, ← hright, getD_flagged flag ha hl, getD_flagged flag ha hr]
    exact ha.sum i (hall i hi')

theorem constructHashTable_ok {keys : List mode.Key} {mult1 mult2 seed1 seed2 : Nat} {t : IntType}
    {h : List Int}
    (hok : constructHashTable mode keys mult1 mult2 seed1 seed2 = .ok (some (t, h))) :
    Table mode keys mult1 mult2 seed1 seed2 t h := by
  obtain ⟨nverts, hadjust, hok⟩ := bind_eq_ok.mp hok
  have hle := (adjust_ok hadjust).1
  split at hok
  · cases hok
  · rename_i E hE
    obtain ⟨hlen, hedge⟩ := edges_ok (by omega) hE
    obtain ⟨s, hpeel, hok⟩ := bind_eq_ok.mp hok
    split at hok
    · cases hok
    · rename_i hcount
      obtain ⟨a, hrun, hok⟩ := bind_eq_ok.mp hok
      obtain ⟨⟨t', flag⟩, helem, hok⟩ := bind_eq_ok.mp hok
      cases hok
      have hcount : s.outputOrder.length = keys.length := not_not.mp hcount
      have hlt : ∀ e ∈ s.outputOrder, e < keys.length := hlen ▸ peel_lt hpeel
      have ha := (Assigned.start E nverts).run (fun e he =>
        (hedge e _ (List.getElem?_eq_getElem (hlt e he))).2.2) hrun
      rw [List.append_nil] at ha
      exact ha.table (by omega) hedge (fun e he => hlt e (List.mem_reverse.mp he))
        (by rw [List.length_reverse, hcount]) helem

/-! ## The search for parameters -/

/-- The function was made from a table for its own parameters. -/
structure HashFunction.Correct (f : HashFunction) (mode : Mode) (keys : List mode.Key) : Prop where
  seed1_lt : f.seed1 < 2 ^ 32
  seed2_lt : f.seed2 < 2 ^ 32
  table : Table mode keys f.mult1 f.mult2 f.seed1 f.seed2 f.elemtype f.h

theorem mem_params {seed1 seed2 mult2 : Nat} :
    (seed1, seed2, mult2) ∈ params ↔ seed1 < 10 ∧ seed2 < 10 ∧ mult2 ∈ [17, 31, 127, 8191] := by
  simp only [params, List.mem_flatMap, List.mem_range, List.mem_map, Prod.mk.injEq]
  constructor
  · rintro ⟨_, h1, _, h2, _, h3, rfl, rfl, rfl⟩
    exact ⟨h1, h2, h3⟩
  · rintro ⟨h1, h2, h3⟩
    exact ⟨_, h1, _, h2, _, h3, rfl, rfl, rfl⟩

theorem generateHashFunction_ok {keys : List mode.Key} {fixedKeyLength : Option Nat}
    {f : HashFunction} (h : generateHashFunction mode keys fixedKeyLength = .ok f) :
    f.Correct mode keys ∧ f.keylen = fixedKeyLength := by
  have main (ps : List (Nat × Nat × Nat)) (hps : ∀ p ∈ ps, p ∈ params)
      (h : findParams mode keys fixedKeyLength ps = .ok f) :
      f.Correct mode keys ∧ f.keylen = fixedKeyLength := by
    induction ps with
    | nil => cases h
    | cons p ps ih =>
      obtain ⟨seed1, seed2, mult2⟩ := p
      obtain ⟨r, hr, h⟩ := bind_eq_ok.mp h
      split at h
      · cases h
        obtain ⟨h1, h2, -⟩ := mem_params.mp (hps _ List.mem_cons_self)
        exact ⟨⟨h1.trans (by norm_num), h2.trans (by norm_num), constructHashTable_ok hr⟩, rfl⟩
      · exact ih (fun p hp => hps p (List.mem_cons_of_mem _ hp)) h
  exact main params (fun _ hp => hp) h

/-! ## The hashes in 32 bits -/

theorem calcHash_int {key : Int} {mult seed : Nat} :
    (BitVec.ofNat 32 seed * BitVec.ofNat 32 mult + BitVec.ofInt 32 key).toNat =
      calcHash .int key mult seed := by
  have h : BitVec.ofNat 32 seed * BitVec.ofNat 32 mult + BitVec.ofInt 32 key =
      BitVec.ofInt 32 (seed * mult + key) := by
    rw [BitVec.ofInt_add, BitVec.ofInt_mul, BitVec.ofInt_natCast, BitVec.ofInt_natCast]
  rw [h, BitVec.toNat_ofInt]
  rfl

/-- The loop of the generated function computes the hashes of `_calc_hash`. -/
theorem loop_append (f : HashFunction) (caseFold : Bool) (key rest : Bytes) (seed1 seed2 : Nat) :
    f.loop caseFold (BitVec.ofNat 32 seed1, BitVec.ofNat 32 seed2) (key ++ rest) key.length =
      some (BitVec.ofNat 32 (calcHash (.string caseFold) key f.mult1 seed1),
        BitVec.ofNat 32 (calcHash (.string caseFold) key f.mult2 seed2)) := by
  induction key generalizing seed1 seed2 with
  | nil => simp [HashFunction.loop, calcHash]
  | cons c key ih =>
    have hc : (if caseFold then c ||| 0x20 else c).toNat =
        if caseFold then c.toNat ||| 0x20 else c.toNat := by
      split
      · exact UInt8.toNat_or ..
      · rfl
    have hstep (seed mult n : Nat) :
        BitVec.ofNat 32 seed * BitVec.ofNat 32 mult + BitVec.ofNat 32 n =
          BitVec.ofNat 32 ((seed * mult + n) % 4294967296) := by
      rw [← BitVec.ofNat_mul, ← BitVec.ofNat_add]
      exact BitVec.eq_of_toNat_eq (by simp)
    rw [List.cons_append, List.length_cons, HashFunction.loop, hc, hstep, hstep, ih]
    rfl

theorem calcHash_lt {mult seed : Nat} (hseed : seed < 2 ^ 32) (key : mode.Key) :
    calcHash mode key mult seed < 2 ^ 32 := by
  cases mode with
  | int =>
    have := Int.emod_lt_of_pos (seed * mult + key) (show (0 : Int) < 4294967296 by decide)
    change ((seed * mult + key) % 4294967296).toNat < 2 ^ 32
    omega
  | string caseFold =>
    rcases List.eq_nil_or_concat' key with rfl | ⟨front, c, rfl⟩
    · exact hseed
    · rw [calcHash.eq_2, List.foldl_append]
      exact Nat.mod_lt _ (by decide)

/-- The two entries that belong to the hashes of a key add up to its index. -/
theorem HashFunction.Correct.sum_eq {f : HashFunction} {keys : List mode.Key} {i : Nat}
    {key : mode.Key} (hf : f.Correct mode keys) (hi : keys[i]? = some key) {a b : BitVec 32}
    (ha : a.toNat = calcHash mode key f.mult1 f.seed1)
    (hb : b.toNat = calcHash mode key f.mult2 f.seed2) : f.sum (a, b) = some (i : Int) := by
  have hpos := hf.table.pos
  have hconv : f.h.map f.elemtype.conv = f.h :=
    (List.map_congr_left fun x hx => IntType.conv_of_fits (hf.table.fits x hx)).trans
      (List.map_id' f.h)
  have hget (n : Nat) : f.h[n % f.h.length]? = some (f.h.getD (n % f.h.length) 0) :=
    getElem?_eq_getD (Nat.mod_lt n hpos) 0
  have hlen := hf.table.length_keys
  have hlt := (List.getElem?_eq_some_iff.mp hi).1
  have hfits : int.Fits (i : Int) := ⟨by norm_num [int]; omega, by norm_num [int]; omega⟩
  simp only [HashFunction.sum, hconv, if_neg hpos.ne', ha, hb, hget, Option.bind_eq_bind,
    Option.bind_some, hf.table.sum i key hi, hf.table.promote]
  exact IntType.arith_of_fits hfits

/-- The generated function returns the index of every key. -/
theorem call_of_generate {mode : Mode} {keys : List mode.Key} {fixedKeyLength : Option Nat}
    {f : HashFunction} {i : Nat} {key : mode.Key}
    (h : generateHashFunction mode keys fixedKeyLength = .ok f)
    (hfixed : ∀ n, fixedKeyLength = some n → mode.HasLength key n) (hi : keys[i]? = some key)
    (rest : Bytes) : f.call mode key rest = some (i : Int) := by
  obtain ⟨hf, hkeylen⟩ := generateHashFunction_ok h
  cases mode with
  | int => exact hf.sum_eq hi calcHash_int calcHash_int
  | string caseFold =>
    have hlength : f.keylen.getD key.length = key.length := by
      rw [hkeylen]
      cases fixedKeyLength with
      | none => rfl
      | some n => exact (hfixed n rfl).symm
    rw [HashFunction.call, hlength, loop_append]
    exact hf.sum_eq hi (Nat.mod_eq_of_lt (calcHash_lt hf.seed1_lt key))
      (Nat.mod_eq_of_lt (calcHash_lt hf.seed2_lt key))

theorem call_of_generate_three : ∃ f,
    generateHashFunction (.string true) [[97], [66, 98], [99, 67]] none = .ok f ∧
      f.call (.string true) [66, 98] [0] = some 1 := by
  obtain ⟨f, hf⟩ := exists_ok_of_isOk (show (generateHashFunction (.string true)
    [[97], [66, 98], [99, 67]] none).isOk by decide +kernel)
  exact ⟨f, hf, call_of_generate hf nofun rfl [0]⟩

end PerfectHash.PerfectHashInt
