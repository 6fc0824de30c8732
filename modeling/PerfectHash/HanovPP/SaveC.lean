import PerfectHash.HanovPP.Lookup
import PerfectHash.HanovPP.Fnv
import PerfectHash.C

/-! # The generated C lookup (`save_c`, `c_hash_impl`)

`saveC` is what `save_c` writes: the types it chooses and the arrays in their rows. `lookup` runs
the generated function on a buffer. `lookup_eq_perfecthash` is the result: where the chosen types
hold the numbers, the C function returns what `perfecthash` returns. `B::cstring` is taken to print
a literal of the bytes of the key, which C ends with a NUL. -/

namespace PerfectHash.HanovPP

open CValues C

/-- The arrays `K` and `Ks` with the type of the latter. -/
structure KeyTables where
  K : List (List Bytes)
  kstype : IntType
  Ks : List (List Nat)

/-- The parts of the generated C file that depend on the object. -/
structure CFile where
  nul : Bool
  size : Nat
  vtype : IntType
  gtype : IntType
  svtype : IntType
  G : List (List Int)
  V : List (List Int)
  keys : Option KeyTables

/-- `save_c` -/
def saveC [Scalar α] (ph : HanovPP α) : CFile :=
  let size := ph.G.length
  let vtype := uCsize ph.V.length
  let keys := ph.keys.getD []
  let Ks := keys.map List.length
  let maxKs := Ks.foldl (fun maxKs i => if i > maxKs then i else maxKs) 0
  { nul := ph.options.has "-nul"
    size, vtype
    gtype := sCsize size
    svtype := stripUnsigned vtype
    G := saveCArray ph.G
    V := saveCArray (ph.V.map Scalar.number)
    keys :=
      if ph.options.has "-false-positives" then none
      else some { K := saveCArray keys, kstype := uCsize maxKs, Ks := saveCArray Ks } }

/-! ## Running the generated code -/

/-- The loop of the C hash: `n` more turns at the pointer `su`. -/
def cHashLoop : BitVec 32 → Bytes → Nat → Option (BitVec 32)
  | d, _, 0 => some d
  | _, [], _ + 1 => none
  | d, c :: su, n + 1 => cHashLoop (d * 0x01000193 ^^^ BitVec.ofNat 32 c.toNat) su n

/-- `<base>_hash(d, s, l)` -/
def cHash (d : BitVec 32) (s : Bytes) (l : Int) : Option (BitVec 32) := do
  let d := if d = 0 then 0x01000193 else d
  return (← cHashLoop d s l.toNat) &&& 0xffffffff

/-- `a[i]` -/
def at? (a : List β) (i : Int) : Option β := if 0 ≤ i then a[i.toNat]? else none

/-- `<base>_hash(d, s, l) % size` -/
def cHashMod (size : Nat) (d : BitVec 32) (s : Bytes) (l : Nat) : Option Int := do
  let h ← cHash d s (int.conv l)
  if size = 0 then none else return h.toNat % size

/-- The slot of `V` from which `<base>_lookup` reads. -/
def CFile.slot (c : CFile) (s : Bytes) (l : Nat) : Option Int := do
  let h := c.vtype.conv (← cHashMod c.size 0 s l)
  let d ← at? (c.G.flatten.map c.gtype.conv) h
  if d < 0 then
    let minus ← c.gtype.promote.arith (-d)
    c.vtype.promote.arith (c.vtype.conv minus - 1)
  else if d = 0 then return h
  else return c.vtype.conv (← cHashMod c.size (BitVec.ofInt 32 d) s l)

/-- `l == (long)Ks[v] && *K[v] == *s && !memcmp(K[v], s, l)` -/
def KeyTables.same (t : KeyTables) (v : Int) (s : Bytes) (l : Nat) : Option Bool := do
  let length ← at? (t.Ks.flatten.map fun i : Nat => t.kstype.conv i) v
  if l ≠ length then return false
  let key := (← at? t.K.flatten v) ++ [0]
  if (← key[0]?) ≠ (← s[0]?) then return false
  memcmpEq key s l

/-- The body of `<base>_lookup`, once `l` is known. -/
def CFile.run (c : CFile) (s : Bytes) (l : Nat) : Option Int := do
  let v := c.svtype.conv (← at? (c.V.flatten.map c.vtype.conv) (← c.slot s l))
  match c.keys with
  | none => return v
  | some t => return if ← t.same v s l then v else -1

/-- `<base>_lookup(s)`, or `<base>_lookup(s, l)` with `-nul`. -/
def CFile.lookup (c : CFile) (s : Bytes) (l : Nat) : Option Int :=
  if c.nul then c.run s l else do c.run s (← strlen s)

/-! ## The hash -/

theorem cHashLoop_append (d : BitVec 32) (s rest : Bytes) :
    cHashLoop d (s ++ rest) s.length = some (s.foldl fnvStep d) := by
  induction s generalizing d with
  | nil => simp [cHashLoop]
  | cons c s ih => exact ih _

theorem cHashLoop_eq {s : Bytes} {n : Nat} (d : BitVec 32) (h : n ≤ s.length) :
    cHashLoop d s n = some ((s.take n).foldl fnvStep d) := by
  have := cHashLoop_append d (s.take n) (s.drop n)
  rwa [List.take_append_drop, List.length_take_of_le h] at this

theorem and_mask (x : BitVec 32) : x &&& 0xffffffff = x := BitVec.and_allOnes

/-- The C hash takes as many bytes as its `int` says. -/
theorem cHash_eq {s : Bytes} {l : Int} (d : BitVec 32) (h : l.toNat ≤ s.length) :
    cHash d s l =
      some ((s.take l.toNat).foldl fnvStep (if d = 0 then 0x01000193 else d)) := by
  simp only [cHash, cHashLoop_eq _ h, Option.bind_eq_bind, Option.bind_some, Option.pure_def,
    and_mask]

/-- A seed that fits 32 bits stands for the same word in Perl and in C. -/
theorem word_seed {seed : Nat} (hseed : seed < 2 ^ 32) :
    (if BitVec.ofNat 32 seed = 0 then (0x01000193 : BitVec 32) else BitVec.ofNat 32 seed) =
      seedWord seed := by
  have hzero : BitVec.ofNat 32 seed = 0 ↔ seed = 0 := by
    rw [← BitVec.toNat_inj]
    simp only [BitVec.toNat_ofNat, BitVec.ofNat_eq_ofNat]
    omega
  simp only [hzero, seedWord]
  split <;> rfl

/-- The C hash of a seed that fits 32 bits is the hash of `perfecthash`. -/
theorem cHashMod_eq {size seed : Nat} {s : Bytes} (hsize : 0 < size) (hseed : seed < 2 ^ 32)
    (hs : s.length < 2 ^ 31) (rest : Bytes) :
    cHashMod size (BitVec.ofNat 32 seed) (s ++ rest) s.length =
      some ((fnv s seed % size : Nat) : Int) := by
  have hle : ((s.length : Int)).toNat ≤ (s ++ rest).length := by
    rw [Int.toNat_natCast, List.length_append]
    omega
  have hhash := cHash_eq (BitVec.ofNat 32 seed) hle
  rw [Int.toNat_natCast, List.take_left, word_seed hseed] at hhash
  simp only [cHashMod, int_conv_natCast hs, hhash, Option.bind_eq_bind, Option.bind_some,
    Option.pure_def, if_neg hsize.ne', fnv_eq]
  rfl

/-! ## The lookup -/

/-- No number is cut by the type it is stored in. An entry of `V` is stored twice, in `V` and in the
variable `v`. -/
structure CFile.Untruncated (c : CFile) : Prop where
  G : ∀ g ∈ c.G.flatten, c.gtype.Fits g
  V : ∀ v ∈ c.V.flatten, c.vtype.Fits v ∧ c.svtype.Fits v
  Ks : ∀ t, c.keys = some t → ∀ l ∈ t.Ks.flatten, t.kstype.Fits l

instance (c : CFile) : Decidable c.Untruncated :=
  decidable_of_iff ((∀ g ∈ c.G.flatten, c.gtype.Fits g) ∧
      (∀ v ∈ c.V.flatten, c.vtype.Fits v ∧ c.svtype.Fits v) ∧
      ∀ t ∈ c.keys, ∀ l ∈ t.Ks.flatten, t.kstype.Fits l)
    ⟨fun h => ⟨h.1, h.2.1, h.2.2⟩, fun h => ⟨h.G, h.V, h.Ks⟩⟩

theorem map_conv {β : Type} {l : List β} {f : β → Int} {t : IntType} (h : ∀ x ∈ l, t.Fits (f x)) :
    l.map (fun x => t.conv (f x)) = l.map f :=
  List.map_congr_left fun x hx => IntType.conv_of_fits (h x hx)

theorem at?_natCast {β : Type} (a : List β) (i : Nat) : at? a (i : Int) = a[i]? := by
  simp [at?]

theorem sCsize_bounds {x : Int} {n : Nat} (hn : n ≤ 2 ^ 31) (h : (sCsize n).Fits x) :
    (sCsize n).promote = int ∧ x < 2 ^ 31 := by
  unfold sCsize at h ⊢
  rw [if_neg (by omega)] at h ⊢
  split at h
  · rw [if_pos ‹_›]
    exact ⟨rfl, by norm_num [IntType.Fits, int] at h; omega⟩
  · rw [if_neg ‹_›]
    split at h
    · rw [if_pos ‹_›]
      exact ⟨rfl, by norm_num [IntType.Fits, short] at h; omega⟩
    · rw [if_neg ‹_›]
      exact ⟨rfl, by norm_num [IntType.Fits, signedChar] at h; omega⟩

section
variable {ph : HanovPP Int} {s rest : Bytes} {size : Nat} {keys : List Bytes}

/-- The generated code reads from the slot to which `G` leads the key. -/
theorem slot_saveC (rest : Bytes) (hfit : (saveC ph).Untruncated)
    (hc : Complete fnv size keys dict ph.toTables)
    (hpos : 0 < size) (hsize : size ≤ 2 ^ 31) (hmod : size % 8 ≠ 0) (hs : s.length < 2 ^ 31) :
    (saveC ph).slot (s ++ rest) s.length = some (slotOf fnv size ph.G s : Int) := by
  have hvtype {x : Int} (h0 : 0 ≤ x) (hle : x ≤ size) : (saveC ph).vtype.Fits x := by
    refine uCsize_fits h0 ?_ (fun _ => ?_) ?_ <;> rw [hc.length_V] <;> omega
  have hhash {seed : Nat} (hseed : seed < 2 ^ 32) :
      cHashMod (saveC ph).size (BitVec.ofNat 32 seed) (s ++ rest) s.length =
        some ((fnv s seed % size : Nat) : Int) := by
    have := cHashMod_eq hpos hseed hs rest
    rwa [← hc.length_G] at this ⊢
  have hindex (seed : Nat) : (saveC ph).vtype.conv ((fnv s seed % size : Nat) : Int) =
      ((fnv s seed % size : Nat) : Int) := by
    have := Nat.mod_lt (fnv s seed) hpos
    exact IntType.conv_of_fits (hvtype (by omega) (by omega))
  have hG : (saveC ph).G.flatten.map (saveC ph).gtype.conv = ph.G := by
    have := map_conv (f := id) hfit.G
    simpa [saveC] using this
  have hd : ph.G[fnv s 0 % size]? = some (ph.G.getD (fnv s 0 % size) 0) := by
    apply getElem?_eq_getD
    rw [hc.length_G]
    exact Nat.mod_lt _ hpos
  unfold CFile.slot
  rw [show (0 : BitVec 32) = BitVec.ofNat 32 0 from rfl, hhash (by decide)]
  simp only [Option.bind_eq_bind, Option.bind_some, Option.pure_def, hindex, hG, at?_natCast, hd]
  have hneg := hc.neg_size_le (Nat.mod_lt (fnv s 0) hpos)
  have hfits := hfit.G _ (by rw [saveC, flatten_saveCArray]; exact List.mem_of_getElem? hd)
  rw [slotOf]
  generalize ph.G.getD (fnv s 0 % size) 0 = d at hneg hfits
  have hbounds : (saveC ph).gtype.promote = int ∧ d < 2 ^ 31 :=
    sCsize_bounds (by rw [hc.length_G]; exact hsize) hfits
  rcases Int.lt_trichotomy d 0 with hd | rfl | hd
  · have hd' := hneg hd
    have hminus : (saveC ph).gtype.promote.arith (-d) = some (-d) := by
      rw [hbounds.1]
      exact IntType.arith_of_fits ⟨by norm_num [int]; omega, by norm_num [int]; omega⟩
    have hfits' := hvtype (x := -d) (by omega) (by omega)
    have hsub : (saveC ph).vtype.promote.arith (-d - 1) = some (-d - 1) :=
      IntType.arith_of_fits (hfits'.of_le (by omega) (by omega)).promote
    rw [if_pos hd, hminus, Option.bind_some, IntType.conv_of_fits hfits', hsub, entrySlot,
      if_pos hd, Int.toNat_of_nonneg (by omega)]
  · rfl
  · obtain ⟨seed, rfl⟩ := Int.eq_ofNat_of_zero_le (Int.le_of_lt hd)
    rw [if_neg (by omega), if_neg (by omega), BitVec.ofInt_natCast, hhash (by omega),
      Option.bind_some, hindex, entrySlot_natCast (by omega)]

/-- Without `-false-positives` the keys and their lengths are stored. -/
theorem exists_keyTables (hkeys : ph.keys = some keys)
    (hfp : ¬ ph.options.has "-false-positives") : ∃ t, (saveC ph).keys = some t ∧
      t.K.flatten = keys ∧ t.Ks.flatten = keys.map List.length := by
  rw [saveC, if_neg hfp, hkeys]
  exact ⟨_, rfl, flatten_saveCArray _, flatten_saveCArray _⟩

theorem at?_Ks {t : KeyTables} {i : Nat} {k : Bytes} (hKs : t.Ks.flatten = keys.map List.length)
    (hfit : ∀ l ∈ t.Ks.flatten, t.kstype.Fits l) (hi : keys[i]? = some k) :
    at? (t.Ks.flatten.map fun i : Nat => t.kstype.conv i) (i : Int) = some (k.length : Int) := by
  rw [map_conv hfit, hKs, at?_natCast]
  simp [hi]

/-- The key check of the generated code is equality with the stored key. -/
theorem same_eq {t : KeyTables} {i : Nat} {k : Bytes} (hK : t.K.flatten = keys)
    (hKs : t.Ks.flatten = keys.map List.length) (hfit : ∀ l ∈ t.Ks.flatten, t.kstype.Fits l)
    (hi : keys[i]? = some k) (s rest : Bytes) :
    t.same i (s ++ 0 :: rest) s.length = some (k == s) := by
  have hlength := at?_Ks hKs hfit hi
  simp only [KeyTables.same, hlength, hK, at?_natCast, hi, Option.bind_eq_bind, Option.bind_some,
    Option.pure_def]
  split
  · rename_i hne
    rw [beq_eq_false_iff_ne.mpr fun h => hne (by rw [h])]
  · rename_i heq
    have hlen : k.length = s.length := by omega
    match k, s, hlen with
    | [], [], _ => rfl
    | a :: k, b :: s, hlen =>
      simp only [List.cons_append, List.getElem?_cons_zero, Option.bind_some]
      split
      · rename_i hab
        rw [beq_eq_false_iff_ne.mpr fun h => hab (List.cons.inj h).1]
      · exact memcmpEq_append hlen [0] (0 :: rest)

/-- The generated code reads what the slot of `V` holds. -/
theorem at?_V {i n : Nat} (hfit : (saveC ph).Untruncated)
    (h : SlotTable.get ph.V n = some (i : Int)) :
    at? ((saveC ph).V.flatten.map (saveC ph).vtype.conv) (n : Int) = some (i : Int) ∧
      (saveC ph).svtype.conv i = i := by
  have hmap := map_conv (f := id) fun v hv => (hfit.V v hv).1
  constructor
  · rw [at?_natCast, show (saveC ph).V.flatten.map (saveC ph).vtype.conv =
      (saveC ph).V.flatten by simpa using hmap, saveC, flatten_saveCArray, List.getElem?_map,
      SlotTable.getElem?_of_get h]
    rfl
  · refine IntType.conv_of_fits (hfit.V i ?_).2
    rw [saveC, flatten_saveCArray]
    exact List.mem_map.mpr ⟨some (i : Int), SlotTable.mem_of_get h, rfl⟩

/-- An empty table makes the generated code divide by zero. -/
theorem run_nil (hG : ph.G = []) (s : Bytes) (l : Nat) : (saveC ph).run s l = none := by
  have hmod : cHashMod (saveC ph).size 0 s l = none := by
    rw [saveC, hG, cHashMod]
    cases cHash 0 s (int.conv l) <;> rfl
  rw [CFile.run, CFile.slot, hmod]
  rfl

theorem lookup_strlen (hnul : (saveC ph).nul = false) (hs : 0 ∉ s) (rest : Bytes) (l : Nat) :
    (saveC ph).lookup (s ++ 0 :: rest) l = (saveC ph).run (s ++ 0 :: rest) s.length := by
  simp only [CFile.lookup, hnul, strlen_append hs, Bool.false_eq_true, if_false,
    Option.bind_eq_bind, Option.bind_some]

/-- For the tables of an arrayref, where no number is cut by its C type, the generated lookup
returns what `perfecthash` returns, with `-1` for `undef`. Neither returns for an empty table. -/
theorem lookup_eq_perfecthash {turns : Nat} {keys : List Bytes} {args : List String}
    {ph : HanovPP Int} {s rest : Bytes} (hnew : new fnv turns (.array keys) args = .ok ph)
    (hnul : (handleOpts args).has "-nul" = false) (hsize : (pad keys).length ≤ 2 ^ 31)
    (hfit : (saveC ph).Untruncated) (hs : 0 ∉ s) (hlen : s.length < 2 ^ 31) (l : Nat) :
    (saveC ph).lookup (s ++ 0 :: rest) l =
      (perfecthash fnv ph s).toOption.map fun v => v.getD (-1) := by
  obtain ⟨keys', values, hinit, ht, hph, hoptions⟩ := new_ok hnew
  cases hinit
  have hnul' : (saveC ph).nul = false := by rw [saveC, hoptions, hnul]
  rw [lookup_strlen hnul' hs]
  by_cases hnil : pad keys = []
  · have hG : ph.G = [] := by
      rw [hnil] at ht
      exact congrArg Tables.G (Except.ok.inj ht).symm
    have hperl : perfecthash fnv ph s = .error (.die "Illegal modulus zero") := by
      rw [perfecthash, lookup_nil hG]
      rfl
    rw [run_nil hG, hperl]
    rfl
  · have hpos : 0 < (pad keys).length := List.length_pos_iff.mpr hnil
    have hc := tables_complete hnil ht
    obtain ⟨i, hi, hget⟩ := hc.exists_get hnil s
    obtain ⟨hV, hsv⟩ := at?_V hfit hget
    have hv := slot_saveC (0 :: rest) hfit hc hpos hsize (length_pad hnil) hlen
    have hperl : lookup fnv ph.toTables s = .ok (some (i : Int)) := by
      rw [lookup_eq (by rw [hc.length_G]; exact hpos), hc.length_G, hget]
    simp only [CFile.run, hv, hV, hsv, Option.bind_eq_bind, Option.bind_some, Option.pure_def]
    by_cases hfp : (handleOpts args).has "-false-positives"
    · rw [if_pos hfp] at hph
      have hkeys : (saveC ph).keys = none := by rw [saveC, hoptions, if_pos hfp]
      simp only [hkeys, perfecthash, hperl, hph, bind, Except.bind]
      rfl
    · rw [if_neg hfp] at hph
      obtain ⟨k, hk⟩ : ∃ k, (pad keys)[i]? = some k := ⟨_, List.getElem?_eq_getElem hi⟩
      obtain ⟨t, hkeys, hK, hKs⟩ := exists_keyTables hph (hoptions ▸ hfp)
      simp only [hkeys, same_eq hK hKs (hfit.Ks t hkeys) hk, perfecthash, hperl, hph, bind,
        Except.bind, Option.bind_some]
      change some (if k == s then (i : Int) else -1) =
        some ((if keyAt (pad keys) (i : Int) = s then some (i : Int) else none).getD (-1))
      rw [keyAt_natCast hk]
      by_cases hks : k = s <;> simp [hks]

end

theorem lookup_eq_perfecthash_three : ∃ ph : HanovPP Int,
    new fnv 20 (.array [[97], [98], [99, 99]]) [] = .ok ph ∧
      (saveC ph).lookup ([99, 99] ++ 0 :: []) 0 =
        (perfecthash fnv ph [99, 99]).toOption.map fun v => v.getD (-1) := by
  have heval : (new (α := Int) fnv 20 (.array [[97], [98], [99, 99]]) []).toOption.map
      (fun ph => decide (saveC ph).Untruncated) = some true := by decide +kernel
  obtain ⟨ph, hph, hfit⟩ := exists_ok_and heval
  exact ⟨ph, hph, lookup_eq_perfecthash hph (by decide) (by decide) hfit (by decide) (by decide) 0⟩

end PerfectHash.HanovPP
