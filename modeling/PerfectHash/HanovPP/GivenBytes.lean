import PerfectHash.HanovPP.SaveC

/-! # Lookups with a length in the generated code of `HanovPP`

With `-nul` the generated lookup gets the length of the string. It returns a value that depends on
the bytes up to that length where it stays in its tables, with one exception: for the length 0 the
check of a key that is stored with the length 0 reads the first byte (`givenOnly_iff`). -/

namespace PerfectHash.HanovPP

open CValues C

variable {c : CFile} {ph : HanovPP Int} {w : Bytes} {t : KeyTables} {v : Int}

/-- The entry of `V` that is read, in the variable `v`. -/
def CFile.entry (c : CFile) (s : Bytes) (l : Nat) : Option Int := do
  return c.svtype.conv (← at? (c.V.flatten.map c.vtype.conv) (← c.slot s l))

/-- The check of the key with the number `v` reads inside of the tables, the key and the given
bytes. -/
def KeyTables.Ends (t : KeyTables) (v : Int) (w : Bytes) : Prop :=
  ∃ length, at? (t.Ks.flatten.map fun i : Nat => t.kstype.conv i) v = some length ∧
    (length = w.length → w ≠ [] ∧ ∃ k, at? t.K.flatten v = some k ∧
      ((k ++ [0]).head? ≠ w.head? ∨ w.length ≤ k.length + 1))

theorem run_eq_entry (s : Bytes) (l : Nat) : c.run s l = (c.entry s l).bind fun v =>
    match c.keys with
    | none => some v
    | some t => (t.same v s l).bind fun b => some (if b then v else -1) := by
  unfold CFile.run CFile.entry
  cases c.slot s l with
  | none => rfl
  | some h =>
    simp only [Option.bind_eq_bind, Option.bind_some, Option.pure_def]
    cases at? (c.V.flatten.map c.vtype.conv) h with
    | none => rfl
    | some x => cases c.keys <;> rfl

/-- The loop of the hash reads the given bytes. -/
theorem cHashMod_congr (size : Nat) (d : BitVec 32) (hw : w.length < 2 ^ 31) (rest rest' : Bytes) :
    cHashMod size d (w ++ rest) w.length = cHashMod size d (w ++ rest') w.length := by
  simp only [cHashMod, cHash, int_conv_natCast hw, Int.toNat_natCast, cHashLoop_append]

theorem entry_congr (hw : w.length < 2 ^ 31) (rest rest' : Bytes) :
    c.entry (w ++ rest) w.length = c.entry (w ++ rest') w.length := by
  unfold CFile.entry CFile.slot
  simp only [cHashMod_congr c.size _ hw rest rest']

/-- The check of a key with the length that was given. -/
theorem same_cons {b : UInt8} {k : Bytes}
    (hKs : at? (t.Ks.flatten.map fun i : Nat => t.kstype.conv i) v = some ((b :: w).length : Int))
    (hK : at? t.K.flatten v = some k) (rest : Bytes) : t.same v (b :: w ++ rest) (b :: w).length =
      if (k ++ [0]).head? ≠ some b then some false
      else if (b :: w).length ≤ k.length + 1 then some (decide (b :: w <+: k ++ [0])) else none := by
  obtain ⟨a, key, hkey⟩ : ∃ a key, k ++ [0] = a :: key := List.exists_cons_of_ne_nil (by simp)
  have hlen : k.length + 1 = (k ++ [0]).length := by simp
  have hmemcmp := memcmpEq_prefix (b :: w) rest (k ++ [0])
  rw [memcmpEq_comm, ← hlen] at hmemcmp
  unfold KeyTables.same
  simp only [hKs, hK, Option.bind_eq_bind, Option.bind_some, ne_eq, not_true_eq_false, if_false,
    hmemcmp]
  rw [hkey]
  simp only [List.getElem?_cons_zero, List.cons_append, Option.bind_some, List.head?_cons,
    Option.some.injEq]
  rfl

theorem same_of_ne {length : Int}
    (hKs : at? (t.Ks.flatten.map fun i : Nat => t.kstype.conv i) v = some length)
    (hne : length ≠ w.length) (rest : Bytes) : t.same v (w ++ rest) w.length = some false := by
  unfold KeyTables.same
  simp only [hKs, Option.bind_eq_bind, Option.bind_some]
  exact if_pos hne.symm

/-- A check that ends does so in the same way on every buffer. -/
theorem exists_same (h : t.Ends v w) : ∃ b, ∀ rest, t.same v (w ++ rest) w.length = some b := by
  obtain ⟨length, hKs, hends⟩ := h
  by_cases hlength : length = w.length
  · subst hlength
    obtain ⟨hne, k, hK, hk⟩ := hends rfl
    obtain ⟨b, w, rfl⟩ := List.exists_cons_of_ne_nil hne
    rw [List.head?_cons] at hk
    by_cases hhead : (k ++ [0]).head? = some b
    · have hle := hk.resolve_left (not_not.mpr hhead)
      exact ⟨_, fun rest => by rw [same_cons hKs hK, if_neg (not_not.mpr hhead), if_pos hle]⟩
    · exact ⟨false, fun rest => by rw [same_cons hKs hK, if_pos hhead]⟩
  · exact ⟨false, same_of_ne hKs hlength⟩

/-- A check that ends without a byte behind the given ones reads only these. -/
theorem ends_of_same {b : Bool} (h : t.same v w w.length = some b) : t.Ends v w := by
  unfold KeyTables.same at h
  obtain ⟨length, hKs, -⟩ := Option.bind_eq_some_iff.mp h
  refine ⟨length, hKs, fun hlength => ?_⟩
  subst hlength
  simp only [hKs, Option.bind_eq_bind, Option.bind_some, ne_eq, not_true_eq_false, if_false] at h
  obtain ⟨k, hK, h⟩ := Option.bind_eq_some_iff.mp h
  obtain ⟨a, ha, h⟩ := Option.bind_eq_some_iff.mp h
  obtain ⟨b, hb, h⟩ := Option.bind_eq_some_iff.mp h
  have hne : w ≠ [] := by
    rintro rfl
    cases hb
  refine ⟨hne, k, hK, ?_⟩
  rw [List.head?_eq_getElem?, List.head?_eq_getElem?, ha, hb]
  split at h
  · exact .inl fun hab => ‹¬ a = b› (Option.some.inj hab)
  · unfold memcmpEq at h
    split at h
    · rename_i hle
      exact .inr (by simpa using hle.1)
    · cases h

/-- The lookup returns a value that depends on the given bytes only where it stays in its tables. -/
theorem givenOnly_iff (hnul : c.nul) (hw : w.length < 2 ^ 31) :
    GivenOnly c.lookup w ↔
      ∃ v, c.entry w w.length = some v ∧ ∀ t, c.keys = some t → t.Ends v w := by
  have hlookup (rest : Bytes) : c.lookup (w ++ rest) w.length = c.run (w ++ rest) w.length :=
    if_pos hnul
  have hentry (rest : Bytes) : c.entry (w ++ rest) w.length = c.entry w w.length := by
    rw [entry_congr hw rest [], List.append_nil]
  simp only [GivenOnly, hlookup, run_eq_entry, hentry]
  constructor
  · rintro ⟨x, h⟩
    have h := h []
    rw [List.append_nil] at h
    obtain ⟨v, hv, h⟩ := Option.bind_eq_some_iff.mp h
    refine ⟨v, hv, fun t ht => ?_⟩
    rw [ht] at h
    obtain ⟨b, hb, -⟩ := Option.bind_eq_some_iff.mp h
    exact ends_of_same hb
  · rintro ⟨v, hv, hends⟩
    simp only [hv, Option.bind_some]
    cases hkeys : c.keys with
    | none => exact ⟨v, fun _ => rfl⟩
    | some t =>
      obtain ⟨b, hb⟩ := exists_same (hends t hkeys)
      exact ⟨if b then v else -1, fun rest => by simp only [hb, Option.bind_some]⟩

section
variable {turns : Nat} {keys : List Bytes} {args : List String}
  (hnew : new fnv turns (.array keys) args = .ok ph) (hsize : (pad keys).length ≤ 2 ^ 31)
  (hfit : (saveC ph).Untruncated)
include hnew

theorem entry_of_nil (hnil : keys = []) (s : Bytes) (l : Nat) :
    (saveC ph).entry s l = none := by
  obtain ⟨keys', values, hinit, ht, -⟩ := new_ok hnew
  cases hinit
  rw [pad_eq_nil.mpr hnil] at ht
  have hG : ph.G = [] := congrArg Tables.G (Except.ok.inj ht).symm
  have hmod : cHashMod (saveC ph).size 0 s l = none := by
    rw [saveC, hG, cHashMod]
    cases cHash 0 s (int.conv l) <;> rfl
  rw [CFile.entry, CFile.slot, hmod]
  rfl

include hsize hfit

/-- The tables of an arrayref lead every string to a key, and a key to itself. -/
theorem exists_entry (hne : keys ≠ []) (hw : w.length < 2 ^ 31) :
    ∃ (i : Nat) (k : Bytes), (pad keys)[i]? = some k ∧
      (saveC ph).entry w w.length = some (i : Int) ∧ (w ∈ pad keys → k = w) := by
  have hnil := mt pad_eq_nil.mp hne
  obtain ⟨keys', values, hinit, ht, -⟩ := new_ok hnew
  cases hinit
  have hc := tables_complete hnil ht
  obtain ⟨i, hi, hget⟩ := hc.exists_get hnil w
  obtain ⟨hV, hsv⟩ := at?_V hfit hget
  have hslot := slot_saveC [] hfit hc (List.length_pos_iff.mpr hnil) hsize (length_pad hnil) hw
  rw [List.append_nil] at hslot
  refine ⟨i, _, List.getElem?_eq_getElem hi, ?_, fun hmem => ?_⟩
  · simp only [CFile.entry, hslot, hV, hsv, Option.bind_eq_bind, Option.bind_some,
      Option.pure_def]
  · obtain ⟨j, hj⟩ := List.mem_iff_getElem?.mp hmem
    obtain rfl : j = i := by
      have := Option.some.inj ((hc.get_index hj).symm.trans hget)
      omega
    exact Option.some.inj ((List.getElem?_eq_getElem hi).symm.trans hj)

/-- For an arrayref, where no number is cut by its C type, the lookup stays in its tables unless
there are no keys, or the empty string is a stored key and the one that is looked up. -/
theorem givenOnly_array_iff (hnul : ph.options.has "-nul") (hw : w.length < 2 ^ 31) :
    GivenOnly (saveC ph).lookup w ↔
      keys ≠ [] ∧
        ¬ (w = [] ∧ (handleOpts args).has "-false-positives" = false ∧ [] ∈ pad keys) := by
  rw [givenOnly_iff hnul hw]
  obtain ⟨keys', values, hinit, -, hph, hoptions⟩ := new_ok hnew
  cases hinit
  by_cases hnil : keys = []
  · refine iff_of_false ?_ fun h => h.1 hnil
    rintro ⟨v, hv, -⟩
    rw [entry_of_nil hnew hnil] at hv
    cases hv
  · rw [and_iff_right hnil]
    obtain ⟨i, k, hk, hentry, hself⟩ := exists_entry hnew hsize hfit hnil hw
    by_cases hfp : (handleOpts args).has "-false-positives"
    · have hkeys : (saveC ph).keys = none := by rw [saveC, hoptions, if_pos hfp]
      refine iff_of_true ⟨i, hentry, fun t ht => ?_⟩ fun h => ?_
      · rw [hkeys] at ht
        cases ht
      · rw [hfp] at h
        cases h.2.1
    · rw [if_neg hfp] at hph
      obtain ⟨t, hkeys, hK, hKs⟩ := exists_keyTables hph (hoptions ▸ hfp)
      have hlength := at?_Ks hKs (hfit.Ks t hkeys) hk
      constructor
      · rintro ⟨v, hv, hends⟩ ⟨rfl, -, hmem⟩
        obtain rfl := Option.some.inj (hentry.symm.trans hv)
        obtain ⟨length, hlength', hzero⟩ := hends t hkeys
        rw [hlength, hself hmem] at hlength'
        exact (hzero (Option.some.inj hlength').symm).1 rfl
      · intro h
        refine ⟨i, hentry, fun t' ht' => ?_⟩
        obtain rfl := Option.some.inj (hkeys.symm.trans ht')
        refine ⟨k.length, hlength, fun hlen => ⟨fun hw' => h ⟨hw', Bool.eq_false_iff.mpr hfp, ?_⟩,
          k, by rw [at?_natCast, hK, hk], .inr (by omega)⟩⟩
        have hk0 : k = [] := List.length_eq_zero_iff.mp (by rw [hw'] at hlen; exact_mod_cast hlen)
        exact hk0 ▸ List.mem_of_getElem? hk

end

end PerfectHash.HanovPP
