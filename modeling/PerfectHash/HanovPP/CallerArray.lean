import PerfectHash.HanovPP.Lookup
import PerfectHash.Dict.KeyList

/-! # The caller's array

`_dict_init` returns the arrayref that it was given as the key list and pushes the dummy key on it,
so `new` changes the array of its caller. `newArray` is `new` as a program on this array; it builds
what `new` builds and leaves the padded list behind (`run_newArray`). The padding is seen by the
caller, in the array and in a lookup of the dummy key, exactly if there is any
(`padding_hidden_iff`). -/

namespace PerfectHash.HanovPP

/-- `_dict_init $dict` on an arrayref: the state is `@$dict`, which is also the key list. Returns
the values. -/
def dictInitArray {α : Type} : StateT (List Bytes) Run (List (Option α)) := do
  if endsIn000 (← get).length then
    modify (· ++ [[]])
  return []

/-- `new $dict, @options` on an arrayref. -/
def newArray {α : Type} [Scalar α] (hash : Bytes → Nat → Nat) (turns : Nat) (args : List String) :
    StateT (List Bytes) Run (HanovPP α) := do
  let options := handleOpts args
  let values ← dictInitArray
  let keys ← get
  let t ← tables hash turns keys (valueOf (.array keys) keys values)
  return { t with
    options := options
    keys := if options.has "-false-positives" then none else some keys }

variable {α : Type} {hash : Bytes → Nat → Nat} {turns : Nat} {args : List String}
  {keys keys' : List Bytes} {ph : HanovPP Int}

theorem run_dictInitArray (keys : List Bytes) :
    (dictInitArray (α := α)).run keys = pure ([], pad keys) := by
  by_cases h : endsIn000 keys.length
  · rw [pad, if_pos h]
    simp [dictInitArray, h]
  · rw [pad, if_neg h]
    simp [dictInitArray, h]

/-- `new` on the caller's array builds what `new` builds, and leaves the padded list in the
array. -/
theorem run_newArray [Scalar α] (hash : Bytes → Nat → Nat) (turns : Nat) (args : List String)
    (keys : List Bytes) : (newArray (α := α) hash turns args).run keys =
      (fun ph => (ph, pad keys)) <$> new hash turns (.array keys) args := by
  have hinit : dictInit (α := α) (.array keys) = pure (pad keys, []) := rfl
  simp only [newArray, new, hinit, StateT.run_bind, run_dictInitArray, pure_bind, StateT.run_get,
    StateT.run_monadLift, bind_assoc, map_bind, map_pure]
  rfl

theorem newArray_ok (h : (newArray hash turns args).run keys = .ok (ph, keys')) :
    new hash turns (.array keys) args = .ok ph ∧ keys' = pad keys := by
  rw [run_newArray] at h
  cases hnew : new (α := Int) hash turns (.array keys) args with
  | error e =>
    rw [hnew] at h
    cases h
  | ok ph' =>
    rw [hnew] at h
    cases h
    exact ⟨rfl, rfl⟩

/-! ## What the caller sees -/

/-- Without `-false-positives`, the dummy key is found like any other key. -/
theorem perfecthash_dummy (hnew : new hash turns (.array keys) args = .ok ph)
    (hfp : (handleOpts args).has "-false-positives" = false) (h8 : 8 ∣ keys.length)
    (hne : keys ≠ []) : perfecthash hash ph [] = .ok (some (keys.length : Int)) := by
  obtain ⟨keys', values, hinit, ht, hph, -⟩ := new_ok hnew
  cases hinit
  rw [hfp, if_neg (by decide)] at hph
  have hexact := (tables_complete (mt pad_eq_nil.mp hne) ht).exact (mt pad_eq_nil.mp hne) hph
  apply hexact.member
  rw [pad_of_dvd h8 hne, List.getElem?_append_right (Nat.le_refl _), Nat.sub_self]
  rfl

/-- The array that the caller passed is unchanged, and what was not in it is not found, exactly if
the number of keys is no multiple of 8. -/
theorem padding_hidden_iff {hash : Bytes → Nat → Nat} {turns : Nat} {args : List String}
    {keys keys' : List Bytes} {ph : HanovPP Int}
    (hnew : (newArray hash turns args).run keys = .ok (ph, keys'))
    (hfp : (handleOpts args).has "-false-positives" = false) :
    (keys' = keys ∧ ∀ s ∉ keys, perfecthash hash ph s = .ok none) ↔ ¬ 8 ∣ keys.length := by
  obtain ⟨hnew', rfl⟩ := newArray_ok hnew
  constructor
  · rintro ⟨hkeys, habsent⟩ h8
    rcases eq_or_ne keys [] with rfl | hne
    · -- on an empty table a lookup dies
      obtain ⟨keys', values, hinit, ht, -⟩ := new_ok hnew'
      cases hinit
      have hG : ph.G = [] := congrArg Tables.G (Except.ok.inj ht).symm
      have := habsent [] List.not_mem_nil
      rw [perfecthash, lookup_nil hG] at this
      cases this
    · rw [pad_of_dvd h8 hne] at hkeys
      simp at hkeys
  · intro h8
    have hpad := pad_of_not_dvd h8
    refine ⟨hpad, fun s hs => ?_⟩
    have hne : keys ≠ [] := by
      rintro rfl
      exact h8 (Nat.dvd_zero 8)
    obtain ⟨keys', values, hinit, ht, hph, -⟩ := new_ok hnew'
    cases hinit
    rw [hfp, if_neg (by decide)] at hph
    have hexact := (tables_complete (mt pad_eq_nil.mp hne) ht).exact (mt pad_eq_nil.mp hne) hph
    exact hexact.absent s (by rwa [hpad])

theorem padding_hidden_iff_three : ∃ ph : HanovPP Int,
    (newArray fnv 20 []).run [[97], [98], [99, 99]] = .ok (ph, [[97], [98], [99, 99]]) ∧
      ∀ s ∉ [[97], [98], [99, 99]], perfecthash fnv ph s = .ok none := by
  obtain ⟨ph, hph⟩ := exists_ok_of_isOk (show (new (α := Int) fnv 20
    (.array [[97], [98], [99, 99]]) []).isOk by decide +kernel)
  have hrun : (newArray (α := Int) fnv 20 []).run [[97], [98], [99, 99]] =
      .ok (ph, [[97], [98], [99, 99]]) := by
    rw [run_newArray, hph]
    rfl
  exact ⟨ph, hrun, ((padding_hidden_iff hrun (by decide)).mpr (by decide)).2⟩

/-- With eight keys the caller's array grows, and the empty string is found in it. -/
theorem not_padding_hidden : ∃ ph : HanovPP Int,
    (newArray fnv 40 []).run [[97], [98], [99], [100], [101], [102], [103], [104]] =
      .ok (ph, [[97], [98], [99], [100], [101], [102], [103], [104], []]) ∧
    perfecthash fnv ph [] = .ok (some 8) := by
  obtain ⟨ph, hph⟩ := exists_ok_of_isOk (show (new (α := Int) fnv 40
    (.array [[97], [98], [99], [100], [101], [102], [103], [104]]) []).isOk by decide +kernel)
  refine ⟨ph, ?_, perfecthash_dummy hph (by decide) (by decide) (by decide)⟩
  rw [run_newArray, hph]
  rfl

end PerfectHash.HanovPP
