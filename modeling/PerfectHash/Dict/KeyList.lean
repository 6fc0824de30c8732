import PerfectHash.Dict

/-! # The key list of a dictionary

What the construction loops rely on (`Dict.Prepared`): the key list of `_dict_init` has no key
twice, holds every key of the caller, is not as long as a multiple of 8 and, for a hashref, stands
beside the values of its keys. The dummy key is pushed by the number of keys alone, so the list has
it twice if the caller gave it (`prepared_iff`). -/

namespace PerfectHash

/-- The keys that the caller gives. -/
def Dict.given : Dict α → List Bytes
  | .array keys => keys
  | .file content => splitLines content
  | .hash dict => dict.keys
  | .other => []

/-- The key list and the values are as the construction needs them. -/
structure Dict.Prepared (dict : Dict α) (keys : List Bytes) (values : List (Option α)) : Prop where
  nodup : keys.Nodup
  mem : ∀ k ∈ dict.given, k ∈ keys
  length : ¬ 8 ∣ keys.length
  value : ∀ d, dict = .hash d → ∀ (i : Nat) k, keys[i]? = some k → k ∈ d.keys →
    values[i]? = some (d.get k)

/-! ## Padding -/

section
variable {keys : List Bytes}

theorem pad_of_not_dvd (h : ¬ 8 ∣ keys.length) : pad keys = keys := by
  rw [pad, if_neg]
  rw [endsIn000_iff]
  exact fun h8 => h h8.1

theorem pad_of_dvd (h : 8 ∣ keys.length) (hne : keys ≠ []) : pad keys = keys ++ [[]] := by
  rw [pad, if_pos]
  exact endsIn000_iff.mpr ⟨h, (List.length_pos_iff.mpr hne).ne'⟩

theorem length_pad_le (keys : List Bytes) : (pad keys).length ≤ keys.length + 1 := by
  unfold pad
  split
  · rw [List.length_append, List.length_singleton]
  · exact Nat.le_succ _

theorem not_dvd_length_pad : ¬ 8 ∣ (pad keys).length ↔ keys ≠ [] := by
  constructor
  · rintro h rfl
    exact h (Nat.dvd_zero 8)
  · intro hne h
    exact length_pad (mt pad_eq_nil.mp hne) (Nat.mod_eq_zero_of_dvd h)

/-- Padding keeps the keys distinct unless it adds one of them. -/
theorem nodup_pad_iff (hnd : keys.Nodup) :
    (pad keys).Nodup ↔ ¬ (8 ∣ keys.length ∧ [] ∈ keys) := by
  by_cases h8 : 8 ∣ keys.length
  · rcases eq_or_ne keys [] with rfl | hne
    · exact iff_of_true List.nodup_nil fun h => List.not_mem_nil h.2
    · rw [pad_of_dvd h8 hne, ← List.concat_eq_append, List.nodup_concat]
      constructor
      · exact fun h hmem => h.1 hmem.2
      · exact fun h => ⟨fun hmem => h ⟨h8, hmem⟩, hnd⟩
  · rw [pad_of_not_dvd h8]
    exact iff_of_true hnd fun h => h8 h.1

end

/-! ## What `_dict_init` returns -/

variable {α : Type} [Scalar α] {dict : Dict α} {keys : List Bytes} {values : List (Option α)}

/-- The key list is the padded list of the caller's keys in some order. -/
theorem dictInit_perm (h : dictInit dict = .ok (keys, values)) :
    ∃ own : List Bytes, own.Perm dict.given ∧ keys = pad own := by
  cases dict with
  | array own =>
    cases h
    exact ⟨own, .refl own, rfl⟩
  | file content =>
    cases h
    exact ⟨splitLines content, .refl _, rfl⟩
  | hash d => exact ⟨d.sortedKeys, d.sortedKeys_perm, (dictInit_hash h).1⟩
  | other => cases h

/-- `_dict_init` returns on any dictionary that holds a key. -/
theorem dictInit_returns (h : dict.given ≠ []) :
    ∃ keys values, dictInit dict = .ok (keys, values) := by
  cases dict with
  | array own => exact ⟨_, _, rfl⟩
  | file content => exact ⟨_, _, rfl⟩
  | hash d =>
    have hpos : d.keys.length ≠ 0 := (List.length_pos_iff.mpr h).ne'
    rw [dictInit, if_neg hpos]
    exact ⟨_, _, rfl⟩
  | other => exact absurd rfl h

/-- The position of a key of a hashref in its key list holds the value of the key, unless it is the
position of the dummy key. -/
theorem getElem?_values {d : HashRef α} {i : Nat} {k : Bytes}
    (h : dictInit (.hash d) = .ok (keys, values)) (hi : keys[i]? = some k)
    (hlt : i < d.sortedKeys.length) : values[i]? = some (d.get k) := by
  obtain ⟨rfl, rfl⟩ := dictInit_hash h
  have hk : d.sortedKeys[i]? = some k := by
    rw [List.getElem?_eq_getElem hlt]
    have := getElem?_pad (List.getElem?_eq_getElem hlt)
    rwa [hi, eq_comm] at this
  rw [List.getElem?_append_left (by rwa [List.length_map]), List.getElem?_map, hk]
  rfl

/-- `_dict_init` prepares a dictionary of distinct keys exactly if it is not empty and the dummy key
is not added to a list that has it. -/
theorem prepared_iff (hnd : dict.given.Nodup) :
    (∃ keys values, dictInit dict = .ok (keys, values) ∧ dict.Prepared keys values) ↔
      dict.given ≠ [] ∧ ¬ (8 ∣ dict.given.length ∧ [] ∈ dict.given) := by
  constructor
  · rintro ⟨keys, values, hinit, hprep⟩
    obtain ⟨own, hperm, rfl⟩ := dictInit_perm hinit
    have hne : own ≠ [] := not_dvd_length_pad.mp hprep.length
    have hfree := (nodup_pad_iff (hperm.nodup_iff.mpr hnd)).mp hprep.nodup
    rw [hperm.length_eq, hperm.mem_iff] at hfree
    exact ⟨fun h => hne (List.perm_nil.mp (h ▸ hperm)), hfree⟩
  · rintro ⟨hne, hfree⟩
    obtain ⟨keys, values, hinit⟩ := dictInit_returns hne
    obtain ⟨own, hperm, rfl⟩ := dictInit_perm hinit
    have hown : own.Nodup := hperm.nodup_iff.mpr hnd
    have hnodup : (pad own).Nodup := by
      rw [nodup_pad_iff hown, hperm.length_eq, hperm.mem_iff]
      exact hfree
    refine ⟨pad own, values, hinit, hnodup, fun k hk => mem_pad (hperm.mem_iff.mpr hk), ?_, ?_⟩
    · rw [not_dvd_length_pad]
      rintro rfl
      exact hne (List.nil_perm.mp hperm)
    · rintro d rfl i k hi hk
      -- the key stands at a position below the dummy key, and at no other one
      obtain ⟨j, hj⟩ := List.mem_iff_getElem?.mp (d.sortedKeys_perm.mem_iff.mpr hk)
      obtain ⟨hpad, -⟩ := dictInit_hash hinit
      have hj' : (pad own)[j]? = some k := by
        rw [hpad]
        exact getElem?_pad hj
      have hij : i = j := by
        obtain ⟨hi', rfl⟩ := List.getElem?_eq_some_iff.mp hi
        obtain ⟨hj'', heq⟩ := List.getElem?_eq_some_iff.mp hj'
        exact (hnodup.getElem_inj_iff.mp heq).symm
      exact getElem?_values hinit hi (hij ▸ (List.getElem?_eq_some_iff.mp hj).1)

theorem prepared_iff_three : ∃ keys values,
    dictInit (α := Int) (.array [[], [97], [98]]) = .ok (keys, values) ∧
      (Dict.array [[], [97], [98]]).Prepared keys values :=
  (prepared_iff (by decide)).mpr (by decide)

/-- Eight keys with the empty one among them: the list has it twice. -/
theorem not_prepared_nil : ¬ ∃ keys values,
    dictInit (α := Int) (.array [[], [97], [98], [99], [100], [101], [102], [103]]) =
        .ok (keys, values) ∧
      (Dict.array [[], [97], [98], [99], [100], [101], [102], [103]]).Prepared keys values := by
  rintro ⟨keys, values, hinit, hprep⟩
  cases hinit
  exact absurd hprep.nodup (by decide)

end PerfectHash
