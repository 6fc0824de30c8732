import PerfectHash.Perl
import Mathlib.Tactic.IntervalCases
import Mathlib.Data.List.DropRight

/-! # Dictionaries and options (`Perfect::Hash`)

The `$dict` argument of the constructors, `_dict_init`, which splits it into keys and values and
pads the key list away from the multiples of 8, and `_handle_opts`. -/

namespace PerfectHash

/-- A hashref: its entries in some order, no key twice. -/
structure HashRef (α : Type) where
  entries : List (Bytes × Option α)
  nodup : (entries.map Prod.fst).Nodup

/-- `$dict->{$k}` -/
def HashRef.get (d : HashRef α) (k : Bytes) : Option α :=
  (d.entries.find? (·.1 = k)).bind Prod.snd

/-- `keys %$dict` -/
def HashRef.keys (d : HashRef α) : List Bytes := d.entries.map Prod.fst

/-- The `$dict` argument. -/
inductive Dict (α : Type) where
  | array (keys : List Bytes)
  | file (content : Bytes)
  | hash (dict : HashRef α)
  /-- any other argument -/
  | other

/-- `split /\n/, $content`, which drops empty fields at the end. -/
def splitLines (content : Bytes) : List Bytes := (content.splitOn 10).rdropWhile (· = [])

/-- `sprintf("%b", $n) =~ /000+$/` -/
def endsIn000 (n : Nat) : Bool := ['0', '0', '0'].isSuffixOf (Nat.toDigits 2 n)

/-- Push the dummy key `""`. On an arrayref this changes the caller's array, which is the key
list from then on. -/
def pad (keys : List Bytes) : List Bytes :=
  if endsIn000 keys.length then keys ++ [[]] else keys

/-- The keys and the values of a dictionary. An arrayref and a file have no values. -/
def dictInit [Scalar α] : Dict α → Run (List Bytes × List (Option α))
  | .array keys => .ok (pad keys, [])
  | .file content => .ok (pad (splitLines content), [])
  | .other => .error (.die "wrong dict argument. arrayref, hashref or filename expected")
  | .hash dict =>
    if dict.keys.length = 0 then .error (.die "new: empty dict argument") else
      let keys := sortBytes dict.keys
      let values := keys.map dict.get
      .ok (pad keys,
        if endsIn000 dict.keys.length then values ++ [some (Scalar.ofInt (-1))] else values)

/-- `%h = map { ... }`: of two pairs with one key the later one stays. -/
def hashOfList (l : List (Bytes × Option α)) (k : Bytes) : Option α :=
  (l.reverse.find? (·.1 = k)).bind Prod.snd

/-- The options of a constructor: each with its argument, `1` where it takes none. -/
abbrev Options := List (String × Option String)

/-- `_handle_opts` -/
def handleOpts : List String → Options
  | [] => []
  | opt :: rest =>
    if opt ∈ ["-max-time", "-size", "-dict"] then
      match rest with
      | [] => [(opt, none)]
      | arg :: rest => (opt, some arg) :: handleOpts rest
    else (opt, some "1") :: handleOpts rest

/-- `exists $options->{$opt}` -/
def Options.has (options : Options) (opt : String) : Bool := options.any (·.1 = opt)

/-- A lookup that returns the index of every key and `undef` for every other string. -/
structure Indexes (lookup : Bytes → Run (Option Int)) (keys : List Bytes) : Prop where
  member : ∀ (i : Nat) k, keys[i]? = some k → lookup k = .ok (some (i : Int))
  absent : ∀ k ∉ keys, lookup k = .ok none

theorem Indexes.isOk {lookup : Bytes → Run (Option Int)} {keys : List Bytes}
    (h : Indexes lookup keys) (key : Bytes) : ∃ v, lookup key = .ok v := by
  by_cases hk : key ∈ keys
  · obtain ⟨i, hi⟩ := List.mem_iff_getElem?.mp hk
    exact ⟨_, h.member i key hi⟩
  · exact ⟨_, h.absent key hk⟩

/-- There is one such lookup. -/
theorem Indexes.unique {lookup lookup' : Bytes → Run (Option Int)} {keys : List Bytes}
    (h : Indexes lookup keys) (h' : Indexes lookup' keys) : lookup = lookup' := by
  funext key
  by_cases hk : key ∈ keys
  · obtain ⟨i, hi⟩ := List.mem_iff_getElem?.mp hk
    rw [h.member i key hi, h'.member i key hi]
  · rw [h.absent key hk, h'.absent key hk]

/-! ## Options -/

theorem handleOpts_cons {arg : String} (h : arg ∉ ["-max-time", "-size", "-dict"])
    (args : List String) : handleOpts (arg :: args) = (arg, some "1") :: handleOpts args := by
  rw [handleOpts.eq_def]
  exact if_neg h

/-- An option that no other option takes as its argument is set. -/
theorem handleOpts_has {args : List String} {opt : String}
    (hargs : ∀ arg ∈ args, arg ∉ ["-max-time", "-size", "-dict"]) (h : opt ∈ args) :
    (handleOpts args).has opt = true := by
  induction args with
  | nil => exact absurd h List.not_mem_nil
  | cons arg args ih =>
    rw [handleOpts_cons (hargs arg List.mem_cons_self), Options.has, List.any_cons]
    rcases List.mem_cons.mp h with rfl | h
    · simp
    · rw [← Options.has, ih (fun a ha => hargs a (List.mem_cons_of_mem _ ha)) h, Bool.or_true]

/-! ## Padding -/

section
variable {n i : Nat} {k : Bytes} {keys : List Bytes}

theorem endsIn000_iff : endsIn000 n = true ↔ 8 ∣ n ∧ n ≠ 0 := by
  have bit (m : Nat) : '0' = (m % 2).digitChar ↔ m % 2 = 0 := by
    rcases Nat.mod_two_eq_zero_or_one m with h | h <;> rw [h] <;> decide
  unfold endsIn000
  rw [List.isSuffixOf_iff_suffix]
  by_cases h8 : n < 8
  · interval_cases n <;> decide
  · have digits : Nat.toDigits 2 n = Nat.toDigits 2 (n / 2 / 2 / 2) ++
        [(n / 2 / 2 % 2).digitChar, (n / 2 % 2).digitChar, (n % 2).digitChar] := by
      rw [Nat.toDigits_of_base_le (by decide) (show 2 ≤ n by omega),
        Nat.toDigits_of_base_le (by decide) (show 2 ≤ n / 2 by omega),
        Nat.toDigits_of_base_le (by decide) (show 2 ≤ n / 2 / 2 by omega)]
      simp
    have tail (l : List Char) (a b c : Char) :
        ['0', '0', '0'] <:+ l ++ [a, b, c] ↔ '0' = a ∧ '0' = b ∧ '0' = c := by
      have h : [] ++ ['0', '0', '0'] <:+ l ++ [a, b, c] ↔ [] <:+ l ∧ ['0', '0', '0'] = [a, b, c] :=
        List.suffix_append_inj_of_length_eq rfl
      simpa only [List.nil_append, List.nil_suffix, true_and, List.cons.injEq, and_true] using h
    rw [digits, tail, bit, bit, bit]
    omega

theorem mem_pad (h : k ∈ keys) : k ∈ pad keys := by
  unfold pad
  split
  · exact List.mem_append_left _ h
  · exact h

@[simp] theorem pad_eq_nil : pad keys = [] ↔ keys = [] := by
  refine ⟨fun h => ?_, fun h => by rw [h]; rfl⟩
  unfold pad at h
  split at h
  · exact (List.append_eq_nil_iff.mp h).1
  · exact h

/-- A padded list of keys is empty or its length is no multiple of 8. -/
theorem length_pad (h : pad keys ≠ []) : (pad keys).length % 8 ≠ 0 := by
  unfold pad at h ⊢
  split
  · have := endsIn000_iff.mp ‹_›
    rw [List.length_append, List.length_singleton]
    omega
  · rename_i hpad
    rw [if_neg hpad] at h
    rw [endsIn000_iff] at hpad
    have := List.length_pos_iff.mpr h
    omega

theorem getElem?_pad (h : keys[i]? = some k) : (pad keys)[i]? = some k := by
  unfold pad
  split
  · rw [List.getElem?_append_left (List.getElem?_eq_some_iff.mp h).1, h]
  · exact h

theorem of_mem_pad (h : k ∈ pad keys) : k ∈ keys ∨ k = [] := by
  unfold pad at h
  split at h
  · exact (List.mem_append.mp h).imp_right List.mem_singleton.mp
  · exact .inl h

theorem notMem_of_mem_pad {b : UInt8} (hfree : ∀ k ∈ keys, b ∉ k) (hk : k ∈ pad keys) : b ∉ k := by
  rcases of_mem_pad hk with hk | rfl
  · exact hfree k hk
  · exact List.not_mem_nil

theorem getElem?_of_pad (h : (pad keys)[i]? = some k) (hne : k ≠ []) : keys[i]? = some k := by
  unfold pad at h
  split at h
  · rcases Nat.lt_or_ge i keys.length with hi | hi
    · rwa [List.getElem?_append_left hi] at h
    · rw [List.getElem?_append_right hi] at h
      exact absurd (List.mem_singleton.mp (List.mem_of_getElem? h)) hne
  · exact h

end

/-! ## Lookup in a hash -/

theorem find?_of_mem {l : List (Bytes × Option α)} (hnd : (l.map Prod.fst).Nodup)
    (h : (k, v) ∈ l) : l.find? (·.1 = k) = some (k, v) := by
  induction l with
  | nil => simp at h
  | cons e l ih =>
    obtain ⟨he, hnd⟩ := List.nodup_cons.mp hnd
    rcases List.mem_cons.mp h with rfl | h
    · simp
    · have hne : e.1 ≠ k := fun hek => he (hek ▸ List.mem_map_of_mem (f := Prod.fst) h)
      rw [List.find?_cons_of_neg (by simpa using hne), ih hnd h]

theorem HashRef.get_of_mem {d : HashRef α} (h : (k, v) ∈ d.entries) : d.get k = v := by
  rw [HashRef.get, find?_of_mem d.nodup h]; rfl

theorem HashRef.mem_of_get {d : HashRef α} (h : d.get k = some v) : (k, some v) ∈ d.entries := by
  obtain ⟨⟨k', v'⟩, hfind, rfl⟩ := Option.bind_eq_some_iff.mp h
  have hk : k' = k := by simpa using List.find?_some hfind
  exact hk ▸ List.mem_of_find?_eq_some hfind

theorem HashRef.mem_keys {d : HashRef α} (h : d.get k = some v) : k ∈ d.keys :=
  List.mem_map_of_mem (f := Prod.fst) (HashRef.mem_of_get h)

theorem hashOfList_of_mem {l : List (Bytes × Option α)} (hnd : (l.map Prod.fst).Nodup)
    (h : (k, v) ∈ l) : hashOfList l k = v := by
  have hnd : (l.reverse.map Prod.fst).Nodup := by rwa [List.map_reverse, List.nodup_reverse]
  rw [hashOfList, find?_of_mem hnd (List.mem_reverse.mpr h)]; rfl

/-! ## The key list of a dictionary -/

/-- The keys of a hashref in the order of its key list, without the dummy key. -/
def HashRef.sortedKeys (d : HashRef α) : List Bytes := sortBytes d.keys

theorem HashRef.sortedKeys_perm (d : HashRef α) : d.sortedKeys.Perm d.keys :=
  sortBytes_perm _

theorem dictInit_hash [Scalar α] {d : HashRef α} (h : dictInit (.hash d) = .ok (keys, values)) :
    keys = pad d.sortedKeys ∧
      values = d.sortedKeys.map d.get ++
        if endsIn000 d.keys.length then [some (Scalar.ofInt (-1))] else [] := by
  simp only [dictInit] at h
  split at h
  · cases h
  · cases h
    refine ⟨rfl, ?_⟩
    split <;> simp [HashRef.sortedKeys]

/-- The keys of a hashref are in the key list. -/
theorem HashRef.mem_pad_sortedKeys {d : HashRef α} (h : d.get k = some v) :
    k ∈ pad d.sortedKeys :=
  mem_pad (d.sortedKeys_perm.mem_iff.mpr (HashRef.mem_keys h))

end PerfectHash
