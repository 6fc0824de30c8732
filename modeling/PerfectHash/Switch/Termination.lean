import PerfectHash.Switch.Correctness
import Mathlib.Data.List.Dedup

/-! # When `_do_switch` terminates

`_do_switch` calls itself with the keys that have a character and with the other keys.
`doSwitchWithin` is the recursion with a bound on its depth, and `Reaches` are the lists that its
calls get. The position that it chooses tells two keys of one length apart. So both lists are
shorter, and together they are the list that is split (`doSwitch_terminates`). -/

namespace PerfectHash.Switch

open CSwitch

variable {dict : Bytes → Int} {i j l fuel : Nat} {cand group : List Bytes} {c : UInt8}
  {last : Bool} {indent : Nat} {maxkeys : Nat × Nat} {positions : List Nat}

/-- The position that is switched on. -/
def position (cand : List Bytes) : Nat :=
  (findMaxkeys cand (0, 0) (List.range (cand.headD []).length)).2

section
variable (dict : Bytes → Int)

/-- The loop of a call over the sorted keys. -/
def loop (cand : List Bytes) : List Stmt × Option UInt8 :=
  cases dict (position cand) (cand.headD []).length cand
    (sortOn (fun k => (char (position cand) k).toNat) cand) none false

/-- `_do_switch` with calls nested less than `fuel` deep. -/
def doSwitchWithin : Nat → List Bytes → Bool → Nat → Run (List Stmt)
  | 0, _, _, _ => .error .running
  | fuel + 1, cand, last, indent =>
    let i := position cand
    match loop dict cand with
    | (body, some c) => do
      let excess ← doSwitchWithin fuel (grepEq i c cand) false (indent + 1)
      let rest ← doSwitchWithin fuel (grepNe i c cand) last (indent + 1)
      return .switch (.byte i) (body ++ .label .default :: (excess ++ rest)) ::
        if last then [.return (-1)] else []
    | (body, none) =>
      return .switch (.byte i) (body ++ if last then [.label .default, .return (-1)] else []) ::
        if indent = 1 ∧ last then [.return (-1)] else []

/-- The lists that `_do_switch` gets, from the call with `cand` on. -/
inductive Reaches (cand : List Bytes) : List Bytes → Prop
  | start : Reaches cand cand
  | excess {group : List Bytes} {c : UInt8} (h : Reaches cand group)
      (hc : (loop dict group).2 = some c) :
    Reaches cand (grepEq (position group) c group)
  | rest {group : List Bytes} {c : UInt8} (h : Reaches cand group)
      (hc : (loop dict group).2 = some c) :
    Reaches cand (grepNe (position group) c group)

end

/-- The keys with a character and the other ones are a proper division of the list. -/
structure Splits (i : Nat) (c : UInt8) (cand : List Bytes) : Prop where
  eq_ne_nil : grepEq i c cand ≠ []
  ne_ne_nil : grepNe i c cand ≠ []
  length_eq_lt : (grepEq i c cand).length < cand.length
  length_ne_lt : (grepNe i c cand).length < cand.length
  nodup : (grepEq i c cand ++ grepNe i c cand).Nodup
  perm : (grepEq i c cand ++ grepNe i c cand).Perm cand

/-! ## The position -/

/-- The number of different characters at a position. -/
def different (i : Nat) (cand : List Bytes) : Nat := (cand.map (char i)).dedup.length

theorem different_le (i : Nat) (cand : List Bytes) : different i cand ≤ cand.length := by
  have hle := (List.dedup_sublist (cand.map (char i))).length_le
  rwa [List.length_map] at hle

/-- The search returns a number of different characters with its position. No position that it
went over has more of them. -/
theorem findMaxkeys_spec (hmax : maxkeys.1 = 0 ∨ maxkeys.1 = different maxkeys.2 cand)
    (positions : List Nat) :
    ((findMaxkeys cand maxkeys positions).1 = 0 ∨ (findMaxkeys cand maxkeys positions).1 =
        different (findMaxkeys cand maxkeys positions).2 cand) ∧
      maxkeys.1 ≤ (findMaxkeys cand maxkeys positions).1 ∧
      ∀ j ∈ positions, different j cand ≤ (findMaxkeys cand maxkeys positions).1 := by
  induction positions generalizing maxkeys with
  | nil => exact ⟨hmax, Nat.le_refl _, nofun⟩
  | cons i positions ih =>
    obtain ⟨next, hnext⟩ : ∃ next, next =
        if different i cand > maxkeys.1 then (different i cand, i) else maxkeys := ⟨_, rfl⟩
    have hnext_eq : next.1 = 0 ∨ next.1 = different next.2 cand := by
      rw [hnext]
      split
      · exact .inr rfl
      · exact hmax
    have hle : maxkeys.1 ≤ next.1 ∧ different i cand ≤ next.1 := by
      rw [hnext]
      split
      · exact ⟨Nat.le_of_lt ‹_›, Nat.le_refl _⟩
      · exact ⟨Nat.le_refl _, Nat.not_lt.mp ‹_›⟩
    have hfind : findMaxkeys cand maxkeys (i :: positions) =
        if different i cand = cand.length then next else findMaxkeys cand next positions := by
      rw [hnext]
      rfl
    rw [hfind]
    split
    · -- the early exit: no position has more different characters than there are keys
      rename_i hall
      exact ⟨hnext_eq, hle.1, fun j _ => (different_le j cand).trans (hall ▸ hle.2)⟩
    · obtain ⟨heq, hmono, hpositions⟩ := ih hnext_eq
      refine ⟨heq, hle.1.trans hmono, fun j hj => ?_⟩
      rcases List.mem_cons.mp hj with rfl | hj
      · exact hle.2.trans hmono
      · exact hpositions j hj

/-- There are two different characters exactly where not all keys have the same one. -/
theorem different_le_one (h : ∀ s ∈ cand, char j s = c) : different j cand ≤ 1 := by
  have hsub : (cand.map (char j)).dedup ⊆ [c] := by
    intro x hx
    obtain ⟨s, hs, rfl⟩ := List.mem_map.mp (List.mem_dedup.mp hx)
    exact List.mem_singleton.mpr (h s hs)
  exact (List.subperm_of_subset (List.nodup_dedup _) hsub).length_le

theorem two_le_different {a b : Bytes} (ha : a ∈ cand) (hb : b ∈ cand)
    (hne : char j a ≠ char j b) : 2 ≤ different j cand := by
  have hnodup : [char j a, char j b].Nodup := by simpa using hne
  have hsub : [char j a, char j b] ⊆ (cand.map (char j)).dedup := by
    intro x hx
    rw [List.mem_dedup]
    rcases List.mem_pair.mp hx with rfl | rfl
    · exact List.mem_map_of_mem ha
    · exact List.mem_map_of_mem hb
  exact (List.subperm_of_subset hnodup hsub).length_le

/-- Two different keys of one length have different characters somewhere. -/
theorem Cand.exists_char_ne (h : Cand cand l) {a b : Bytes} (ha : a ∈ cand) (hb : b ∈ cand)
    (hne : a ≠ b) : ∃ j < l, char j a ≠ char j b := by
  by_contra hall
  push Not at hall
  refine hne (List.ext_getElem ((h.length a ha).trans (h.length b hb).symm) fun j hja hjb => ?_)
  have heq := hall j (h.length a ha ▸ hja)
  rwa [char, char, List.getD_eq_getElem _ _ hja, List.getD_eq_getElem _ _ hjb] at heq

/-- The position tells two of several keys apart. -/
theorem Cand.exists_ne (h : Cand cand l) (htwo : 2 ≤ cand.length) (c : UInt8) :
    ∃ s ∈ cand, char (position cand) s ≠ c := by
  by_contra hall
  push Not at hall
  have hone := different_le_one hall
  have hdistinct : cand[0] ≠ cand[1] := fun heq =>
    absurd (h.nodup.getElem_inj_iff.mp heq) (by decide)
  obtain ⟨j, hj, hne⟩ := h.exists_char_ne (List.getElem_mem _) (List.getElem_mem _) hdistinct
  have hdiff := two_le_different (List.getElem_mem _) (List.getElem_mem _) hne
  obtain ⟨heq, -, hpositions⟩ := @findMaxkeys_spec cand (0, 0) (.inl rfl)
    (List.range (cand.headD []).length)
  have hle := hpositions j (List.mem_range.mpr (h.headD ▸ hj))
  unfold position at hone
  omega

/-! ## The division -/

theorem grepEq_eq (ht : ∀ s ∈ cand, truthy s = true) :
    grepEq i c cand = cand.filter fun k => char i k = c :=
  List.filter_congr fun s hs => by simp [ht s hs]

theorem grepNe_eq (ht : ∀ s ∈ cand, truthy s = true) :
    grepNe i c cand = cand.filter fun k => char i k ≠ c :=
  List.filter_congr fun s hs => by simp [ht s hs]

/-- The two lists lose no key. -/
theorem grep_perm (ht : ∀ s ∈ cand, truthy s = true) :
    (grepEq i c cand ++ grepNe i c cand).Perm cand := by
  have hnot : grepNe i c cand = cand.filter fun k => !decide (char i k = c) :=
    (grepNe_eq ht).trans (List.filter_congr fun s _ => by simp)
  rw [grepEq_eq ht, hnot]
  exact List.filter_append_perm _ cand

theorem Cand.position_lt (h : Cand cand l) : position cand < l := by
  rw [position, h.headD]
  exact findMaxkeys_lt h.pos fun i hi => List.mem_range.mp hi

/-- A list is divided in two at a character that more than three keys have. -/
theorem Cand.splits (h : Cand cand l) (hcount : count (position cand) cand c > 3) :
    Splits (position cand) c cand := by
  have hlength : count (position cand) cand c ≤ cand.length := by
    have := List.count_le_length (a := c) (l := cand.map (char (position cand)))
    rwa [List.length_map] at this
  have ht := h.truthy h.position_lt hcount
  obtain ⟨s, hs, hne⟩ := h.exists_ne (by omega) c
  have hexcess : Excess (position cand) cand c := by
    refine ⟨hcount, List.length_filter_lt_length_iff_exists.mpr ⟨s, hs, ?_⟩⟩
    simp [hne]
  obtain ⟨heq, hrest⟩ := h.split h.position_lt hexcess
  have hperm := grep_perm (i := position cand) (c := c) ht
  have hlen := hperm.length_eq
  rw [List.length_append] at hlen
  have heq_pos := List.length_pos_iff.mpr heq.ne_nil
  exact ⟨heq.ne_nil, hrest.ne_nil, hexcess.2, by omega, hperm.nodup_iff.mpr h.nodup, hperm⟩

/-! ## The recursion -/

/-- The lists of the two calls. -/
theorem Cand.splits_of_loop (h : Cand cand l) (hc : (loop dict cand).2 = some c) :
    Splits (position cand) c cand :=
  h.splits (exists_of_cases dict (Prod.ext rfl hc)).2.1

theorem Cand.of_splits (h : Cand cand l) (hs : Splits i c cand) :
    Cand (grepEq i c cand) l ∧ Cand (grepNe i c cand) l := by
  have hnodup := List.nodup_append.mp hs.nodup
  exact ⟨⟨hs.eq_ne_nil, h.pos, fun s hs => h.length s (List.mem_of_mem_filter hs), hnodup.1⟩,
    ⟨hs.ne_ne_nil, h.pos, fun s hs => h.length s (List.mem_of_mem_filter hs), hnodup.2.1⟩⟩

theorem Cand.of_reaches (h : Cand cand l) (hr : Reaches dict cand group) : Cand group l := by
  induction hr with
  | start => exact h
  | excess _ hc ih => exact (ih.of_splits (ih.splits_of_loop hc)).1
  | rest _ hc ih => exact (ih.of_splits (ih.splits_of_loop hc)).2

/-- What a call prints whose loop ends early. -/
theorem doSwitch_of_some {body : List Stmt} (hc : loop dict cand = (body, some c)) :
    doSwitch dict cand last indent =
      .switch (.byte (position cand)) (body ++ .label .default ::
        (doSwitch dict (grepEq (position cand) c cand) false (indent + 1) ++
          doSwitch dict (grepNe (position cand) c cand) last (indent + 1))) ::
        if last then [.return (-1)] else [] := by
  rw [doSwitch]
  split
  · rename_i h
    obtain ⟨rfl, hsome⟩ := Prod.mk.inj (h.symm.trans hc)
    obtain rfl := Option.some.inj hsome
    rfl
  · rename_i h
    cases h.symm.trans hc

/-- What a call prints whose loop goes over all keys. -/
theorem doSwitch_of_none {body : List Stmt} (hc : loop dict cand = (body, none)) :
    doSwitch dict cand last indent =
      .switch (.byte (position cand))
        (body ++ if last then [.label .default, .return (-1)] else []) ::
        if indent = 1 ∧ last then [.return (-1)] else [] := by
  rw [doSwitch]
  split
  · rename_i h
    cases h.symm.trans hc
  · rename_i h
    obtain ⟨rfl, -⟩ := Prod.mk.inj (h.symm.trans hc)
    rfl

/-- The calls of `_do_switch` are nested at most as deep as there are keys. -/
theorem doSwitchWithin_eq (h : Cand cand l) (hfuel : cand.length ≤ fuel) (last : Bool)
    (indent : Nat) :
    doSwitchWithin dict fuel cand last indent = .ok (doSwitch dict cand last indent) := by
  induction fuel generalizing cand last indent with
  | zero => exact absurd (List.length_eq_zero_iff.mp (Nat.le_zero.mp hfuel)) h.ne_nil
  | succ fuel ih =>
    rw [doSwitchWithin]
    split
    · rename_i body c hc
      have hs := h.splits_of_loop (congrArg Prod.snd hc)
      obtain ⟨heq, hne⟩ := h.of_splits hs
      have hlt := hs.length_eq_lt
      have hlt' := hs.length_ne_lt
      rw [ih heq (by omega), ih hne (by omega), doSwitch_of_some hc]
      rfl
    · rename_i body hc
      rw [doSwitch_of_none hc]
      rfl

/-- `_do_switch` terminates, and every list that one of its calls gets is divided properly where
more than three of its keys have the same character. -/
theorem doSwitch_terminates (dict : Bytes → Int) (h : Cand cand l) :
    (∀ last indent, doSwitchWithin dict cand.length cand last indent =
      .ok (doSwitch dict cand last indent)) ∧
    ∀ group, Reaches dict cand group →
      ∀ c, count (position group) group c > 3 → Splits (position group) c group :=
  ⟨doSwitchWithin_eq h (Nat.le_refl _), fun _ hr _ hcount => (h.of_reaches hr).splits hcount⟩

theorem cand_four : Cand [[97, 97], [97, 98], [97, 99], [97, 100]] 2 where
  ne_nil := by decide
  pos := by decide
  length := by decide
  nodup := by decide

/-- The keys `aa`, `ab`, `ac` and `ad` share their first character. -/
theorem doSwitch_terminates_four :
    (∀ last indent, doSwitchWithin (fun _ => 0) 4 [[97, 97], [97, 98], [97, 99], [97, 100]]
      last indent = .ok (doSwitch (fun _ => 0) [[97, 97], [97, 98], [97, 99], [97, 100]]
        last indent)) ∧
    ∀ group, Reaches (fun _ => 0) [[97, 97], [97, 98], [97, 99], [97, 100]] group →
      ∀ c, count (position group) group c > 3 → Splits (position group) c group :=
  doSwitch_terminates (fun _ => 0) cand_four

end PerfectHash.Switch
