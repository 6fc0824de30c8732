import PerfectHash.C.KeyText
import PerfectHash.Switch.Termination

/-! # The text of the keys in the generated switches

`_do_switch` shows all keys that it gets in a comment, and prints the byte of a case as a character
constant. `saveCText` is the key text of the whole file. It is safe exactly for the keys that
`TextSafe` describes (`safe_saveCText_iff`). -/

namespace PerfectHash.Switch

open C

variable {i l : Nat} {cand group sorted : List Bytes} {oldC : Option UInt8} {c : UInt8} {s : Bytes}

/-- The key text of the loop over the sorted keys, and the character that ended the loop. -/
def casesText (i l : Nat) (cand : List Bytes) :
    List Bytes → Option UInt8 → List KeyText × Option UInt8
  | [], _ => ([], none)
  | s :: sorted, oldC =>
    let c := char i s
    if Excess i cand c then ([], some c)
    else if count i cand c = 1 then
      let (text, excess) := casesText i l cand sorted oldC
      (charText c [c] ++ memcmpText s l ++ text, excess)
    else if some c ≠ oldC then
      let (text, excess) := casesText i l cand sorted (some c)
      (charText c [c] ++ memcmpText s l ++ text, excess)
    else
      let (text, excess) := casesText i l cand sorted (some c)
      (memcmpText s l ++ text, excess)

/-- The loop ends at the first key with an excess. -/
theorem casesText_snd (i l : Nat) (cand sorted : List Bytes) (oldC : Option UInt8) :
    (casesText i l cand sorted oldC).2 =
      (sorted.find? fun s => Excess i cand (char i s)).map (char i) := by
  induction sorted generalizing oldC with
  | nil => rfl
  | cons s sorted ih =>
    rw [casesText]
    dsimp only
    split
    · rename_i h
      rw [List.find?_cons_of_pos (by simpa using h)]
      rfl
    · rename_i h
      rw [List.find?_cons_of_neg (by simpa using h)]
      split
      · exact ih _
      · split
        · exact ih _
        · exact ih _

theorem exists_of_casesText {body : List KeyText}
    (h : casesText i l cand sorted oldC = (body, some c)) :
    (∃ s ∈ sorted, char i s = c) ∧ Excess i cand c := by
  have hsnd := congrArg Prod.snd h
  rw [casesText_snd] at hsnd
  obtain ⟨s, hfind, rfl⟩ := Option.map_eq_some_iff.mp hsnd
  exact ⟨⟨s, List.mem_of_find?_eq_some hfind, rfl⟩, by simpa using List.find?_some hfind⟩

/-- The key text of `_do_switch($ph, $FH, $cand, ..)` -/
def doSwitchText (cand : List Bytes) : List KeyText :=
  let l := (cand.headD []).length
  let i := (findMaxkeys cand (0, 0) (List.range l)).2
  let shown := KeyText.comment (List.intercalate [44, 32] cand)
  match _h : casesText i l cand (sortOn (fun k => (char i k).toNat) cand) none with
  | (body, some c) =>
    shown :: (body ++ (doSwitchText (grepEq i c cand) ++ doSwitchText (grepNe i c cand)))
  | (body, none) => shown :: body
termination_by cand.length
decreasing_by
  · exact (exists_of_casesText _h).2.2
  · obtain ⟨⟨s, hs, hc⟩, -⟩ := exists_of_casesText _h
    exact length_grepNe_lt ((sortOn_perm _ _).mem_iff.mp hs) hc

/-- The key text of `_do_cand($ph, $FH, $l, $cand)` -/
def doCandText (l : Nat) (cand : List Bytes) : List KeyText :=
  match cand with
  | [s0] => memcmpText s0 l
  | _ => doSwitchText cand

/-- The key text of `save_c` -/
def saveCText (ph : Switch) : List KeyText :=
  (calls (sortOn List.length ph.keys) none []).flatMap fun p => doCandText p.1 p.2

/-! ## Which keys are safe -/

/-- The byte is the first one that more than three keys have at a position. -/
def FirstExcess (i : Nat) (cand : List Bytes) (c : UInt8) : Prop :=
  count i cand c > 3 ∧ ∀ b < c, count i cand b ≤ 3

/-- The lists of keys that are switched on: the keys of one length, and the two parts of such a list
that the first byte divides which more than three of its keys have at its position. -/
inductive Switched (cand : List Bytes) : List Bytes → Prop
  | all : Switched cand cand
  | same {group : List Bytes} {c : UInt8} (h : Switched cand group)
      (hc : FirstExcess (position group) group c) :
    Switched cand (group.filter fun k => char (position group) k = c)
  | rest {group : List Bytes} {c : UInt8} (h : Switched cand group)
      (hc : FirstExcess (position group) group c) :
    Switched cand (group.filter fun k => char (position group) k ≠ c)

/-- A backslash at the position that is switched on comes behind a byte that more than three keys
have there, or is such a byte. -/
def LabelsSafe (cand : List Bytes) : Prop :=
  ∀ k ∈ cand, char (position cand) k = 92 → ∃ c ≤ 92, count (position cand) cand c > 3

/-- The nonempty keys of a length, in the order of the loop of `save_c`. -/
def ofLength (ph : Switch) (l : Nat) : List Bytes :=
  (sortOn List.length ph.keys).filter fun k => k.length = l

/-- No key changes the structure of the code. -/
structure TextSafe (ph : Switch) : Prop where
  /-- the comment of a switch -/
  shared : ∀ k ∈ ph.keys, k ≠ [] → 2 ≤ (ofLength ph k.length).length → ¬ Closes k
  /-- the comparisons -/
  shown : ∀ k ∈ ph.keys, k ≠ [] → ShownSafe k
  /-- the labels -/
  labels : ∀ l, 1 ≤ l → 2 ≤ (ofLength ph l).length →
    ∀ group, Switched (ofLength ph l) group → LabelsSafe group

/-! ## The loop over the sorted keys -/

/-- When the text of the loop is safe: the keys in front of the first excess are, and their bytes
are no backslashes. -/
theorem safe_casesText (hold : oldC ≠ some 92) : Safe (casesText i l cand sorted oldC).1 ↔
    ∀ s ∈ sorted.takeWhile fun s => ¬ Excess i cand (char i s),
      Safe (memcmpText s l) ∧ char i s ≠ 92 := by
  induction sorted generalizing oldC with
  | nil => exact ⟨nofun, nofun⟩
  | cons s sorted ih =>
    rw [casesText]
    dsimp only
    split
    · rename_i h
      rw [List.takeWhile_cons_of_neg (by simpa using h)]
      exact ⟨nofun, nofun⟩
    · rename_i h
      rw [List.takeWhile_cons_of_pos (by simpa using h), List.forall_mem_cons]
      have hlabel (rest : List KeyText) :
          Safe (charText (char i s) [char i s] ++ memcmpText s l ++ rest) ↔
            (Safe (memcmpText s l) ∧ char i s ≠ 92) ∧ Safe rest := by
        rw [safe_append, safe_append, safe_charText, and_comm (a := char i s ≠ 92)]
      split
      · rw [hlabel, ih hold]
      · split
        · rw [hlabel]
          refine and_congr_right fun hs => ih ?_
          simpa using hs.2
        · rename_i hsame
          have hs : char i s ≠ 92 := fun heq => hold (heq ▸ (not_not.mp hsame).symm)
          rw [safe_append, ih (by simpa using hs), and_iff_left hs]

/-- The keys in front of the first one of an ascending list that does not have a property. -/
theorem mem_takeWhile_iff {f : Bytes → Nat} {p : Bytes → Bool}
    (hsorted : sorted.Pairwise fun a b => f a ≤ f b) (hp : ∀ a b, f a = f b → p a = p b) :
    s ∈ sorted.takeWhile p ↔ s ∈ sorted ∧ ∀ t ∈ sorted, f t ≤ f s → p t := by
  induction sorted with
  | nil => simp
  | cons a sorted ih =>
    obtain ⟨hle, hsorted⟩ := List.pairwise_cons.mp hsorted
    by_cases ha : p a
    · rw [List.takeWhile_cons_of_pos ha, List.mem_cons, List.mem_cons, ih hsorted,
        List.forall_mem_cons]
      constructor
      · rintro (rfl | ⟨hs, hall⟩)
        · exact ⟨.inl rfl, fun _ => ha, fun t ht hts =>
            hp s t (Nat.le_antisymm (hle t ht) hts) ▸ ha⟩
        · exact ⟨.inr hs, fun _ => ha, hall⟩
      · rintro ⟨rfl | hs, -, hall⟩
        · exact .inl rfl
        · exact .inr ⟨hs, hall⟩
    · rw [List.takeWhile_cons_of_neg ha]
      refine ⟨nofun, fun ⟨hs, hall⟩ => absurd (hall a List.mem_cons_self ?_) ha⟩
      rcases List.mem_cons.mp hs with rfl | hs
      · exact Nat.le_refl _
      · exact hle s hs

/-- The first one of an ascending list that has a property is the least one. -/
theorem le_of_find? {f : Bytes → Nat} {p : Bytes → Bool} {t : Bytes}
    (hsorted : sorted.Pairwise fun a b => f a ≤ f b) (h : sorted.find? p = some s)
    (ht : t ∈ sorted) (hp : p t) : f s ≤ f t := by
  obtain ⟨-, front, rest, rfl, hfront⟩ := List.find?_eq_some_iff_append.mp h
  have hrest := List.pairwise_cons.mp (List.pairwise_append.mp hsorted).2.1
  rcases List.mem_append.mp ht with ht | ht
  · have hnot := hfront t ht
    rw [hp] at hnot
    cases hnot
  · rcases List.mem_cons.mp ht with rfl | ht
    · exact Nat.le_refl _
    · exact hrest.1 t ht

theorem exists_of_count (h : count i cand c > 3) : ∃ k ∈ cand, char i k = c := by
  have hpos : 0 < (cand.map (char i)).count c := Nat.lt_of_lt_of_le (by decide) h
  exact List.mem_map.mp (List.count_pos_iff.mp hpos)

/-- For keys of one length, an excess is a byte that more than three of them have. -/
theorem Cand.excess_iff (h : Cand cand l) (c : UInt8) :
    Excess (position cand) cand c ↔ count (position cand) cand c > 3 :=
  ⟨And.left, fun hcount => ⟨hcount, (h.splits hcount).length_eq_lt⟩⟩

/-- The loop of a call. -/
def loopText (cand : List Bytes) : List KeyText × Option UInt8 :=
  casesText (position cand) (cand.headD []).length cand
    (sortOn (fun k => (char (position cand) k).toNat) cand) none

/-- When the text of the loop of a call is safe. -/
theorem Cand.safe_loopText (h : Cand cand l) : Safe (loopText cand).1 ↔
    ∀ k ∈ cand, (∀ c ≤ char (position cand) k, count (position cand) cand c ≤ 3) →
      Safe (memcmpText k k.length) ∧ char (position cand) k ≠ 92 := by
  rw [loopText, safe_casesText (show none ≠ some 92 from nofun)]
  have hmem (k : Bytes) := mem_takeWhile_iff (s := k)
    (sortOn_pairwise (fun k => (char (position cand) k).toNat) cand)
    (p := fun k => ¬ Excess (position cand) cand (char (position cand) k)) fun a b hab => by
      rw [UInt8.toNat_inj.mp hab]
  have hfront (k : Bytes) (hk : k ∈ cand) :
      (∀ t ∈ sortOn (fun k => (char (position cand) k).toNat) cand,
        (char (position cand) t).toNat ≤ (char (position cand) k).toNat →
          decide (¬ Excess (position cand) cand (char (position cand) t)) = true) ↔
      ∀ c ≤ char (position cand) k, count (position cand) cand c ≤ 3 := by
    constructor
    · intro hall c hc
      by_contra hcount
      obtain ⟨t, ht, rfl⟩ := exists_of_count (Nat.lt_of_not_le hcount)
      have hnot := of_decide_eq_true (hall t ((sortOn_perm _ _).mem_iff.mpr ht) hc)
      exact hnot ((h.excess_iff _).mpr (Nat.lt_of_not_le hcount))
    · intro hall t _ hle
      refine decide_eq_true fun hexcess => ?_
      exact absurd hexcess.1 (Nat.not_lt.mpr (hall _ hle))
  constructor
  · intro hsafe k hk hall
    rw [h.length k hk, ← h.headD]
    exact hsafe k ((hmem k).mpr ⟨(sortOn_perm _ _).mem_iff.mpr hk, (hfront k hk).mpr hall⟩)
  · intro hsafe k hk
    obtain ⟨hk, hall⟩ := (hmem k).mp hk
    have hk' := (sortOn_perm _ _).mem_iff.mp hk
    rw [h.headD, ← h.length k hk']
    exact hsafe k hk' ((hfront k hk').mp hall)

/-- The loop of a call ends early at the first excess. -/
theorem Cand.loopText_snd (h : Cand cand l) :
    (loopText cand).2 = some c ↔ FirstExcess (position cand) cand c := by
  have hascending := sortOn_pairwise (fun k => (char (position cand) k).toNat) cand
  rw [loopText, casesText_snd, Option.map_eq_some_iff]
  constructor
  · rintro ⟨s, hfind, rfl⟩
    have hs : Excess (position cand) cand (char (position cand) s) := by
      simpa using List.find?_some hfind
    refine ⟨hs.1, fun b hb => ?_⟩
    by_contra hcount
    obtain ⟨t, ht, rfl⟩ := exists_of_count (Nat.lt_of_not_le hcount)
    have hle := le_of_find? hascending hfind ((sortOn_perm _ _).mem_iff.mpr ht)
      (decide_eq_true ((h.excess_iff _).mpr (Nat.lt_of_not_le hcount)))
    exact absurd hb (UInt8.not_lt.mpr hle)
  · rintro ⟨hcount, hfirst⟩
    obtain ⟨t, ht, rfl⟩ := exists_of_count hcount
    have ht' := (sortOn_perm (fun k => (char (position cand) k).toNat) cand).mem_iff.mpr ht
    have hexcess := decide_eq_true ((h.excess_iff _).mpr hcount)
    cases hfind : (sortOn (fun k => (char (position cand) k).toNat) cand).find?
        fun s => Excess (position cand) cand (char (position cand) s) with
    | none => exact absurd hexcess (List.find?_eq_none.mp hfind t ht')
    | some s =>
      have hs : Excess (position cand) cand (char (position cand) s) := by
        simpa using List.find?_some hfind
      have hle := le_of_find? hascending hfind ht' hexcess
      have hge : ¬ char (position cand) s < char (position cand) t := fun hlt =>
        absurd hs.1 (Nat.not_lt.mpr (hfirst _ hlt))
      refine ⟨s, rfl, UInt8.le_antisymm hle (UInt8.not_lt.mp hge)⟩

theorem Cand.count_le_of_none (h : Cand cand l) (hnone : (loopText cand).2 = none) (c : UInt8) :
    count (position cand) cand c ≤ 3 := by
  by_contra hcount
  obtain ⟨t, ht, rfl⟩ := exists_of_count (Nat.lt_of_not_le hcount)
  rw [loopText, casesText_snd, Option.map_eq_none_iff] at hnone
  have hnot := List.find?_eq_none.mp hnone t ((sortOn_perm _ _).mem_iff.mpr ht)
  exact hnot (decide_eq_true ((h.excess_iff _).mpr (Nat.lt_of_not_le hcount)))

/-! ## The lists that are switched on -/

theorem Switched.trans {other : List Bytes} (h : Switched cand group)
    (h' : Switched group other) : Switched cand other := by
  induction h' with
  | all => exact h
  | same _ hc ih => exact .same ih hc
  | rest _ hc ih => exact .rest ih hc

/-- The list itself, or a list that comes from one of its two parts. -/
theorem switched_iff : Switched cand group ↔ group = cand ∨
    ∃ c, FirstExcess (position cand) cand c ∧
      (Switched (cand.filter fun k => char (position cand) k = c) group ∨
        Switched (cand.filter fun k => char (position cand) k ≠ c) group) := by
  constructor
  · intro h
    induction h with
    | all => exact .inl rfl
    | same _ hc ih =>
      rcases ih with rfl | ⟨b, hb, hsame | hrest⟩
      · exact .inr ⟨_, hc, .inl .all⟩
      · exact .inr ⟨b, hb, .inl (.same hsame hc)⟩
      · exact .inr ⟨b, hb, .inr (.same hrest hc)⟩
    | rest _ hc ih =>
      rcases ih with rfl | ⟨b, hb, hsame | hrest⟩
      · exact .inr ⟨_, hc, .inr .all⟩
      · exact .inr ⟨b, hb, .inl (.rest hsame hc)⟩
      · exact .inr ⟨b, hb, .inr (.rest hrest hc)⟩
  · rintro (rfl | ⟨c, hc, hsame | hrest⟩)
    · exact .all
    · exact (Switched.all.same hc).trans hsame
    · exact (Switched.all.rest hc).trans hrest

theorem labelsSafe_iff : LabelsSafe cand ↔ ∀ k ∈ cand,
    (∀ c ≤ char (position cand) k, count (position cand) cand c ≤ 3) →
      char (position cand) k ≠ 92 := by
  refine forall₂_congr fun k _ => ?_
  constructor
  · intro h hall heq
    obtain ⟨c, hc, hcount⟩ := h heq
    exact absurd hcount (Nat.not_lt.mpr (hall c (heq ▸ hc)))
  · intro h heq
    by_contra hnone
    push Not at hnone
    exact h (fun c hc => hnone c (heq ▸ hc)) heq

/-! ## One switch -/

/-- The text of a call. -/
theorem doSwitchText_eq (cand : List Bytes) : doSwitchText cand =
    .comment (List.intercalate [44, 32] cand) :: ((loopText cand).1 ++
      match (loopText cand).2 with
      | some c => doSwitchText (grepEq (position cand) c cand) ++
          doSwitchText (grepNe (position cand) c cand)
      | none => []) := by
  rw [doSwitchText]
  split
  · rename_i body c h
    have hloop : loopText cand = (body, some c) := h
    rw [hloop]
    rfl
  · rename_i body h
    have hloop : loopText cand = (body, none) := h
    rw [hloop, List.append_nil]

/-- The comment of a switch is ended by one of its keys. -/
theorem closes_intercalate (cand : List Bytes) :
    Closes (List.intercalate [44, 32] cand) ↔ ∃ k ∈ cand, Closes k := by
  induction cand with
  | nil => simp
  | cons k cand ih =>
    cases cand with
    | nil => simp
    | cons k' cand =>
      rw [List.intercalate_cons_cons, List.append_assoc, List.cons_append, List.singleton_append,
        closes_append_comma, closes_cons_of_ne (by decide), ih]
      simp

theorem Cand.safe_loopText_iff (h : Cand cand l) (hshown : ∀ k ∈ cand, ShownSafe k) :
    Safe (loopText cand).1 ↔ LabelsSafe cand := by
  rw [h.safe_loopText, labelsSafe_iff]
  refine forall₂_congr fun k hk => imp_congr_right fun _ => ?_
  rw [safe_memcmpText]
  exact and_iff_right (hshown k hk)

/-- When the text of `_do_switch` is safe. -/
theorem safe_doSwitchText (h : Cand cand l) : Safe (doSwitchText cand) ↔
    (∀ k ∈ cand, ¬ Closes k) ∧ (∀ k ∈ cand, ShownSafe k) ∧
      ∀ group, Switched cand group → LabelsSafe group := by
  induction hn : cand.length using Nat.strong_induction_on generalizing cand with
  | _ n ih =>
    have hcomment : (KeyText.comment (List.intercalate [44, 32] cand)).Safe ↔
        ∀ k ∈ cand, ¬ Closes k := by
      rw [KeyText.Safe, closes_intercalate]
      push Not
      rfl
    rw [doSwitchText_eq, Safe, List.forall_mem_cons, hcomment]
    refine and_congr_right fun hclose => ?_
    cases hc : (loopText cand).2 with
    | none =>
      dsimp only
      rw [List.append_nil]
      have hall := h.count_le_of_none hc
      constructor
      · intro hsafe
        have hshown : ∀ k ∈ cand, ShownSafe k := fun k hk =>
          (safe_memcmpText k).mp (h.safe_loopText.mp hsafe k hk fun c _ => hall c).1
        refine ⟨hshown, fun group hgroup => ?_⟩
        rcases switched_iff.mp hgroup with rfl | ⟨b, hb, -⟩
        · exact (h.safe_loopText_iff hshown).mp hsafe
        · exact absurd hb.1 (Nat.not_lt.mpr (hall b))
      · rintro ⟨hshown, hlabels⟩
        exact (h.safe_loopText_iff hshown).mpr (hlabels cand .all)
    | some c =>
      have hfirst := h.loopText_snd.mp hc
      have hs := h.splits hfirst.1
      have ht := h.truthy h.position_lt hfirst.1
      obtain ⟨hsame, hrest⟩ := h.of_splits hs
      have ihsame := ih _ (hn ▸ hs.length_eq_lt) hsame rfl
      have ihrest := ih _ (hn ▸ hs.length_ne_lt) hrest rfl
      rw [grepEq_eq ht] at ihsame
      rw [grepNe_eq ht] at ihrest
      dsimp only
      rw [grepEq_eq ht, grepNe_eq ht]
      change Safe _ ↔ _
      rw [safe_append, safe_append, ihsame, ihrest]
      constructor
      · rintro ⟨hloop, ⟨-, hshown, hlabels⟩, -, hshown', hlabels'⟩
        have hall : ∀ k ∈ cand, ShownSafe k := fun k hk => by
          by_cases hk' : char (position cand) k = c
          · exact hshown k (List.mem_filter.mpr ⟨hk, decide_eq_true hk'⟩)
          · exact hshown' k (List.mem_filter.mpr ⟨hk, decide_eq_true hk'⟩)
        refine ⟨hall, fun group hgroup => ?_⟩
        rcases switched_iff.mp hgroup with rfl | ⟨b, hb, hpart⟩
        · exact (h.safe_loopText_iff hall).mp hloop
        · obtain rfl := Option.some.inj (hc.symm.trans (h.loopText_snd.mpr hb))
          exact hpart.elim (hlabels group) (hlabels' group)
      · rintro ⟨hshown, hlabels⟩
        refine ⟨(h.safe_loopText_iff hshown).mpr (hlabels cand .all), ⟨?_, ?_, ?_⟩, ?_, ?_, ?_⟩
        · exact fun k hk => hclose k (List.mem_of_mem_filter hk)
        · exact fun k hk => hshown k (List.mem_of_mem_filter hk)
        · exact fun group hgroup => hlabels group ((Switched.all.same hfirst).trans hgroup)
        · exact fun k hk => hclose k (List.mem_of_mem_filter hk)
        · exact fun k hk => hshown k (List.mem_of_mem_filter hk)
        · exact fun group hgroup => hlabels group ((Switched.all.rest hfirst).trans hgroup)

/-! ## The file -/

theorem Cand.filter_length (h : Cand cand l) (n : Nat) :
    cand.filter (fun k => k.length = n) = if n = l then cand else [] := by
  split
  · rename_i heq
    exact List.filter_eq_self.mpr fun k hk => decide_eq_true ((h.length k hk).trans heq.symm)
  · rename_i hne
    refine List.filter_eq_nil_iff.mpr fun k hk => ?_
    rw [decide_eq_true_eq, h.length k hk]
    exact fun heq => hne heq.symm

/-- The calls of `_do_cand` get the keys of each length, except for the empty key. -/
theorem mem_calls_iff {old : Option Nat} (h : Group sorted old cand) (n : Nat)
    (group : List Bytes) : (n, group) ∈ calls sorted old cand ↔
      1 ≤ n ∧ group ≠ [] ∧ group = (cand ++ sorted).filter fun k => k.length = n := by
  induction sorted generalizing old cand with
  | nil =>
    rw [calls, List.append_nil]
    rcases h.group with ⟨rfl, rfl⟩ | ⟨m, rfl, hcand, -⟩
    · exact ⟨fun hmem => absurd hmem List.not_mem_nil, fun h => absurd h.2.2 h.2.1⟩
    · have hpos := hcand.pos
      rw [if_neg hcand.ne_nil, List.mem_singleton, Prod.mk.injEq, hcand.filter_length,
        Option.getD_some]
      constructor
      · rintro ⟨rfl, rfl⟩
        exact ⟨hpos, hcand.ne_nil, (if_pos rfl).symm⟩
      · rintro ⟨-, hne, hgroup⟩
        split at hgroup
        · exact ⟨‹_›, hgroup⟩
        · exact absurd hgroup hne
  | cons s sorted ih =>
    rcases h.calls_cons with ⟨rfl, hnext, heq⟩ | ⟨hs, hnext, heq⟩ | ⟨m, hcand, hlt, hnext, heq⟩
    · rw [heq, ih hnext]
      refine and_congr_right fun hn => and_congr_right fun _ => ?_
      have hskip : ¬ (0 = n) := by omega
      rw [List.filter_append, List.filter_append, List.filter_cons_of_neg (by simpa using hskip)]
    · rw [heq, ih hnext, List.append_assoc, List.singleton_append]
    · have hpos := hcand.pos
      have hlonger : n ≤ m → (s :: sorted).filter (fun k => k.length = n) = [] := fun hle => by
        refine List.filter_eq_nil_iff.mpr fun k hk => ?_
        rw [decide_eq_true_eq]
        rcases List.mem_cons.mp hk with rfl | hk
        · omega
        · have := h.le k hk
          omega
      rw [heq, List.mem_cons, ih hnext, List.singleton_append, List.filter_append,
        hcand.filter_length, Prod.mk.injEq]
      constructor
      · rintro (⟨rfl, rfl⟩ | ⟨hn, hne, hgroup⟩)
        · exact ⟨hpos, hcand.ne_nil, by rw [if_pos rfl, hlonger (Nat.le_refl _), List.append_nil]⟩
        · have hnm : ¬ n = m := fun hnm => hne (hgroup.trans (hlonger (Nat.le_of_eq hnm)))
          exact ⟨hn, hne, by rw [if_neg hnm, hgroup, List.nil_append]⟩
      · rintro ⟨hn, hne, hgroup⟩
        by_cases hnm : n = m
        · rw [if_pos hnm, hlonger (Nat.le_of_eq hnm), List.append_nil] at hgroup
          exact .inl ⟨hnm, hgroup⟩
        · rw [if_neg hnm, List.nil_append] at hgroup
          exact .inr ⟨hn, hne, hgroup⟩

/-- When the text for the keys of one length is safe. -/
theorem safe_doCandText (h : Cand cand l) : Safe (doCandText l cand) ↔
    (∀ k ∈ cand, ShownSafe k) ∧ (2 ≤ cand.length → (∀ k ∈ cand, ¬ Closes k) ∧
      ∀ group, Switched cand group → LabelsSafe group) := by
  match cand, h with
  | [], h => exact absurd rfl h.ne_nil
  | [k], h =>
    have hlength := h.length k List.mem_cons_self
    have hone : ¬ 2 ≤ [k].length := by simp
    rw [doCandText, ← hlength, safe_memcmpText, List.forall_mem_singleton]
    exact ⟨fun hshown => ⟨hshown, fun htwo => absurd htwo hone⟩, And.left⟩
  | a :: b :: cand, h =>
    have htwo : 2 ≤ (a :: b :: cand).length := by simp
    have htext : doCandText l (a :: b :: cand) = doSwitchText (a :: b :: cand) := rfl
    rw [htext, safe_doSwitchText h, imp_iff_right htwo, and_left_comm]

theorem mem_ofLength {ph : Switch} {k : Bytes} :
    k ∈ ofLength ph l ↔ k ∈ ph.keys ∧ k.length = l := by
  rw [ofLength, List.mem_filter, (sortOn_perm _ _).mem_iff, decide_eq_true_eq]

theorem cand_ofLength {ph : Switch} (hl : 1 ≤ l) (hne : ofLength ph l ≠ []) :
    Cand (ofLength ph l) l where
  ne_nil := hne
  pos := hl
  length _ hk := (mem_ofLength.mp hk).2
  nodup := ((sortOn_perm _ _).nodup_iff.mpr ph.nodup).filter _

/-- The text of the file is that of its lengths. -/
theorem safe_saveCText (ph : Switch) : Safe (saveCText ph) ↔
    ∀ l, 1 ≤ l → ofLength ph l ≠ [] → Safe (doCandText l (ofLength ph l)) := by
  have hcalls (n : Nat) (group : List Bytes) :
      (n, group) ∈ calls (sortOn List.length ph.keys) none [] ↔
        1 ≤ n ∧ group ≠ [] ∧ group = ofLength ph n := mem_calls_iff (group_start ph) n group
  constructor
  · intro h l hl hne t ht
    exact h t (List.mem_flatMap.mpr ⟨_, (hcalls l _).mpr ⟨hl, hne, rfl⟩, ht⟩)
  · intro h t ht
    obtain ⟨⟨n, group⟩, hmem, ht⟩ := List.mem_flatMap.mp ht
    obtain ⟨hn, hne, rfl⟩ := (hcalls n group).mp hmem
    exact h n hn hne t ht

end PerfectHash.Switch
