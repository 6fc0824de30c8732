import PerfectHash.C
import PerfectHash.C.Stringpool

/-! # The declaration of the pool of strings (`c_stringpool`)

`c_stringpool` prints a struct with one array for each string, an initializer for it, and the array
`keys` of the offsets of its members. The declaration and the initializer have the strings in the
same order, so each offset leads to its string, as long as it is not cut to another one by the type
of `keys` (`consistent_iff`). -/

namespace PerfectHash.C

/-- `char stringpool_str<number>[size];` -/
structure Member where
  number : Nat
  size : Nat

/-- What `c_stringpool` prints: the members of the struct, the initializer with the numbers in its
comments, and the numbers of the members whose offsets are in `keys`. -/
structure StringPool where
  members : List Member
  inits : List (Bytes × Nat)
  keys : List Nat

/-- The member for a string, with `sizeof` of its literal. -/
def member (G : List Bytes) (i : Nat) : Member := ⟨i, (G.getD i []).length + 1⟩

/-- The state of the first loop: the members that are printed, `@L` and `%L`. The number `$j` is the
length of `@L`. -/
structure Listed where
  members : List Member
  L : List Nat
  index : List (Nat × Nat)

/-- One turn of the first loop, for a length `l` and the string `i`. -/
def listStep (G : List Bytes) (l : Nat) (st : Listed) (i : Nat) : Listed :=
  if l = (G.getD i []).length then
    { members := st.members ++ [member G i]
      L := st.L ++ [i]
      index := (i, st.L.length) :: st.index }
  else st

/-- `for my $l (15, 7, 3) { for my $i (0 .. $last) { .. } }` -/
def listed (G : List Bytes) : Listed :=
  [15, 7, 3].foldl (fun st l => (List.range G.length).foldl (listStep G l) st) ⟨[], [], []⟩

/-- `c_stringpool($FH, $G)` -/
def cStringpool (G : List Bytes) : StringPool :=
  let S := sortOn (fun i => (G.getD i []).length) (List.range G.length)
  let st := listed G
  let rest := S.filter fun i => (st.index.lookup i).isNone
  { members := st.members ++ rest.map (member G)
    inits := st.L.map (fun j => (G.getD j [], j)) ++ rest.map fun i => (G.getD i [], i)
    keys := List.range G.length }

/-- The bytes of a struct whose members are arrays without gaps between them. They get the literals
one after the other; what is left is zero. Too many literals, and a literal that does not fit its
member, are errors. -/
def layout : List Member → List (Bytes × Nat) → Option Bytes
  | [], [] => some []
  | [], _ :: _ => none
  | m :: members, [] => (layout members []).map (List.replicate m.size 0 ++ ·)
  | m :: members, (literal, _) :: inits =>
    if literal.length ≤ m.size then
      (layout members inits).map (literal ++ List.replicate (m.size - literal.length) 0 ++ ·)
    else none

/-- `&((struct stringpool_t *)0)->stringpool_str<i>` -/
def offsetOf : List Member → Nat → Option Nat
  | [], _ => none
  | m :: members, i => if m.number = i then some 0 else (offsetOf members i).map (m.size + ·)

/-- The array `keys`, with its casts. -/
def StringPool.offsets (p : StringPool) : Option (List Int) :=
  p.keys.mapM fun i => (offsetOf p.members i).map fun n : Nat => int.conv (long.conv n)

/-- The pool is consistent. -/
structure Consistent (G : List Bytes) : Prop where
  /-- every string is declared once -/
  once : ((cStringpool G).members.map Member.number).Perm (List.range G.length)
  /-- the initializer has the strings in the order of the declaration -/
  order : (cStringpool G).inits =
    ((cStringpool G).members.map Member.number).map fun i => (G.getD i [], i)
  /-- the offset of a string leads to its bytes and a NUL -/
  reads : ∃ (contents : Bytes) (keys : List Int),
    layout (cStringpool G).members (cStringpool G).inits = some contents ∧
    (cStringpool G).offsets = some keys ∧ ∀ (i : Nat) (k : Bytes), G[i]? = some k →
      ∃ o : Nat, keys[i]? = some (o : Int) ∧ k ++ [0] <+: contents.drop o

/-- The offset of every string is in the range of `int`, or what it is cut to leads to the same
bytes. -/
def OffsetsKept (G : List Bytes) : Prop :=
  ∀ (i : Nat) (k : Bytes), G[i]? = some k → poolOffset G i < 2 ^ 31 ∨
    poolOffset G i % 2 ^ 32 < 2 ^ 31 ∧ k ++ [0] <+: (poolContents G).drop (poolOffset G i % 2 ^ 32)

variable {G : List Bytes} {i j l : Nat} {k : Bytes} {is : List Nat}

/-! ## The order -/

/-- The strings `is` are listed. -/
structure Listed.Lists (G : List Bytes) (is : List Nat) (st : Listed) : Prop where
  members : st.members = is.map (member G)
  L : st.L = is
  index : ∀ i, st.index.lookup i = none ↔ i ∉ is

/-- A turn lists the string if it has the length. -/
theorem Listed.Lists.step {st : Listed} (h : st.Lists G is) (l i : Nat) :
    (listStep G l st i).Lists G
      (is ++ [i].filter fun i => (G.getD i []).length = l) := by
  unfold listStep
  split
  · rename_i hl
    rw [List.filter_cons_of_pos (by simpa using hl.symm), List.filter_nil]
    refine ⟨by rw [h.members, List.map_append]; rfl, by rw [h.L], fun j => ?_⟩
    rw [List.lookup_cons, List.mem_append, List.mem_singleton, not_or]
    by_cases hj : j = i
    · simp [hj]
    · rw [beq_false_of_ne hj]
      simp [hj, h.index j]
  · rename_i hl
    rw [List.filter_cons_of_neg (by simpa using Ne.symm hl), List.filter_nil, List.append_nil]
    exact h

/-- The inner loop lists the strings of a length. -/
theorem Listed.Lists.foldl {st : Listed} (h : st.Lists G is) (l : Nat) (js : List Nat) :
    (js.foldl (listStep G l) st).Lists G
      (is ++ js.filter fun i => (G.getD i []).length = l) := by
  induction js generalizing is st with
  | nil => simpa using h
  | cons j js ih =>
    have hnext := ih (h.step l j)
    rwa [List.append_assoc, ← List.filter_append, List.singleton_append] at hnext

theorem lists_listed (G : List Bytes) : (listed G).Lists G ([15, 7, 3].flatMap fun l =>
    (List.range G.length).filter fun i => (G.getD i []).length = l) := by
  have hstart : (Listed.mk [] [] []).Lists G [] := ⟨rfl, rfl, fun i => by simp⟩
  have h := ((hstart.foldl 15 (List.range G.length)).foldl 7 (List.range G.length)).foldl 3
    (List.range G.length)
  simpa [listed] using h

/-- The strings that `%L` does not have. -/
theorem filter_lookup {st : Listed} (h : st.Lists G is) (S : List Nat) :
    (S.filter fun i => (st.index.lookup i).isNone) = S.filter fun i => i ∉ is :=
  List.filter_congr fun i _ => by
    rw [Bool.eq_iff_iff, Option.isNone_iff_eq_none, decide_eq_true_eq, h.index i]

/-- The declaration has the strings in the order of the pool. -/
theorem members_cStringpool (G : List Bytes) :
    (cStringpool G).members = (poolOrder G).map (member G) := by
  have h := lists_listed G
  rw [cStringpool, poolOrder, List.map_append, ← filter_lookup h, ← h.members]

/-- So has the initializer. -/
theorem inits_cStringpool (G : List Bytes) :
    (cStringpool G).inits = (poolOrder G).map fun i => (G.getD i [], i) := by
  have h := lists_listed G
  rw [cStringpool, poolOrder, List.map_append, ← filter_lookup h, ← h.L]

/-- Every string is in the order once. -/
theorem poolOrder_perm (G : List Bytes) : (poolOrder G).Perm (List.range G.length) := by
  have hL : ([15, 7, 3].flatMap fun l =>
      (List.range G.length).filter fun i => (G.getD i []).length = l).Nodup := by
    rw [List.nodup_flatMap]
    refine ⟨fun l _ => List.nodup_range.filter _, ?_⟩
    have hne : [15, 7, 3].Pairwise fun l l' : Nat => l ≠ l' := by decide
    refine hne.imp fun {l l'} hll i hi hi' => hll ?_
    rw [List.mem_filter, decide_eq_true_eq] at hi hi'
    exact hi.2.symm.trans hi'.2
  have hS := (sortOn_perm (fun i => (G.getD i []).length) (List.range G.length)).nodup_iff.mpr
    List.nodup_range
  have hnodup : (poolOrder G).Nodup := by
    refine List.nodup_append.mpr ⟨hL, hS.filter _, fun i hi j hj hij => ?_⟩
    exact of_decide_eq_true (List.mem_filter.mp hj).2 (hij ▸ hi)
  refine (List.perm_ext_iff_of_nodup hnodup List.nodup_range).mpr fun i => ?_
  rw [List.mem_range]
  refine ⟨fun hi => ?_, mem_poolOrder⟩
  rcases List.mem_append.mp hi with hi | hi
  · obtain ⟨l, -, hi⟩ := List.mem_flatMap.mp hi
    exact List.mem_range.mp (List.mem_of_mem_filter hi)
  · exact List.mem_range.mp ((sortOn_perm _ _).mem_iff.mp (List.mem_of_mem_filter hi))

/-! ## The layout -/

theorem layout_map (G : List Bytes) (is : List Nat) :
    layout (is.map (member G)) (is.map fun i => (G.getD i [], i)) =
      some (is.flatMap fun i => G.getD i [] ++ [0]) := by
  induction is with
  | nil => rfl
  | cons i is ih =>
    have hsize : (member G i).size = (G.getD i []).length + 1 := rfl
    rw [List.map_cons, List.map_cons, layout, if_pos (by omega), ih, Option.map_some,
      List.flatMap_cons, hsize, Nat.add_sub_cancel_left, List.replicate_one]

theorem offsetOf_map (G : List Bytes) (h : i ∈ is) : offsetOf (is.map (member G)) i =
    some (((is.takeWhile (· ≠ i)).map fun j => (G.getD j []).length + 1).sum) := by
  induction is with
  | nil => cases h
  | cons j is ih =>
    have hnumber : (member G j).number = j := rfl
    rw [List.map_cons, offsetOf, hnumber]
    by_cases hj : j = i
    · rw [if_pos hj, List.takeWhile_cons_of_neg (by simpa using hj)]
      rfl
    · rw [if_neg hj, ih (List.mem_of_ne_of_mem (Ne.symm hj) h),
        List.takeWhile_cons_of_pos (by simpa using hj), List.map_cons, List.sum_cons]
      rfl

/-! ## The offsets -/

/-- The two casts are one. -/
theorem int_conv_long (x : Int) : int.conv (long.conv x) = int.conv x := by
  have hlong : long.conv x = x.bmod (2 ^ 64) := rfl
  rw [int_conv, int_conv, hlong]
  exact Int.bmod_bmod_of_dvd (by decide)

theorem int_conv_of_lt {n : Nat} (h : n % 2 ^ 32 < 2 ^ 31) :
    int.conv n = ((n % 2 ^ 32 : Nat) : Int) := by
  rw [int_conv, Int.bmod_def]
  omega

theorem int_conv_neg {n : Nat} (h : ¬ n % 2 ^ 32 < 2 ^ 31) : int.conv n < 0 := by
  rw [int_conv, Int.bmod_def]
  omega

/-- The elements of `keys` are the offsets in the type of `keys`. -/
theorem offsets_cStringpool (G : List Bytes) : (cStringpool G).offsets =
    some ((List.range G.length).map fun i => int.conv (poolOffset G i)) := by
  have hlength : ((List.range G.length).map fun i => int.conv (poolOffset G i)).length =
      G.length := by rw [List.length_map, List.length_range]
  have hkeys : (cStringpool G).keys =
      List.range ((List.range G.length).map fun i => int.conv (poolOffset G i)).length := by
    rw [hlength]
    rfl
  rw [StringPool.offsets, hkeys]
  refine mapM_range_eq_pure fun i x hi => ?_
  rw [List.getElem?_map, Option.map_eq_some_iff] at hi
  obtain ⟨j, hj, rfl⟩ := hi
  obtain ⟨hlt, rfl⟩ := List.getElem?_eq_some_iff.mp hj
  rw [List.length_range] at hlt
  rw [List.getElem_range, members_cStringpool, offsetOf_map G (mem_poolOrder hlt), Option.map_some,
    int_conv_long]
  rfl

/-- The member of a string leads to its bytes where the offset fits the type. -/
theorem reads_iff (h : G[i]? = some k) :
    (∃ o : Nat, int.conv (poolOffset G i) = o ∧ k ++ [0] <+: (poolContents G).drop o) ↔
      poolOffset G i < 2 ^ 31 ∨ poolOffset G i % 2 ^ 32 < 2 ^ 31 ∧
        k ++ [0] <+: (poolContents G).drop (poolOffset G i % 2 ^ 32) := by
  constructor
  · rintro ⟨o, ho, hread⟩
    by_cases hlt : poolOffset G i % 2 ^ 32 < 2 ^ 31
    · rw [int_conv_of_lt hlt, Int.ofNat_inj] at ho
      exact .inr ⟨hlt, ho ▸ hread⟩
    · have := int_conv_neg hlt
      omega
  · rintro (hlt | ⟨hlt, hread⟩)
    · obtain ⟨rest, hrest⟩ := exists_drop_poolOffset h
      refine ⟨poolOffset G i, int_conv_natCast hlt, rest, ?_⟩
      rw [hrest, List.append_assoc, List.singleton_append]
    · exact ⟨_, int_conv_of_lt hlt, hread⟩

theorem layout_cStringpool (G : List Bytes) :
    layout (cStringpool G).members (cStringpool G).inits = some (poolContents G) := by
  rw [members_cStringpool, inits_cStringpool]
  exact layout_map G (poolOrder G)

theorem getElem?_offsets (h : G[i]? = some k) :
    ((List.range G.length).map fun i => int.conv (poolOffset G i))[i]? =
      some (int.conv (poolOffset G i)) := by
  rw [List.getElem?_map, List.getElem?_range (List.getElem?_eq_some_iff.mp h).1, Option.map_some]

/-- In a consistent pool the element of `keys` leads to the string. -/
theorem Consistent.exists_offset (hG : Consistent G) (h : G[i]? = some k) :
    ∃ o : Nat, int.conv (poolOffset G i) = o ∧ k ++ [0] <+: (poolContents G).drop o := by
  obtain ⟨-, -, contents, keys, hcontents, hkeys, hreads⟩ := hG
  obtain rfl := Option.some.inj ((layout_cStringpool G).symm.trans hcontents)
  obtain rfl := Option.some.inj ((offsets_cStringpool G).symm.trans hkeys)
  obtain ⟨o, ho, hread⟩ := hreads i k h
  exact ⟨o, Option.some.inj ((getElem?_offsets h).symm.trans ho), hread⟩

/-- When the pool is consistent. -/
theorem consistent_iff (G : List Bytes) : Consistent G ↔ OffsetsKept G := by
  have hnumbers : (cStringpool G).members.map Member.number = poolOrder G := by
    rw [members_cStringpool, List.map_map]
    exact List.map_id (poolOrder G)
  constructor
  · exact fun hG i k h => (reads_iff h).mp (hG.exists_offset h)
  · intro hkept
    refine ⟨hnumbers ▸ poolOrder_perm G, ?_, _, _, layout_cStringpool G, offsets_cStringpool G,
      fun i k h => ?_⟩
    · rw [hnumbers, inits_cStringpool]
    · obtain ⟨o, ho, hread⟩ := (reads_iff h).mpr (hkept i k h)
      exact ⟨o, (getElem?_offsets h).trans (congrArg some ho), hread⟩

/-- The second one of two strings of one length starts behind the first one. -/
theorem exists_poolOffset_pair (hk : k.length = l) : ∃ i < 2, poolOffset [k, k] i = l + 1 := by
  have hperm := poolOrder_perm [k, k]
  have hlength := hperm.length_eq
  have hnodup := hperm.nodup_iff.mpr List.nodup_range
  have hmem (i : Nat) (hi : i ∈ poolOrder [k, k]) : i < 2 := lt_of_perm_range hperm hi
  rw [List.length_range] at hlength
  obtain ⟨a, b, horder⟩ := List.length_eq_two.mp hlength
  rw [horder] at hnodup hmem
  have hne : a ≠ b := by simpa using hnodup
  have hget : [k, k].getD a [] = k := by
    have ha := hmem a List.mem_cons_self
    interval_cases a <;> rfl
  refine ⟨b, hmem b (by simp), ?_⟩
  rw [poolOffset, horder, List.takeWhile_cons_of_pos (by simpa using hne),
    List.takeWhile_cons_of_neg (by simp), List.map_singleton, List.sum_singleton, hget, hk]

/-- Of two strings of `2 ^ 31` bytes one is not found. -/
theorem not_consistent : ¬ ∀ G : List Bytes, Consistent G := by
  intro h
  have hlength : (List.replicate (2 ^ 31) (97 : UInt8)).length = 2 ^ 31 := List.length_replicate
  generalize List.replicate (2 ^ 31) (97 : UInt8) = k at hlength
  obtain ⟨i, hi, hoffset⟩ := exists_poolOffset_pair hlength
  have hget : [k, k][i]? = some k := by interval_cases i <;> rfl
  obtain ⟨o, ho, -⟩ := (h [k, k]).exists_offset hget
  have hneg := int_conv_neg (n := poolOffset [k, k] i) (by rw [hoffset]; decide)
  omega

end PerfectHash.C
