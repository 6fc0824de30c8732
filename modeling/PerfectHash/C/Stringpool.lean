import PerfectHash.Dict

/-! # The pool of strings (`c_stringpool`)

With `-pic` the keys are the members of one struct, each with its NUL, and are found by their
offsets. Where the struct is laid out without gaps, the string of an index starts at its offset
(`exists_drop_poolOffset`). -/

namespace PerfectHash.C

/-- The order of the members of `struct stringpool_t`, which is also that of the initializers in
`stringpool_contents`: `@L` with the strings of 15, 7 and 3 bytes, then the other ones of `@S`. -/
def poolOrder (G : List Bytes) : List Nat :=
  let indices := List.range G.length
  let S := sortOn (fun i => (G.getD i []).length) indices
  let L := [15, 7, 3].flatMap fun l => indices.filter fun i => (G.getD i []).length = l
  L ++ S.filter (· ∉ L)

/-- The bytes of `stringpool_contents`. -/
def poolContents (G : List Bytes) : Bytes := (poolOrder G).flatMap fun i => G.getD i [] ++ [0]

/-- `(long)&((struct stringpool_t *)0)->stringpool_str<i>` -/
def poolOffset (G : List Bytes) (i : Nat) : Nat :=
  (((poolOrder G).takeWhile (· ≠ i)).map fun j => (G.getD j []).length + 1).sum

variable {G : List Bytes} {i : Nat} {k : Bytes}

theorem mem_poolOrder (h : i < G.length) : i ∈ poolOrder G := by
  unfold poolOrder
  dsimp only
  rw [List.mem_append, List.mem_filter, (sortOn_perm _ _).mem_iff, List.mem_range]
  by_cases hL : i ∈ [15, 7, 3].flatMap fun l =>
      (List.range G.length).filter fun i => (G.getD i []).length = l
  · exact .inl hL
  · exact .inr ⟨h, decide_eq_true hL⟩

/-- What comes before a member takes up the bytes up to its offset. -/
theorem drop_flatMap {β : Type} {f : Nat → List β} {l : List Nat} (h : i ∈ l) :
    ∃ rest, (l.flatMap f).drop ((l.takeWhile (· ≠ i)).map fun j => (f j).length).sum =
      f i ++ rest := by
  induction l with
  | nil => cases h
  | cons j l ih =>
    by_cases hj : j = i
    · subst hj
      exact ⟨l.flatMap f, by simp⟩
    · obtain ⟨rest, hrest⟩ := ih (List.mem_of_ne_of_mem (Ne.symm hj) h)
      refine ⟨rest, ?_⟩
      rw [List.takeWhile_cons_of_pos (by simpa using hj), List.map_cons, List.sum_cons,
        List.flatMap_cons, ← List.drop_drop, List.drop_left, hrest]

/-- The string of an index starts at its offset. -/
theorem exists_drop_poolOffset (h : G[i]? = some k) :
    ∃ rest, (poolContents G).drop (poolOffset G i) = k ++ 0 :: rest := by
  obtain ⟨rest, hrest⟩ := drop_flatMap (f := fun j => G.getD j [] ++ [0])
    (mem_poolOrder (List.getElem?_eq_some_iff.mp h).1)
  refine ⟨rest, ?_⟩
  simp only [List.length_append, List.length_singleton] at hrest
  rw [List.getD_eq_getElem?_getD, h, Option.getD_some, List.append_assoc] at hrest
  exact hrest

end PerfectHash.C
