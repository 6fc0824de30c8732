import PerfectHash.Pearson.Table
import PerfectHash.Lib.Swaps

/-! # The tables that a shuffle reaches

Step `i` of `shuffle` draws from `rand($last-$i)`, which never gives the last position. So one call
shuffles all but the last number of the table (`shuffle_concat`): it reaches the permutations that
keep the last number, and no others (`exists_shuffle_iff`). -/

namespace PerfectHash.Pearson

variable {draw : Nat → Nat} {front p : List Nat} {last n : Nat}

/-- A step of `shuffle` before the last one swaps two numbers in front of the last one. -/
theorem shuffleStep_eq {H : List Nat} {i : Nat} (hi : i + 1 < H.length) :
    shuffleStep draw H i = Swaps.swap H i (i + draw i % (H.length - 1 - i)) := by
  have hj : i + draw i % (H.length - 1 - i) < H.length - 1 := by
    have := Nat.mod_lt (draw i) (show 0 < H.length - 1 - i by omega)
    omega
  unfold shuffleStep
  dsimp only
  rw [Nat.max_eq_left (by omega), Swaps.swap_eq (by omega) (by omega),
    List.getD_eq_getElem _ _ (by omega), List.getD_eq_getElem _ _ (by omega)]

/-- The last step of `shuffle` swaps the last number with itself. -/
theorem shuffleStep_last (draw : Nat → Nat) (front : List Nat) (last : Nat) :
    shuffleStep draw (front ++ [last]) front.length = front ++ [last] := by
  have hlength : (front ++ [last]).length - 1 - front.length = 0 := by simp
  have hself : front.length + draw front.length % max 0 1 = front.length := by
    rw [Nat.max_eq_right (Nat.zero_le 1), Nat.mod_one, Nat.add_zero]
  unfold shuffleStep
  dsimp only
  rw [hlength, hself, List.set_set, List.getD_eq_getElem _ _ (by simp), List.set_getElem_self]

/-- A shuffle leaves the last number where it is and shuffles the numbers in front of it. -/
theorem shuffle_concat (draw : Nat → Nat) (front : List Nat) (last : Nat) :
    shuffle draw (front ++ [last]) =
      Swaps.shuffle (fun i => draw i % (front.length - i)) front ++ [last] := by
  have hsteps (positions : List Nat) (h : ∀ i ∈ positions, i < front.length) (H : List Nat)
      (hH : H.length = front.length) : positions.foldl (shuffleStep draw) (H ++ [last]) =
        Swaps.swaps (fun i => draw i % (front.length - i)) positions H ++ [last] := by
    induction positions generalizing H with
    | nil => rfl
    | cons i positions ih =>
      obtain ⟨hi, h⟩ := List.forall_mem_cons.mp h
      have hoffset := Nat.mod_lt (draw i) (show 0 < front.length - i by omega)
      have hlength : (H ++ [last]).length - 1 - i = front.length - i := by simp [hH]
      have hstep : shuffleStep draw (H ++ [last]) i =
          Swaps.swap H i (i + draw i % (front.length - i)) ++ [last] := by
        rw [shuffleStep_eq (by rw [List.length_append, List.length_singleton]; omega), hlength,
          Swaps.swap_append (by omega) (by omega)]
      rw [List.foldl_cons, hstep]
      exact ih h _ (by rw [Swaps.length_swap, hH])
  have hlast := shuffleStep_last draw
    (Swaps.shuffle (fun i => draw i % (front.length - i)) front) last
  rw [Swaps.shuffle, Swaps.length_swaps] at hlast
  rw [shuffle, List.length_append, List.length_singleton, List.range_succ, List.foldl_append,
    hsteps _ (fun i hi => List.mem_range.mp hi) _ rfl, List.foldl_cons, List.foldl_nil, hlast,
    Swaps.shuffle]

/-- A shuffle of the ordered table reaches a permutation of it exactly if the last number stays the
last one. -/
theorem exists_shuffle_iff (h : p.Perm (List.range n)) :
    (∃ draw, shuffle draw (List.range n) = p) ↔ p.getLast? = (List.range n).getLast? := by
  cases n with
  | zero =>
    obtain rfl := List.perm_nil.mp h
    exact ⟨fun _ => rfl, fun _ => ⟨fun _ => 0, rfl⟩⟩
  | succ n =>
    rw [List.range_succ] at h ⊢
    simp only [shuffle_concat, List.getLast?_concat]
    constructor
    · rintro ⟨draw, rfl⟩
      exact List.getLast?_concat
    · intro hlast
      obtain ⟨q, rfl⟩ := List.getLast?_eq_some_iff.mp hlast
      obtain ⟨f, hf, hshuffle⟩ := Swaps.exists_shuffle_eq ((List.perm_append_right_iff [n]).mp h)
      refine ⟨f, ?_⟩
      rw [← hshuffle]
      congr 1
      refine Swaps.swaps_congr fun i hi => ?_
      have := hf i (List.mem_range.mp hi)
      exact Nat.mod_eq_of_lt (by omega)

/-- An order of four numbers that is reached. -/
theorem exists_shuffle_iff_four : [2, 0, 1, 3].Perm (List.range 4) ∧
    ((∃ draw, shuffle draw (List.range 4) = [2, 0, 1, 3]) ↔
      [2, 0, 1, 3].getLast? = (List.range 4).getLast?) := by
  have h : [2, 0, 1, 3].Perm (List.range 4) := by decide
  exact ⟨h, exists_shuffle_iff h⟩

/-- For 256 numbers, the table in which only the last two are swapped is not reached. -/
theorem not_exists_shuffle : (List.range 254 ++ [255, 254]).Perm (List.range 256) ∧
    ¬ ∃ draw, shuffle draw (List.range 256) = List.range 254 ++ [255, 254] := by
  have hrange : List.range 256 = List.range 254 ++ [254, 255] := by
    rw [List.range_succ, List.range_succ, List.append_assoc]
    rfl
  refine ⟨?_, ?_⟩
  · rw [hrange]
    exact (List.Perm.swap ..).append_left _
  · rintro ⟨draw, h⟩
    rw [List.range_succ, shuffle_concat] at h
    have hlast := congrArg List.getLast? h
    rw [List.getLast?_concat, List.append_cons, List.getLast?_concat] at hlast
    cases hlast

end PerfectHash.Pearson
