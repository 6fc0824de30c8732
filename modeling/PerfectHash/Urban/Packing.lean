import PerfectHash.Urban
import Mathlib.Tactic.Ring

/-! # The width and the packed string

The width that `new` chooses for the tables (`roundBits_eq_iff`), and for the widths of one, two and
four whole bytes the string: its cells are the entries of `G` and then those of `V` (`pack_eq`), and
`vec` reads an entry back up to the bits that do not fit (`vec_encode`). -/

namespace PerfectHash.Urban

open C CValues

variable {G : List Int} {g x : Int} {k w i bits size : Nat}

/-! ## The width -/

/-- `2` if a bit is needed for the sign. -/
def signFactor (G : List Int) : Nat := if ∃ g ∈ G, g < 0 then 2 else 1

theorem le_minMax (c : Int) (G : List Int) :
    c ≤ (minMax G).1 ↔ c ≤ 0 ∧ ∀ g ∈ G, c ≤ g := by
  have main (m : Int × Int) : c ≤ (G.foldl minMaxStep m).1 ↔ c ≤ m.1 ∧ ∀ g ∈ G, c ≤ g := by
    induction G generalizing m with
    | nil => simp
    | cons g G ih =>
      rw [List.foldl_cons, ih, List.forall_mem_cons, ← and_assoc]
      apply and_congr_left
      intro _
      unfold minMaxStep
      dsimp only
      split <;> omega
  exact main (0, 0)

theorem minMax_le (c : Int) (G : List Int) :
    (minMax G).2 ≤ c ↔ 0 ≤ c ∧ ∀ g ∈ G, g ≤ c := by
  have main (m : Int × Int) : (G.foldl minMaxStep m).2 ≤ c ↔ m.2 ≤ c ∧ ∀ g ∈ G, g ≤ c := by
    induction G generalizing m with
    | nil => simp
    | cons g G ih =>
      rw [List.foldl_cons, ih, List.forall_mem_cons, ← and_assoc]
      apply and_congr_left
      intro _
      unfold minMaxStep
      dsimp only
      split <;> omega
  exact main (0, 0)

theorem minMax_neg : (minMax G).1 < 0 ↔ ∃ g ∈ G, g < 0 := by
  have h := le_minMax 0 G
  constructor
  · intro hneg
    by_contra hnot
    simp only [not_exists, not_and, Int.not_lt] at hnot
    have := h.mpr ⟨Int.le_refl 0, hnot⟩
    omega
  · rintro ⟨g, hg, hneg⟩
    by_contra hnot
    have := (h.mp (by omega)).2 g hg
    omega

/-- The bits that are needed for entries with a sign bit. -/
theorem neededBits_le_iff (hk : 2 ≤ k) :
    neededBits G ≤ k ↔ ∀ g ∈ G, signFactor G * g.natAbs < 2 ^ k := by
  have hmin := (le_minMax (minMax G).1 G).mp (Int.le_refl _)
  have hmax := (minMax_le (minMax G).2 G).mp (Int.le_refl _)
  have habs : |(minMax G).1| = -(minMax G).1 := abs_of_nonpos hmin.1
  have hbound (b : Nat) (hb : 0 < b) :
      (if |(minMax G).1| > (minMax G).2 then |(minMax G).1| else (minMax G).2).toNat < b ↔
        ∀ g ∈ G, g.natAbs < b := by
    rw [habs]
    have hlow := le_minMax (-(b : Int) + 1) G
    have hhigh := minMax_le ((b : Int) - 1) G
    constructor
    · intro h g hg
      have h1 := hmin.2 g hg
      have h2 := hmax.2 g hg
      split at h <;> omega
    · intro h
      have h1 := hlow.mpr ⟨by omega, fun g hg => by have := h g hg; omega⟩
      have h2 := hhigh.mpr ⟨by omega, fun g hg => by have := h g hg; omega⟩
      split <;> omega
  unfold neededBits signFactor
  dsimp only
  by_cases hneg : ∃ g ∈ G, g < 0
  · obtain ⟨k, rfl⟩ : ∃ m, k = m + 1 := ⟨k - 1, by omega⟩
    rw [if_pos (minMax_neg.mpr hneg), if_pos hneg, Nat.add_le_add_iff_right,
      Nat.length_toDigits_le_iff (by decide) (by omega), hbound _ (Nat.two_pow_pos k), pow_succ]
    apply forall₂_congr
    intro g _
    omega
  · rw [if_neg (mt minMax_neg.mp hneg), if_neg hneg,
      Nat.length_toDigits_le_iff (by decide) (by omega), hbound _ (Nat.two_pow_pos k)]
    simp

/-- The width of a whole number of bytes for which the accessors have a branch of their own, and
`iv_perfecthash` a sign. -/
def Width (w : Nat) : Prop := w = 1 ∨ w = 2 ∨ w = 4

theorem roundBits_eq (bits : Nat) : roundBits bits =
    if bits ≤ 2 then 2 else if bits ≤ 4 then 4 else if bits ≤ 8 then 8 else if bits ≤ 16 then 16
    else if bits ≤ 32 then 32 else if bits ≤ 64 then 64 else bits := by
  simp only [roundBits, List.find?_cons, List.find?_nil]
  grind

theorem roundBits_eq_iff (hw : Width w) :
    roundBits bits = 8 * w ↔ 4 * w < bits ∧ bits ≤ 8 * w := by
  rw [roundBits_eq]
  rcases hw with rfl | rfl | rfl <;> split_ifs <;> omega

/-- Any other width is one that `vec` or `iv_perfecthash` does not have, or it is `4`. -/
theorem roundBits_cases (bits : Nat) : (∃ w, Width w ∧ roundBits bits = 8 * w) ∨
    roundBits bits = 2 ∨ roundBits bits = 4 ∧ 2 < bits ∨ 64 ≤ roundBits bits := by
  rw [roundBits_eq]
  split_ifs
  · exact .inr (.inl rfl)
  · exact .inr (.inr (.inl ⟨rfl, by omega⟩))
  · exact .inl ⟨1, .inl rfl, rfl⟩
  · exact .inl ⟨2, .inr (.inl rfl), rfl⟩
  · exact .inl ⟨4, .inr (.inr rfl), rfl⟩
  · exact .inr (.inr (.inr (Nat.le_refl _)))
  · exact .inr (.inr (.inr (by omega)))

/-! ## The cells of the string -/

/-- What `vec` reads from a cell of `w` bytes that holds `x`. -/
def decode (w : Nat) (x : Int) : Int := if w = 1 then x % 256 else x.bmod (256 ^ w)

theorem vec_encode {cells : List Int} (base : Nat) (hw : Width w)
    (h : cells[base + i]? = some x) :
    vec (Cells.encode w cells) (w * base) i (8 * w) = .ok (decode w x) := by
  have hload := Cells.load_encode (w := w) h
  rcases hw with rfl | rfl | rfl
  · rw [Nat.one_mul] at hload
    have hbyte : vec (Cells.encode 1 cells) (1 * base) i (8 * 1) =
        .ok ((x % 256).bmod 256 % 256) := by
      simp [vec, hload, inside, bind, Except.bind, pure, Except.pure, IntType.conv, signedChar]
    rw [hbyte, decode, if_pos rfl, show (x % 256).bmod 256 % 256 = x % 256 % 256 from
      Int.bmod_emod, Int.emod_emod_of_dvd _ (dvd_refl _)]
  · rw [Nat.mul_add] at hload
    simp only [vec, hload, inside, decode, bind, Except.bind, pure, Except.pure, IntType.conv,
      short]
    exact congrArg Except.ok (Int.emod_bmod x (256 ^ 2))
  · rw [Nat.mul_add] at hload
    simp only [vec, hload, inside, decode, bind, Except.bind, pure, Except.pure, IntType.conv, int]
    exact congrArg Except.ok (Int.emod_bmod x (256 ^ 4))

theorem nvecset_encode (hw : Width w) (front : List Int) (x y : Int) (back : List Int) :
    nvecset (Cells.encode w (front ++ x :: back)) front.length (8 * w) y =
      .ok (Cells.encode w (front ++ y :: back)) := by
  have hstore := Cells.store_encode w front x y back
  rcases hw with rfl | rfl | rfl
  · rw [Nat.one_mul] at hstore
    simp [nvecset, hstore, inside]
  · simp [nvecset, hstore, inside]
  · simp [nvecset, hstore, inside]

/-- Packing an array into zero cells. -/
theorem packArray_encode (hw : Width w) (front xs back : List Int) :
    packArray (8 * w) front.length xs
        (Cells.encode w (front ++ (List.replicate xs.length 0 ++ back))) =
      .ok (Cells.encode w (front ++ (xs ++ back))) := by
  induction xs generalizing front with
  | nil => rfl
  | cons x xs ih =>
    have hnext := ih (front ++ [x])
    simp only [List.length_append, List.length_singleton, List.append_assoc,
      List.singleton_append] at hnext
    rw [List.length_cons, List.replicate_succ, List.cons_append, List.cons_append, packArray]
    split
    · rename_i hx
      rw [hx] at hnext ⊢
      exact hnext
    · rw [nvecset_encode hw]
      exact hnext

/-- The string of both tables. -/
theorem pack_eq {t : Tables Int} (hw : Width w) (hG : t.G.length = size)
    (hV : t.V.length = size) :
    pack (8 * w) size t = .ok (Cells.encode w (t.G ++ t.V.map Scalar.number)) := by
  have hzero : List.replicate (8 * w * size / 4) 0 =
      Cells.encode w ([] ++ (List.replicate t.G.length 0 ++
        (List.replicate (t.V.map Scalar.number).length 0 ++ []))) := by
    rw [List.nil_append, List.append_nil, List.replicate_append_replicate,
      Cells.encode_replicate_zero, hG, List.length_map, hV]
    congr 1
    rw [Nat.mul_add, show 8 * w * size = 4 * (w * size + w * size) by ring]
    omega
  have hfirst := packArray_encode hw [] t.G
    (List.replicate (t.V.map Scalar.number).length 0 ++ [])
  have hsecond := packArray_encode hw t.G (t.V.map Scalar.number) []
  rw [List.length_nil] at hfirst
  rw [hG] at hsecond
  simp only [pack, hzero, hfirst, bind, Except.bind]
  rw [List.nil_append, hsecond, List.append_nil]

end PerfectHash.Urban
