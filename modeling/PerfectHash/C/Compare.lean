import PerfectHash.C
import PerfectHash.Lib.Cells

/-! # Comparing with a constant string (`memcmp_const_str`, `strcmp_str`)

The condition that tells whether a buffer starts with a given string, by words of 8, 4, 2 and 1
bytes for short strings and by `memcmp` for long ones, as it is printed on x86-64 (`longlongsize`
and `longsize` are 8, `intsize` is 4), and its value (`eval_memcmpConstStr`). -/

namespace PerfectHash.C

open CValues

/-- A character constant, or the number of the character. -/
inductive CharLit where
  | char (c : UInt8)
  | number (n : Nat)
  deriving DecidableEq, Repr

def CharLit.value : CharLit → Int
  | char c => c.toNat
  | number n => n

/-- `$ord >= 40 and $ord < 127 ? "'$c'" : $ord` -/
def charLit (c : UInt8) : CharLit :=
  let ord := c.toNat
  if ord ≥ 40 ∧ ord < 127 then .char c else .number ord

/-- A comparison at `&su[offset]`. -/
inductive Compare where
  /-- `*(type *)&su[offset] == (type)n` -/
  | word (type : IntType) (offset : Nat) (n : Int)
  /-- `*(&su[offset]) == c` -/
  | char (offset : Nat) (c : CharLit)
  /-- `!memcmp(&su[offset], "s", l)` -/
  | memcmp (offset : Nat) (s : Bytes) (l : Nat)
  deriving Repr

/-- The condition that `memcmp_const_str` prints: `0`, or comparisons that are joined by `&&`. -/
inductive Test where
  | zero
  | all (compares : List Compare)
  deriving Repr

/-- `strcmp_str("&su[offset]", $s, $l)` -/
def strcmpStr (offset : Nat) (s : Bytes) (l : Nat) : Compare :=
  if l = 8 then .word unsignedLong offset (Cells.value (s.take 8))
  else if l = 4 then .word int offset (Cells.value (s.take 4))
  else if l = 2 then .word short offset (Cells.value (s.take 2))
  else if l = 1 then .char offset (charLit (s.headD 0))
  else .memcmp offset s l

/-- The loop of `memcmp_const_str`: the comparisons of the last `l` bytes, which are at `&su[i]`. -/
def wordwise (i : Nat) (s : Bytes) (l : Nat) : List Compare :=
  if l ≥ 1 then
    let n := if l ≥ 16 then 16 else if l ≥ 8 then 8 else if l ≥ 4 then 4 else if l ≥ 2 then 2 else 1
    strcmpStr i s n :: wordwise (i + n) (s.drop n) (l - n)
  else []
termination_by l
decreasing_by
  split_ifs <;> omega

/-- The condition of `memcmp_const_str("su", $s, $l, ..)` -/
def memcmpConstStr (s : Bytes) (l : Nat) : Test :=
  if l = 0 then .zero
  else if l > 36 then .all [strcmpStr 0 s l]
  else .all (wordwise 0 s l)

/-- The value of a comparison for the buffer `su` of unsigned bytes. -/
def Compare.eval (su : Bytes) : Compare → Option Bool
  | word type offset n =>
    (Cells.load su offset (type.bits / 8)).map fun x => type.conv x = type.conv n
  | char offset c => su[offset]?.map fun b => (b.toNat : Int) = c.value
  | memcmp offset s l => memcmpEq (su.drop offset) (s ++ [0]) l

/-- `&&` looks at its right side only if the left one is true. -/
def Test.eval (su : Bytes) : Test → Option Bool
  | zero => some false
  | all compares => go compares
where
  go : List Compare → Option Bool
    | [] => some true
    | c :: compares =>
      match c.eval su with
      | some true => go compares
      | o => o

/-! ## The value of the condition -/

variable {front q rest s : Bytes} {n l i : Nat}

@[simp] theorem value_charLit (c : UInt8) : (charLit c).value = c.toNat := by
  simp only [charLit]
  split <;> rfl

/-- A word of the buffer is compared byte by byte. -/
theorem eval_word {type : IntType} (hbits : type.bits = 8 * n) (hq : n ≤ q.length)
    (hs : n ≤ s.length) : (Compare.word type front.length (Cells.value (s.take n))).eval
      (front ++ (q ++ rest)) = some (decide (q.take n = s.take n)) := by
  have hqn : (q.take n).length = n := by rw [List.length_take, Nat.min_eq_left hq]
  have hsn : (s.take n).length = n := by rw [List.length_take, Nat.min_eq_left hs]
  have hload : Cells.load (front ++ (q ++ rest)) front.length n =
      some (Cells.value (q.take n)) := by
    have := Cells.load_append front (q.take n) (q.drop n ++ rest)
    rwa [hqn, List.append_assoc, ← List.append_assoc (q.take n), List.take_append_drop] at this
  have hbound {a : Bytes} (ha : a.length = n) :
      0 ≤ Cells.value a ∧ Cells.value a < 2 ^ type.bits := by
    have hpow : (2 : Int) ^ type.bits = 256 ^ n := by rw [hbits, pow_mul]; norm_num
    rw [hpow, ← ha]
    exact ⟨Cells.value_nonneg a, Cells.value_lt a⟩
  rw [Compare.eval, hbits, Nat.mul_div_cancel_left _ (by decide), hload, Option.map_some]
  congr 2
  rw [IntType.conv_inj (hbound hqn) (hbound hsn)]
  exact propext ⟨Cells.value_injective (hqn.trans hsn.symm), fun h => by rw [h]⟩

/-- The comparison of `l` bytes. -/
theorem eval_strcmpStr (front rest : Bytes) (hl : 1 ≤ l) (hq : l ≤ q.length) (hs : l ≤ s.length) :
    (strcmpStr front.length s l).eval (front ++ (q ++ rest)) =
      some (decide (q.take l = s.take l)) := by
  unfold strcmpStr
  split_ifs with h8 h4 h2 h1
  · subst h8
    exact eval_word rfl hq hs
  · subst h4
    exact eval_word rfl hq hs
  · subst h2
    exact eval_word rfl hq hs
  · subst h1
    match q, s, hq, hs with
    | a :: q, c :: s, _, _ =>
      have hget : (front ++ (a :: q ++ rest))[front.length]? = some a := by simp
      rw [Compare.eval, hget, Option.map_some, List.headD_cons, value_charLit]
      congr 2
      simp [← UInt8.toNat_inj]
  · have hle : l ≤ (q ++ rest).length ∧ l ≤ (s ++ [0]).length := by
      simp only [List.length_append]
      omega
    rw [Compare.eval, List.drop_left' rfl, memcmpEq, if_pos hle, List.take_append_of_le_length hq,
      List.take_append_of_le_length hs, beq_eq_decide]

theorem go_cons (su : Bytes) (c : Compare) (compares : List Compare) (h : c.eval su = some b) :
    Test.eval.go su (c :: compares) = if b then Test.eval.go su compares else some false := by
  rw [Test.eval.go, h]
  cases b <;> rfl

/-- The comparisons of the rest of a string. -/
theorem eval_wordwise (front rest : Bytes) (hq : q.length = l) (hs : s.length = l) :
    Test.eval.go (front ++ (q ++ rest)) (wordwise front.length s l) = some (decide (q = s)) := by
  induction l using Nat.strongRecOn generalizing front q s with
  | ind l ih =>
    rw [wordwise]
    split
    · rename_i hl
      dsimp only
      generalize hn : (if l ≥ 16 then 16 else if l ≥ 8 then 8 else if l ≥ 4 then 4
        else if l ≥ 2 then 2 else 1) = n
      have hn1 : 1 ≤ n ∧ n ≤ l := by
        subst hn
        split_ifs <;> omega
      have hfirst := eval_strcmpStr front rest hn1.1
        (show n ≤ q.length by omega) (show n ≤ s.length by omega)
      have hlast := ih (l - n) (by omega) (q := q.drop n) (s := s.drop n)
        (front ++ q.take n) (by rw [List.length_drop, hq]) (by rw [List.length_drop, hs])
      rw [List.append_assoc, ← List.append_assoc (q.take n), List.take_append_drop,
        List.length_append, List.length_take, hq, Nat.min_eq_left hn1.2] at hlast
      rw [go_cons _ _ _ hfirst, hlast]
      have hsplit : q = s ↔ q.take n = s.take n ∧ q.drop n = s.drop n := by
        refine ⟨fun h => by rw [h]; exact ⟨rfl, rfl⟩, fun h => ?_⟩
        rw [← List.take_append_drop n q, h.1, h.2, List.take_append_drop]
      by_cases htake : q.take n = s.take n <;> simp [hsplit, htake]
    · have hq0 : q = [] := List.length_eq_zero_iff.mp (by omega)
      have hs0 : s = [] := List.length_eq_zero_iff.mp (by omega)
      rw [hq0, hs0]
      rfl

/-- For a string of the length of a nonempty key, the condition is that it is the key. -/
theorem eval_memcmpConstStr (hs : 1 ≤ s.length) (hq : q.length = s.length) (rest : Bytes) :
    (memcmpConstStr s s.length).eval (q ++ rest) = some (decide (q = s)) := by
  unfold memcmpConstStr
  split_ifs with h0 h36
  · omega
  · have hone := eval_strcmpStr [] rest (q := q) hs (by omega) (Nat.le_refl _)
    rw [List.take_length, ← hq, List.take_length, hq] at hone
    change Compare.eval (q ++ rest) (strcmpStr 0 s s.length) = _ at hone
    rw [Test.eval, go_cons _ _ _ hone]
    by_cases h : q = s <;> simp [h, Test.eval.go]
  · exact eval_wordwise [] rest hq rfl

/-! ## The bytes that are read -/

/-- A comparison that is defined does not depend on what follows the buffer. -/
theorem Compare.eval_mono {c : Compare} {su : Bytes} {b : Bool} (h : c.eval su = some b)
    (rest : Bytes) : c.eval (su ++ rest) = some b := by
  cases c with
  | word type offset n =>
    rw [Compare.eval, Option.map_eq_some_iff] at h
    obtain ⟨x, hx, rfl⟩ := h
    have hle : offset + type.bits / 8 ≤ su.length := by
      by_contra hlt
      rw [Cells.load, if_neg hlt] at hx
      cases hx
    rw [Compare.eval, Cells.load, if_pos (by rw [List.length_append]; omega),
      List.drop_append_of_le_length (by omega),
      List.take_append_of_le_length (by rw [List.length_drop]; omega)]
    rw [Cells.load, if_pos hle] at hx
    rw [hx, Option.map_some]
  | char offset c =>
    rw [Compare.eval, Option.map_eq_some_iff] at h
    obtain ⟨x, hx, rfl⟩ := h
    rw [Compare.eval, List.getElem?_append_left (List.getElem?_eq_some_iff.mp hx).1, hx,
      Option.map_some]
  | memcmp offset s l =>
    rw [Compare.eval] at h ⊢
    have hmono := memcmpEq_mono h (rest.drop (offset - su.length)) []
    rwa [List.append_nil, ← List.drop_append] at hmono

theorem Test.eval_mono {t : Test} {su : Bytes} {b : Bool} (h : t.eval su = some b)
    (rest : Bytes) : t.eval (su ++ rest) = some b := by
  cases t with
  | zero => exact h
  | all compares =>
    rw [Test.eval] at h ⊢
    induction compares with
    | nil => exact h
    | cons c compares ih =>
      cases hc : c.eval su with
      | none =>
        rw [Test.eval.go, hc] at h
        cases h
      | some b' =>
        rw [go_cons _ _ _ hc] at h
        rw [go_cons _ _ _ (Compare.eval_mono hc rest)]
        split
        · rw [if_pos ‹_›] at h
          exact ih h
        · rw [if_neg ‹_›] at h
          exact h

/-- The condition for a string is true for the buffers that start with it. It is defined for every
buffer that is long enough, and as the buffer can be cut off at the length of the string, no byte
from there on is read. -/
theorem memcmpConstStr_correct (hs : s ≠ []) (p : Bytes) :
    ((memcmpConstStr s s.length).eval p = some true ↔ s <+: p) ∧
      (memcmpConstStr s s.length).eval (p.take s.length) =
        (memcmpConstStr s s.length).eval p ∧
      (s.length ≤ p.length → ∃ b, (memcmpConstStr s s.length).eval p = some b) := by
  have hpos := List.length_pos_iff.mpr hs
  have hlong (q : Bytes) (hle : s.length ≤ q.length) (rest : Bytes) :
      (memcmpConstStr s s.length).eval (q.take s.length ++ rest) = some (decide (s <+: q)) := by
    rw [eval_memcmpConstStr hpos (List.length_take_of_le hle) rest, Option.some_inj,
      decide_eq_decide, List.prefix_iff_eq_take, eq_comm]
  have hall (q : Bytes) (hle : s.length ≤ q.length) :
      (memcmpConstStr s s.length).eval q = some (decide (s <+: q)) := by
    have hq := hlong q hle (q.drop s.length)
    rwa [List.take_append_drop] at hq
  refine ⟨⟨fun h => ?_, fun h => ?_⟩, ?_, fun hle => ⟨_, hall p hle⟩⟩
  · -- a buffer that is too short would make the condition true whatever byte follows it
    have hnext (b : UInt8) : s <+: p ++ List.replicate s.length b := by
      have hmono := Test.eval_mono h (List.replicate s.length b)
      rw [hall _ (by simp)] at hmono
      exact of_decide_eq_true (Option.some_inj.mp hmono)
    rcases Nat.lt_or_ge p.length s.length with hlt | hle
    · have hbyte (b : UInt8) : s[p.length]? = some b := by
        rw [List.getElem?_eq_getElem hlt, ← List.prefix_iff_getElem?.mp (hnext b) p.length hlt,
          List.getElem?_append_right (Nat.le_refl _), Nat.sub_self,
          List.getElem?_replicate_of_lt hpos]
      have hzero := (hbyte 0).symm.trans (hbyte 1)
      cases hzero
    · rw [hall p hle] at h
      exact of_decide_eq_true (Option.some_inj.mp h)
  · rw [hall p h.length_le, decide_eq_true h]
  · rcases Nat.le_total s.length p.length with hle | hle
    · have hcut := hlong p hle []
      rw [List.append_nil] at hcut
      rw [hcut, hall p hle]
    · rw [List.take_of_length_le hle]

theorem memcmpConstStr_correct_three :
    (memcmpConstStr [97, 98, 99] 3).eval [97, 98, 99, 100] = some true :=
  (memcmpConstStr_correct (s := [97, 98, 99]) (by decide) [97, 98, 99, 100]).1.mpr (by decide)

end PerfectHash.C
