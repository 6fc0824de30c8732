import PerfectHash.C.Compare
import PerfectHash.C.Utf8

/-! # The text of a key in the generated comparisons (`strcmp_str`)

Besides numbers and string literals, the comparisons of `memcmp_const_str` show bytes of the key in
comments and in character constants. A comment must not contain the sequence that ends it, also not
with line splices in between, and a constant must be complete. -/

namespace PerfectHash.C

/-- Bytes of a key in the generated text, outside of string literals. -/
inductive KeyText where
  /-- the key text of a comment -/
  | comment (text : Bytes)
  /-- a character constant as it is printed for the byte `c` -/
  | charConst (text : Bytes) (c : UInt8)

/-- A line splice, which C deletes before it looks for comments: a backslash or the trigraph for one
at the end of a line. Compilers also take blanks behind the backslash. -/
def IsSplice (p : Bytes) : Prop :=
  ∃ mark ∈ [[92], [63, 63, 47]], ∃ blanks : Bytes, (∀ b ∈ blanks, b ∈ [0, 9, 11, 12, 32]) ∧
    ∃ newline ∈ [[10], [13, 10]], p = mark ++ blanks ++ newline

/-- The text has the sequence that ends a comment: `*` and `/` with only line splices in between. -/
def Closes (text : Bytes) : Prop :=
  ∃ splices : List Bytes, (∀ p ∈ splices, IsSplice p) ∧ 42 :: splices.flatten ++ [47] <:+: text

/-- What an escape sequence of one character stands for. -/
def simpleEscape (e : UInt8) : Option UInt8 :=
  if e = 39 ∨ e = 34 ∨ e = 63 ∨ e = 92 then some e
  else [(97, 7), (98, 8), (102, 12), (110, 10), (114, 13), (116, 9), (118, 11)].lookup e

/-- A complete character constant for a byte: in quotes, the byte itself or an escape sequence. -/
inductive IsCharConst : Bytes → UInt8 → Prop
  | plain {c : UInt8} (h : c ≠ 39 ∧ c ≠ 92 ∧ c ≠ 10) : IsCharConst [39, c, 39] c
  | escape {c e : UInt8} (h : simpleEscape e = some c) : IsCharConst [39, 92, e, 39] c

/-- The text does not change the structure of the code. -/
def KeyText.Safe : KeyText → Prop
  | comment text => ¬ Closes text
  | charConst text c => IsCharConst text c

/-- All of some texts are safe. -/
def Safe (texts : List KeyText) : Prop := ∀ t ∈ texts, t.Safe

/-- `sprintf "\\%03o"` -/
def octal (c : UInt8) : Bytes := [92, 48 + c / 64, 48 + c / 8 % 8, 48 + c % 8]

/-- How `cstring` writes a byte that cannot be printed. -/
def cstringControl (c : UInt8) : Bytes :=
  match [(10, 110), (13, 114), (9, 116), (7, 97), (8, 98), (12, 102), (11, 118)].lookup c with
  | some e => [92, e]
  | none => octal c

/-- How `cstring` writes the byte `c` in front of `s`. -/
def cstringChar (c : UInt8) (s : Bytes) : Bytes :=
  if c = 34 then [92, 34]
  else if c = 92 then [92, 92]
  -- no trigraphs
  else if c = 63 ∧ s.length ≥ 2 ∧ s.head? = some 63 then octal 63
  else if 32 ≤ c.toNat ∧ c.toNat < 127 then [c]
  else cstringControl c

/-- The bytes between the quotes of `cstring`. -/
def cstringBody : Bytes → Bytes
  | [] => []
  | c :: s => cstringChar c s ++ cstringBody s

/-- `B::cstring($s)` -/
def cstring (s : Bytes) : Bytes := 34 :: cstringBody s ++ [34]

/-- `'$c'`, where the byte is not printed as a number. -/
def charText (c : UInt8) (text : Bytes) : List KeyText :=
  let ord := c.toNat
  if ord ≥ 40 ∧ ord < 127 then [.charConst (39 :: text ++ [39]) c] else []

/-- The key text of `strcmp_str(.., $s, $l)` -/
def strcmpText (s : Bytes) (l : Nat) : List KeyText :=
  let cs := if utf8Valid s then s else cstring s
  if l = 8 then [.comment cs]
  else if l = 4 then [.comment cs]
  else if l = 2 then [.comment cs]
  else if l = 1 then charText (s.headD 0) s
  else []

/-- The key text of the loop of `memcmp_const_str`. -/
def wordwiseText (s : Bytes) (l : Nat) : List KeyText :=
  if l ≥ 1 then
    let n := if l ≥ 16 then 16 else if l ≥ 8 then 8 else if l ≥ 4 then 4 else if l ≥ 2 then 2 else 1
    strcmpText s n ++ wordwiseText (s.drop n) (l - n)
  else []
termination_by l
decreasing_by
  split_ifs <;> omega

/-- The key text of `memcmp_const_str(.., $s, $l, ..)` -/
def memcmpText (s : Bytes) (l : Nat) : List KeyText :=
  if l = 0 then []
  else if l > 36 then strcmpText s l
  else wordwiseText s l

variable {s t : Bytes} {c : UInt8} {k l n : Nat}

theorem safe_append {a b : List KeyText} : Safe (a ++ b) ↔ Safe a ∧ Safe b :=
  List.forall_mem_append

/-! ## Comments -/

theorem IsSplice.notMem {p : Bytes} (h : IsSplice p) : 44 ∉ p := by
  obtain ⟨mark, hmark, blanks, hblanks, newline, hnewline, rfl⟩ := h
  have hmarks : ∀ m ∈ ([[92], [63, 63, 47]] : List Bytes), 44 ∉ m := by decide
  have hnewlines : ∀ m ∈ ([[10], [13, 10]] : List Bytes), 44 ∉ m := by decide
  simp only [List.mem_append, not_or]
  exact ⟨⟨hmarks mark hmark, fun h => absurd (hblanks _ h) (by decide)⟩, hnewlines _ hnewline⟩

theorem IsSplice.newline_mem {p : Bytes} (h : IsSplice p) : 10 ∈ p := by
  obtain ⟨mark, -, blanks, -, newline, hnewline, rfl⟩ := h
  have hnewlines : ∀ m ∈ ([[10], [13, 10]] : List Bytes), 10 ∈ m := by decide
  exact List.mem_append_right _ (hnewlines _ hnewline)

theorem Closes.mono (hc : Closes s) (h : s <:+: t) : Closes t := by
  obtain ⟨splices, hsplices, hin⟩ := hc
  exact ⟨splices, hsplices, hin.trans h⟩

@[simp] theorem not_closes_nil : ¬ Closes [] := by
  rintro ⟨splices, -, h⟩
  cases List.infix_nil.mp h

/-- In one line only the sequence itself ends a comment. -/
theorem closes_iff_of_notMem (h : 10 ∉ t) : Closes t ↔ [42, 47] <:+: t := by
  constructor
  · rintro ⟨splices, hsplices, hin⟩
    cases splices with
    | nil => exact hin
    | cons p splices =>
      refine absurd (hin.subset ?_) h
      have hp := (hsplices p List.mem_cons_self).newline_mem
      simp [hp]
  · exact fun hin => ⟨[], nofun, hin⟩

theorem closes_cons_of_ne (h : c ≠ 42) : Closes (c :: s) ↔ Closes s := by
  refine exists_congr fun splices => and_congr_right fun _ => ?_
  rw [List.cons_append, List.infix_cons_iff, List.cons_prefix_cons]
  exact or_iff_right fun hc => h hc.1.symm

/-- A sequence without a byte is on one side of it. -/
theorem infix_append_cons_iff {w : Bytes} (hw : c ∉ w) :
    w <:+: s ++ c :: t ↔ w <:+: s ∨ w <:+: t := by
  constructor
  · rintro ⟨x, y, h⟩
    rcases List.append_eq_append_iff.mp h with ⟨z, hs, -⟩ | ⟨z, hxw, hz⟩
    · exact .inl ⟨x, z, hs.symm⟩
    · cases z with
      | nil => exact .inl ⟨x, [], by rw [hxw, List.append_nil, List.append_nil]⟩
      | cons b z =>
        obtain ⟨rfl, hb⟩ := List.cons.inj hz
        rcases List.append_eq_append_iff.mp hxw with ⟨u, -, hu⟩ | ⟨u, -, hu⟩
        · exact absurd (by rw [hu]; simp) hw
        · cases u with
          | nil => exact absurd (by rw [← List.nil_append w, ← hu]; simp) hw
          | cons b' u =>
            obtain ⟨-, hz'⟩ := List.cons.inj hu
            exact .inr ⟨u, y, by rw [hb, hz']; rfl⟩
  · rintro (h | h)
    · exact h.trans (List.prefix_append _ _).isInfix
    · exact h.trans ((List.suffix_cons _ _).trans (List.suffix_append _ _)).isInfix

/-- A comma does not take part in a sequence that ends a comment. -/
theorem closes_append_comma : Closes (s ++ 44 :: t) ↔ Closes s ∨ Closes t := by
  have hcomma (splices : List Bytes) (h : ∀ p ∈ splices, IsSplice p) :
      44 ∉ 42 :: splices.flatten ++ [47] := by
    simp only [List.cons_append, List.mem_cons, List.mem_append, List.mem_flatten,
      List.not_mem_nil, or_false, not_or, not_exists, not_and]
    exact ⟨by decide, fun p hp => (h p hp).notMem, by decide⟩
  constructor
  · rintro ⟨splices, hsplices, hin⟩
    exact ((infix_append_cons_iff (hcomma splices hsplices)).mp hin).imp
      (fun h => ⟨splices, hsplices, h⟩) fun h => ⟨splices, hsplices, h⟩
  · rintro (h | h)
    · exact h.mono (List.prefix_append _ _).isInfix
    · exact h.mono ((List.suffix_cons _ _).trans (List.suffix_append _ _)).isInfix

/-! ## Keys that are shown as literals -/

theorem infix_cons : [42, 47] <:+: c :: s ↔ c = 42 ∧ s.head? = some 47 ∨ [42, 47] <:+: s := by
  rw [List.infix_cons_iff, List.cons_prefix_cons, eq_comm]
  refine or_congr (and_congr Iff.rfl ?_) Iff.rfl
  cases s with
  | nil => simp
  | cons b s => simp [eq_comm]

/-- A sequence that is not in front cannot start in bytes other than `*`. -/
theorem infix_append_of_notMem (h : 42 ∉ t) : [42, 47] <:+: t ++ s ↔ [42, 47] <:+: s := by
  induction t with
  | nil => rfl
  | cons c t ih =>
    obtain ⟨hc, ht⟩ := not_or.mp (mt List.mem_cons.mpr h)
    rw [List.cons_append, infix_cons, ih ht]
    exact or_iff_right fun hclose => hc hclose.1.symm

/-- An octal escape sequence has no bytes below the digits. -/
theorem notMem_octal {b : UInt8} (hb : b < 48) (c : UInt8) : b ∉ octal c := by
  have hdigit (x : UInt8) (hx : x.toNat < 8) : b ≠ 48 + x := by
    rintro rfl
    have hlt := UInt8.lt_iff_toNat_lt.mp hb
    simp at hlt
    omega
  have hc := c.toNat_lt
  simp only [octal, List.mem_cons, List.not_mem_nil, or_false, not_or]
  refine ⟨?_, hdigit _ ?_, hdigit _ ?_, hdigit _ ?_⟩
  · rintro rfl
    exact absurd hb (by decide)
  all_goals
    simp
    omega

theorem cstringControl_spec (c : UInt8) : 42 ∉ cstringControl c ∧ 10 ∉ cstringControl c ∧
    (cstringControl c).head? = some 92 := by
  unfold cstringControl
  split
  · rename_i e he
    obtain ⟨front, rest, hlist, -⟩ := List.lookup_eq_some_iff.mp he
    have hall : ∀ p ∈ ([(10, 110), (13, 114), (9, 116), (7, 97), (8, 98), (12, 102), (11, 118)] :
        List (UInt8 × UInt8)), p.2 ≠ 42 ∧ p.2 ≠ 10 := by simp
    obtain ⟨hstar, hnewline⟩ := hall (c, e) (by rw [hlist]; simp)
    exact ⟨by simp [hstar.symm], by simp [hnewline.symm], rfl⟩
  · exact ⟨notMem_octal (by decide) c, notMem_octal (by decide) c, rfl⟩

/-- A byte is written as itself, or as an escape sequence without `*`. -/
theorem cstringChar_eq_or (c : UInt8) (s : Bytes) : cstringChar c s = [c] ∨
    c ≠ 42 ∧ c ≠ 47 ∧ 42 ∉ cstringChar c s ∧ (cstringChar c s).head? = some 92 := by
  unfold cstringChar
  split
  · exact .inr (by subst c; decide)
  split
  · exact .inr (by subst c; decide)
  split
  · rename_i h
    exact .inr ⟨by rw [h.1]; decide, by rw [h.1]; decide, notMem_octal (by decide) 63, rfl⟩
  split
  · exact .inl rfl
  · rename_i hprint
    obtain ⟨hstar, -, hhead⟩ := cstringControl_spec c
    exact .inr ⟨fun h => hprint (by rw [h]; decide), fun h => hprint (by rw [h]; decide), hstar,
      hhead⟩

theorem newline_notMem_cstringChar (c : UInt8) (s : Bytes) : 10 ∉ cstringChar c s := by
  unfold cstringChar
  split
  · decide
  split
  · decide
  split
  · exact notMem_octal (by decide) 63
  split
  · rename_i hprint
    rw [List.mem_singleton]
    rintro rfl
    exact absurd hprint.1 (by decide)
  · exact (cstringControl_spec c).2.1

/-- A literal is in one line. -/
theorem newline_notMem_cstring (s : Bytes) : 10 ∉ cstring s := by
  have hbody : 10 ∉ cstringBody s := by
    induction s with
    | nil => exact List.not_mem_nil
    | cons c s ih =>
      rw [cstringBody, List.mem_append, not_or]
      exact ⟨newline_notMem_cstringChar c s, ih⟩
  simp [cstring, hbody]

/-- The first byte of the literal is `/` exactly if that of the string is. -/
theorem head?_cstringBody (s : Bytes) : (cstringBody s).head? = some 47 ↔ s.head? = some 47 := by
  cases s with
  | nil => rfl
  | cons c s =>
    rw [cstringBody]
    rcases cstringChar_eq_or c s with heq | ⟨-, hslash, -, hhead⟩
    · rw [heq]
      rfl
    · rw [List.head?_append, hhead, Option.some_or, List.head?_cons]
      simp [hslash]

theorem infix_cstringBody (s : Bytes) : [42, 47] <:+: cstringBody s ↔ [42, 47] <:+: s := by
  induction s with
  | nil => rfl
  | cons c s ih =>
    rw [cstringBody, infix_cons]
    rcases cstringChar_eq_or c s with heq | ⟨hstar, -, hnot, -⟩
    · rw [heq, List.singleton_append, infix_cons, ih, head?_cstringBody]
    · rw [infix_append_of_notMem hnot, ih]
      exact (or_iff_right fun h => hstar h.1).symm

theorem closes_cstring (s : Bytes) : Closes (cstring s) ↔ [42, 47] <:+: s := by
  have hquote {w : Bytes} (hw : w = [42, 47]) : 34 ∉ w := by
    rw [hw]
    decide
  rw [closes_iff_of_notMem (newline_notMem_cstring s), cstring, List.cons_append, infix_cons,
    infix_append_cons_iff (hquote rfl), infix_cstringBody]
  simp

/-- The text in which a comparison shows a key ends a comment. A key that is valid UTF-8 is shown as
it is, another one as a literal in one line. -/
def EndsComment (s : Bytes) : Prop := if utf8Valid s then Closes s else [42, 47] <:+: s

theorem closes_comment (s : Bytes) :
    Closes (if utf8Valid s then s else cstring s) ↔ EndsComment s := by
  unfold EndsComment
  split
  · rfl
  · exact closes_cstring s

/-! ## Character constants -/

theorem isCharConst_iff : IsCharConst [39, c, 39] c ↔ c ≠ 39 ∧ c ≠ 92 ∧ c ≠ 10 := by
  constructor
  · intro h
    cases h with
    | plain h => exact h
  · exact .plain

/-- The text for a byte is a complete constant unless the byte is a backslash. -/
theorem safe_charText (c : UInt8) : Safe (charText c [c]) ↔ c ≠ 92 := by
  unfold charText
  dsimp only
  split
  · rename_i hord
    have hquote : c ≠ 39 := by
      rintro rfl
      exact absurd hord.1 (by decide)
    have hnewline : c ≠ 10 := by
      rintro rfl
      exact absurd hord.1 (by decide)
    rw [Safe, List.forall_mem_singleton]
    exact isCharConst_iff.trans ⟨fun h => h.2.1, fun h => ⟨hquote, h, hnewline⟩⟩
  · rename_i hord
    refine ⟨fun _ => ?_, fun _ => nofun⟩
    rintro rfl
    exact hord (by decide)

/-! ## Comparisons -/

theorem safe_strcmpText_sixteen (s : Bytes) : Safe (strcmpText s 16) := nofun

theorem safe_strcmpText_word (hl : l = 8 ∨ l = 4 ∨ l = 2) (s : Bytes) :
    Safe (strcmpText s l) ↔ ¬ EndsComment s := by
  have htext : strcmpText s l = [.comment (if utf8Valid s then s else cstring s)] := by
    rcases hl with rfl | rfl | rfl <;> rfl
  rw [htext, Safe, List.forall_mem_singleton]
  exact not_congr (closes_comment s)

/-- A byte that is left at the end is the last one of what is left before. -/
theorem getLast?_drop_of_odd (h : s.length = l) (heven : n % 2 = 0) (hle : n ≤ l) :
    ((l - n) % 2 = 1 → (s.drop n).getLast? ≠ some 92) ↔
      (l % 2 = 1 → s.getLast? ≠ some 92) := by
  rw [show (l - n) % 2 = l % 2 by omega]
  refine forall_congr' fun hodd => ?_
  rw [List.getLast?_drop, if_neg (by omega)]

/-- The rest of a string of length `l` that is left for a word of `n` bytes does not end the comment
in which it is shown, if there is such a word. -/
def RestSafe (s : Bytes) (l n : Nat) : Prop :=
  l / n % 2 = 1 → ¬ EndsComment (s.drop (l - l % (2 * n)))

theorem restSafe_drop (hk : 2 * n ∣ k) (hn : 0 < n) (hle : k ≤ l) :
    RestSafe (s.drop k) (l - k) n ↔ RestSafe s l n := by
  obtain ⟨q, rfl⟩ := hk
  obtain ⟨m, rfl⟩ := Nat.exists_eq_add_of_le hle
  have hdiv : (2 * n * q + m) / n % 2 = m / n % 2 := by
    rw [Nat.mul_comm 2 n, Nat.mul_assoc, Nat.mul_add_div hn, Nat.mul_add_mod]
  have hmod : (2 * n * q + m) % (2 * n) = m % (2 * n) := Nat.mul_add_mod _ _ _
  have hrest := Nat.mod_le m (2 * n)
  unfold RestSafe
  rw [Nat.add_sub_cancel_left, hdiv, hmod, List.drop_drop, Nat.add_sub_assoc hrest]

theorem restSafe_of_lt (h : l < n) : RestSafe s l n := by
  intro hbit
  rw [Nat.div_eq_of_lt h] at hbit
  cases hbit

/-- The first shorter word shows all that is left. -/
theorem restSafe_self (hn : n ≤ l) (hlt : l < 2 * n) : RestSafe s l n ↔ ¬ EndsComment s := by
  have hone : l / n = 1 := Nat.div_eq_of_lt_le (by omega) (by omega)
  unfold RestSafe
  rw [hone, Nat.mod_eq_of_lt hlt, Nat.sub_self, List.drop_zero]
  exact imp_iff_right rfl

/-- What is left is shown for its first word, and again for the shorter ones. -/
theorem restSafe_word (hn : n ∈ [8, 4, 2]) (hle : n ≤ l) (hlt : l < 2 * n) :
    (∀ m ∈ [8, 4, 2], RestSafe s l m) ↔
      ¬ EndsComment s ∧ ∀ m ∈ [8, 4, 2], RestSafe (s.drop n) (l - n) m := by
  have hpos : ∀ m ∈ [8, 4, 2], 0 < m := by decide
  have hdvd : ∀ n ∈ [8, 4, 2], ∀ m ∈ [8, 4, 2], m < n → 2 * m ∣ n := by decide
  have hgt : ∀ n ∈ [8, 4, 2], ∀ m ∈ [8, 4, 2], n < m → 2 * n ≤ m := by decide
  constructor
  · refine fun h => ⟨(restSafe_self hle hlt).mp (h n hn), fun m hm => ?_⟩
    by_cases hmn : m < n
    · exact (restSafe_drop (hdvd n hn m hm hmn) (hpos m hm) hle).mpr (h m hm)
    · exact restSafe_of_lt (by omega)
  · rintro ⟨hs, h⟩ m hm
    rcases Nat.lt_trichotomy m n with hmn | rfl | hmn
    · exact (restSafe_drop (hdvd n hn m hm hmn) (hpos m hm) hle).mp (h m hm)
    · exact (restSafe_self hle hlt).mpr hs
    · exact restSafe_of_lt (hlt.trans_le (hgt n hn m hm hmn))

/-- When the text of the comparisons of a key is safe: what is left for a word of 8, 4 or 2 bytes
does not end a comment, and a byte that is left at the end is no backslash. -/
theorem safe_wordwiseText (h : s.length = l) : Safe (wordwiseText s l) ↔
    (∀ n ∈ [8, 4, 2], RestSafe s l n) ∧ (l % 2 = 1 → s.getLast? ≠ some 92) := by
  induction l using Nat.strong_induction_on generalizing s with
  | _ l ih =>
    have hrest (k : Nat) (heven : k % 2 = 0) (hle : k ≤ l) (hpos : 0 < k) :=
      (ih (l - k) (by omega) (s := s.drop k) (by rw [List.length_drop, h])).trans
        (and_congr_right fun _ => getLast?_drop_of_odd h heven hle)
    have hword (n : Nat) (hn : n = 8 ∨ n = 4 ∨ n = 2) (hle : n ≤ l) (hlt : l < 2 * n) :
        Safe (strcmpText s n ++ wordwiseText (s.drop n) (l - n)) ↔
          (∀ m ∈ [8, 4, 2], RestSafe s l m) ∧ (l % 2 = 1 → s.getLast? ≠ some 92) := by
      rw [safe_append, safe_strcmpText_word hn, hrest n (by omega) hle (by omega),
        restSafe_word (by simpa using hn) hle hlt, and_assoc]
    have hshort (hlt : l < 2) : ∀ m ∈ [8, 4, 2], RestSafe s l m := fun m hm =>
      restSafe_of_lt (hlt.trans_le ((by decide : ∀ m ∈ [8, 4, 2], 2 ≤ m) m hm))
    rw [wordwiseText]
    dsimp only
    split_ifs with h1 h16 h8 h4 h2
    · have hdvd : ∀ m ∈ [8, 4, 2], 2 * m ∣ 16 ∧ 0 < m := by decide
      rw [safe_append, hrest 16 (by decide) h16 (by decide)]
      refine (and_iff_right (safe_strcmpText_sixteen s)).trans (and_congr_left fun _ => ?_)
      exact forall₂_congr fun m hm => restSafe_drop (hdvd m hm).1 (hdvd m hm).2 h16
    · exact hword 8 (by decide) h8 (by omega)
    · exact hword 4 (by decide) h4 (by omega)
    · exact hword 2 (by decide) h2 (by omega)
    · obtain rfl : l = 1 := by omega
      obtain ⟨c, rfl⟩ := List.length_eq_one_iff.mp h
      have hnil : Safe (wordwiseText ([c].drop 1) (1 - 1)) := by
        rw [wordwiseText]
        exact nofun
      rw [safe_append, and_iff_left hnil, and_iff_right (hshort (by decide))]
      exact (safe_charText c).trans (by simp)
    · obtain rfl : l = 0 := by omega
      exact ⟨fun _ => ⟨hshort (by decide), nofun⟩, fun _ => nofun⟩

/-- What the comparison with a key shows of it does not change the code: for a key of at most 36
bytes, what is left for its words of 8, 4 and 2 bytes, and the last byte of an odd number. -/
def ShownSafe (s : Bytes) : Prop :=
  s.length ≤ 36 →
    (∀ n ∈ [8, 4, 2], RestSafe s s.length n) ∧ (s.length % 2 = 1 → s.getLast? ≠ some 92)

/-- When the text of the comparison with a key is safe. -/
theorem safe_memcmpText (s : Bytes) : Safe (memcmpText s s.length) ↔ ShownSafe s := by
  unfold memcmpText
  split
  · rename_i h
    obtain rfl := List.length_eq_zero_iff.mp h
    have hpos : ∀ n ∈ [8, 4, 2], 0 < n := by decide
    exact ⟨fun _ _ => ⟨fun n hn => restSafe_of_lt (hpos n hn), nofun⟩, fun _ => nofun⟩
  · split
    · rename_i h
      have htext : strcmpText s s.length = [] := by
        unfold strcmpText
        dsimp only
        rw [if_neg (by omega), if_neg (by omega), if_neg (by omega), if_neg (by omega)]
      rw [htext]
      exact ⟨fun _ hle => absurd h (Nat.not_lt.mpr hle), fun _ => nofun⟩
    · rename_i h
      rw [safe_wordwiseText rfl]
      exact ⟨fun hsafe _ => hsafe, fun hsafe => hsafe (by omega)⟩

/-- The comment for a key of eight bytes is ended by `*` and `/` with a line splice in between. -/
example : ¬ ShownSafe [42, 92, 10, 47, 60, 48, 47, 42] := by
  intro h
  have hrest := (h (by decide)).1 8 (by decide)
  refine (restSafe_self (by decide) (by decide)).mp hrest ?_
  have hsplice : IsSplice [92, 10] := ⟨[92], by decide, [], nofun, [10], by decide, rfl⟩
  rw [EndsComment, if_pos (by decide +kernel)]
  exact ⟨[[92, 10]], by simpa using hsplice, [], [60, 48, 47, 42], rfl⟩

end PerfectHash.C
