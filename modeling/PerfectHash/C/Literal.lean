import PerfectHash.C.KeyText

/-! # String literals (`B::cstring`)

How C reads a string literal: escape sequences are replaced, an octal one has up to three digits, and
trigraphs are replaced before. What `cstring` prints for a string is read as the string
(`literalValue_cstring`). -/

namespace PerfectHash.C

/-- The value of an octal digit. -/
def octalDigit (c : UInt8) : Option Nat := if 48 ≤ c ∧ c < 56 then some (c.toNat - 48) else none

/-- Up to `n` more octal digits behind the value `x`: the value and the rest. -/
def octalDigits : Nat → Nat → Bytes → Nat × Bytes
  | n + 1, x, c :: s =>
    match octalDigit c with
    | some d => octalDigits n (8 * x + d) s
    | none => (x, c :: s)
  | _, x, s => (x, s)

/-- The byte of an escape sequence behind its backslash, and the rest. Hexadecimal sequences are left
out. -/
def escapeValue : Bytes → Option (UInt8 × Bytes)
  | [] => none
  | e :: s =>
    match simpleEscape e with
    | some c => some (c, s)
    | none => do
      let (x, s) := octalDigits 2 (← octalDigit e) s
      if x < 256 then return (UInt8.ofNat x, s) else none

/-- The question marks of a trigraph are followed by one of these. -/
def trigraphs : Bytes := [61, 47, 39, 40, 41, 33, 60, 62, 45]

/-- The bytes behind a question mark make it the first one of a trigraph. -/
def IsTrigraph (s : Bytes) : Prop := s.head? = some 63 ∧ ∃ t ∈ trigraphs, s[1]? = some t

instance (s : Bytes) : Decidable (IsTrigraph s) := inferInstanceAs (Decidable (_ ∧ _))

/-- The bytes that the text of a literal stands for, up to the quote at its end. The trigraph of a
backslash and the others are left out. -/
def literalBody : Nat → Bytes → Option Bytes
  | 0, _ => none
  | _ + 1, [] => none
  | turns + 1, c :: s =>
    if c = 34 then if s = [] then some [] else none
    else if c = 10 then none
    else if c = 63 ∧ IsTrigraph s then none
    else if c = 92 then do
      let (c, s) ← escapeValue s
      return c :: (← literalBody turns s)
    else return c :: (← literalBody turns s)

/-- The value of a string literal, without the NUL at its end. -/
def literalValue : Bytes → Option Bytes
  | 34 :: s => literalBody s.length s
  | _ => none

variable {c : UInt8} {s rest text : Bytes} {turns : Nat}

/-! ## Escape sequences -/

theorem escapeValue_octal (c : UInt8) (rest : Bytes) :
    escapeValue ((octal c).tail ++ rest) = some (c, rest) := by
  have main : ∀ c : BitVec 8, simpleEscape (48 + UInt8.ofBitVec c / 64) = none ∧
      octalDigit (48 + UInt8.ofBitVec c / 64) = some (c.toNat / 64) ∧
      octalDigit (48 + UInt8.ofBitVec c / 8 % 8) = some (c.toNat / 8 % 8) ∧
      octalDigit (48 + UInt8.ofBitVec c % 8) = some (c.toNat % 8) := by
    decide +kernel
  obtain ⟨hsimple, h0, h1, h2⟩ := main c.toBitVec
  have hsum : 8 * (8 * (c.toBitVec.toNat / 64) + c.toBitVec.toNat / 8 % 8) + c.toBitVec.toNat % 8 =
      c.toBitVec.toNat := by omega
  change escapeValue ((48 + c / 64) :: (48 + c / 8 % 8) :: (48 + c % 8) :: rest) = _
  simp only [escapeValue, hsimple, h0, Option.bind_eq_bind, Option.bind_some, octalDigits, h1, h2,
    hsum]
  rw [if_pos (show c.toBitVec.toNat < 256 from c.toNat_lt)]
  exact congrArg (fun x => some (x, rest)) UInt8.ofNat_toNat

/-- What stands for a byte that is written as an escape sequence. -/
def IsEscape (text : Bytes) (c : UInt8) : Prop :=
  ∃ s, text = 92 :: s ∧ ∀ rest, escapeValue (s ++ rest) = some (c, rest)

theorem isEscape_octal (c : UInt8) : IsEscape (octal c) c := ⟨_, rfl, escapeValue_octal c⟩

theorem isEscape_simple {e : UInt8} (h : simpleEscape e = some c) : IsEscape [92, e] c := by
  refine ⟨[e], rfl, fun rest => ?_⟩
  rw [List.singleton_append, escapeValue, h]

theorem isEscape_cstringControl (c : UInt8) : IsEscape (cstringControl c) c := by
  unfold cstringControl
  split
  · rename_i e he
    obtain ⟨front, rest, hlist, -⟩ := List.lookup_eq_some_iff.mp he
    have hall : ∀ p ∈ ([(10, 110), (13, 114), (9, 116), (7, 97), (8, 98), (12, 102), (11, 118)] :
        List (UInt8 × UInt8)), simpleEscape p.2 = some p.1 := by
      simp only [List.forall_mem_cons]
      exact ⟨rfl, rfl, rfl, rfl, rfl, rfl, rfl, nofun⟩
    exact isEscape_simple (hall (c, e) (by rw [hlist]; simp))
  · exact isEscape_octal c

/-! ## Literals -/

/-- `cstring` writes an escape sequence, or the byte itself where it is printable and no trigraph can
begin. -/
theorem cstringChar_cases (c : UInt8) (s : Bytes) : IsEscape (cstringChar c s) c ∨
    cstringChar c s = [c] ∧ c ≠ 34 ∧ c ≠ 10 ∧ c ≠ 92 ∧
      (c = 63 → s.length < 2 ∨ s.head? ≠ some 63) := by
  unfold cstringChar
  split
  · exact .inl (by subst c; exact isEscape_simple rfl)
  split
  · exact .inl (by subst c; exact isEscape_simple rfl)
  split
  · rename_i hc
    exact .inl (hc.1 ▸ isEscape_octal 63)
  split
  · rename_i hquote hslash hmark hprint
    refine .inr ⟨rfl, hquote, ?_, hslash, fun hc => ?_⟩
    · rintro rfl
      exact absurd hprint.1 (by decide)
    · by_contra h
      push Not at h
      exact hmark ⟨hc, h⟩
  · exact .inl (isEscape_cstringControl c)

/-- The first byte of the text for a string with a question mark in front, or of another text. -/
theorem head?_cstringBody_append (h : s.head? ≠ some 63) :
    (cstringBody s ++ [34]).head? ≠ some 63 := by
  cases s with
  | nil => simp [cstringBody]
  | cons c s =>
    rw [cstringBody]
    rcases cstringChar_cases c s with ⟨t, ht, -⟩ | ⟨hself, -⟩
    · rw [ht]
      simp
    · rw [hself]
      exact h

/-- No trigraph begins with a question mark that is written as itself. -/
theorem not_isTrigraph (h : s.length < 2 ∨ s.head? ≠ some 63) :
    ¬ IsTrigraph (cstringBody s ++ [34]) := by
  rintro ⟨hhead, t, ht, hnext⟩
  have hmark : s.head? = some 63 := by
    by_contra hne
    exact head?_cstringBody_append hne hhead
  have hlen := h.resolve_right (not_not.mpr hmark)
  match s, hlen, hmark with
  | [x], _, hx =>
    obtain rfl : x = 63 := Option.some.inj hx
    obtain rfl : 34 = t := Option.some.inj hnext
    exact absurd ht (by decide)

/-- A byte is read from its text. -/
theorem literalBody_cstringChar (c : UInt8) (s : Bytes) :
    literalBody (turns + 1) (cstringChar c s ++ (cstringBody s ++ [34])) =
      (literalBody turns (cstringBody s ++ [34])).map (c :: ·) := by
  rcases cstringChar_cases c s with ⟨t, ht, hvalue⟩ | ⟨hself, hquote, hnewline, hslash, hmark⟩
  · rw [ht, List.cons_append, literalBody, if_neg (by decide), if_neg (by decide),
      if_neg (fun h => absurd h.1 (by decide)), if_pos rfl, hvalue, Option.bind_eq_bind,
      Option.bind_some, Option.map_eq_bind]
    rfl
  · have htrigraph : ¬ (c = 63 ∧ IsTrigraph (cstringBody s ++ [34])) := fun h =>
      not_isTrigraph (hmark h.1) h.2
    rw [hself, List.singleton_append, literalBody, if_neg hquote, if_neg hnewline,
      if_neg htrigraph, if_neg hslash, Option.map_eq_bind]
    rfl

theorem literalBody_cstringBody (h : s.length < turns) :
    literalBody turns (cstringBody s ++ [34]) = some s := by
  induction s generalizing turns with
  | nil =>
    obtain ⟨turns, rfl⟩ := Nat.exists_eq_succ_of_ne_zero (by omega : turns ≠ 0)
    rfl
  | cons c s ih =>
    rw [List.length_cons] at h
    obtain ⟨turns, rfl⟩ := Nat.exists_eq_succ_of_ne_zero (by omega : turns ≠ 0)
    rw [cstringBody, List.append_assoc, literalBody_cstringChar, ih (by omega)]
    rfl

theorem length_le_cstringBody (s : Bytes) : s.length ≤ (cstringBody s).length := by
  induction s with
  | nil => exact Nat.le_refl _
  | cons c s ih =>
    have hpos : 0 < (cstringChar c s).length := by
      rcases cstringChar_cases c s with ⟨t, ht, -⟩ | ⟨hself, -⟩
      · rw [ht]
        exact Nat.succ_pos _
      · rw [hself]
        exact Nat.succ_pos _
    rw [cstringBody, List.length_append, List.length_cons]
    omega

/-- What `cstring` prints for a string is read as the string. -/
theorem literalValue_cstring (s : Bytes) : literalValue (cstring s) = some s := by
  refine literalBody_cstringBody ?_
  have hlen := length_le_cstringBody s
  change s.length < (cstringBody s ++ [34]).length
  rw [List.length_append, List.length_singleton]
  omega

end PerfectHash.C
