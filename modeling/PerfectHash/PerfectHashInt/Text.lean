import PerfectHash.Lib.Braces
import PerfectHash.PerfectHashInt.Correctness

/-! # The text of the generated function

The text that `generate_hash_function` puts together. With string keys its braces enclose one block
at its end. With integer keys the brace that closes the loop is there but the loop is not. The name
comes right behind `unsigned`, so the function is called by another name. -/

namespace PerfectHash.PerfectHashInt

open CValues C Braces

variable {mode : Mode} {name : List Char}

/-! ## The appends of `generate_hash_function` -/

/-- `sprintf "%d", $x` -/
def decimal (x : Int) : List Char :=
  if x < 0 then '-' :: Nat.toDigits 10 x.natAbs else Nat.toDigits 10 x.natAbs

def elemtypeName (t : IntType) : String :=
  if t = signedChar then "int8" else if t = short then "int16" else "int32"

/-- The hash elements, eight items per line. -/
def elementsText (hashtab : List Int) : List Char :=
  hashtab.zipIdx.flatMap fun (x, i) =>
    decimal x ++
      if i = hashtab.length - 1 then []
      else ',' :: if i % 8 = 7 then "\n\t\t".toList
        else List.replicate (6 - (decimal x).length) ' '

namespace HashFunction

variable (f : HashFunction)

def signatureText : Mode → List Char
  | .int => "(const int key)\n\x7b\n".toList
  | .string _ =>
    if f.keylen.isSome then "(const void *key)\n\x7b\n".toList
    else "(const void *key, size_t keylen)\n\x7b\n".toList

def tableText : List Char :=
  "\tstatic const ".toList ++ (elemtypeName f.elemtype).toList ++ " h[".toList ++
    decimal f.h.length ++ "] = \x7b\n\t\t".toList ++ elementsText f.h ++
    (if f.h.length % 8 ≠ 0 then "\n".toList else []) ++ "\t\x7d;\n\n".toList

def declarationsText : Mode → List Char
  | .int => []
  | .string _ =>
    "\tconst unsigned char *k = (const unsigned char *) key;\n".toList ++
      match f.keylen with
      | some n => "\tsize_t\t\tkeylen = ".toList ++ decimal n ++ ";\n".toList
      | none => []

def seedsText : List Char :=
  "\tunsigned\t\ta = ".toList ++ decimal f.seed1 ++ ";\n".toList ++
    "\tunsigned\t\tb = ".toList ++ decimal f.seed2 ++ ";\n\n".toList

def stepsText : Mode → List Char
  | .int =>
    "\ta = a * ".toList ++ decimal f.mult1 ++ " + key;\n".toList ++
      "\tb = b * ".toList ++ decimal f.mult2 ++ " + key;\n".toList
  | .string caseFold =>
    "\twhile (keylen--)\n\t\x7b\n".toList ++ "\t\tunsigned char c = *k++".toList ++
      (if caseFold then " | 0x20".toList else []) ++ ";\n\n".toList ++
      "\t\ta = a * ".toList ++ decimal f.mult1 ++ " + c;\n".toList ++
      "\t\tb = b * ".toList ++ decimal f.mult2 ++ " + c;\n".toList

def returnText : List Char :=
  "\treturn h[a % ".toList ++ decimal f.h.length ++ "] + h[b % ".toList ++ decimal f.h.length ++
    "];\n".toList

/-- The definition of the function `funcname`. -/
def text (mode : Mode) (funcname : List Char) : List Char :=
  "unsigned".toList ++ funcname ++ signatureText f mode ++ f.tableText ++ declarationsText f mode ++
    f.seedsText ++ stepsText f mode ++ "\t\x7d\n".toList ++ f.returnText ++ "\x7d\n".toList

end HashFunction

/-- What `generate_hash_function` returns. -/
def generateText (mode : Mode) (keys : List mode.Key) (funcname : List Char)
    (fixedKeyLength : Option Nat) : Run (List Char) := do
  let f ← generateHashFunction mode keys fixedKeyLength
  return f.text mode funcname

/-! ## A function definition -/

def isIdentChar (c : Char) : Bool := c.isAlphanum || c = '_'

/-- The text can be the name of a C function. -/
def IsIdentifier (name : List Char) : Prop :=
  name ≠ [] ∧ (∀ c ∈ name, isIdentChar c) ∧ ∀ c ∈ name.head?, ¬ c.isDigit

instance (name : List Char) : Decidable (IsIdentifier name) :=
  decidable_of_iff (name ≠ [] ∧ name.all isIdentChar ∧ name.head?.all fun c => !c.isDigit)
    (by cases name <;> simp [IsIdentifier])

/-- The name of the function that a text defines: the identifier before the first parenthesis. -/
def functionName (text : List Char) : List Char :=
  (((text.takeWhile (· ≠ '(')).reverse.dropWhile Char.isWhitespace).takeWhile isIdentChar).reverse

/-- The braces of the text are those of one block at its end, and it returns from inside. -/
def ReturnsFromBlock (text : List Char) : Prop :=
  ∃ head body, OneBlock head body text ∧ "return ".toList <:+: body

/-- The text is the definition of a function. -/
structure IsDefinition (name text : List Char) : Prop where
  name : functionName text = name
  block : ReturnsFromBlock text

/-! ## Braces of the appended texts -/

theorem isDigit_decimal {x : Int} {c : Char} (hc : c ∈ decimal x) : c = '-' ∨ c.isDigit := by
  unfold decimal at hc
  split at hc
  · rcases List.mem_cons.mp hc with rfl | hc
    · exact .inl rfl
    · exact .inr (Nat.isDigit_of_mem_toDigits (by decide) (by decide) hc)
  · exact .inr (Nat.isDigit_of_mem_toDigits (by decide) (by decide) hc)

@[simp] theorem free_decimal (x : Int) : Free (decimal x) := by
  intro c hc
  rcases isDigit_decimal hc with rfl | hc
  · decide
  · refine ⟨fun h => ?_, fun h => ?_⟩ <;> rw [h] at hc <;> cases hc

theorem free_elementsText (hashtab : List Int) : Free (elementsText hashtab) := by
  intro c hc
  obtain ⟨⟨x, i⟩, -, hc⟩ := List.mem_flatMap.mp hc
  have hpiece : Free (decimal x ++
      if i = hashtab.length - 1 then []
      else ',' :: if i % 8 = 7 then "\n\t\t".toList
        else List.replicate (6 - (decimal x).length) ' ') := by
    refine (free_decimal x).append ?_
    split
    · exact free_nil
    · rw [free_cons]
      refine ⟨by decide, ?_⟩
      split
      · decide
      · intro c hc
        rw [List.eq_of_mem_replicate hc]
        decide
  exact hpiece c hc

theorem free_elemtypeName (t : IntType) : Free (elemtypeName t).toList := by
  unfold elemtypeName
  split
  · decide
  · split <;> decide

theorem IsIdentifier.free (h : IsIdentifier name) : Free name := by
  intro c hc
  have hident := h.2.1 c hc
  refine ⟨fun heq => ?_, fun heq => ?_⟩ <;> rw [heq] at hident <;> cases hident

namespace HashFunction

variable (f : HashFunction)

theorem balanced_tableText : Balanced f.tableText := by
  have hfront : Free ("\tstatic const ".toList ++ (elemtypeName f.elemtype).toList ++
      " h[".toList ++ decimal f.h.length) := by
    simp only [free_append, free_elemtypeName, free_decimal, and_true]
    decide
  have hopened : Opened "] = ".toList "\n\t\t".toList "] = \x7b\n\t\t".toList :=
    ⟨by decide, Free.balanced (by decide), Free.balanced (by decide)⟩
  have hclose : "\t\x7d;\n\n".toList = "\t".toList ++ '}' :: ";\n\n".toList := by decide
  have hend : Free (if f.h.length % 8 ≠ 0 then "\n".toList else []) := by split <;> decide
  unfold tableText
  rw [hclose]
  exact (((hfront.balanced.opened hopened).append (free_elementsText f.h).balanced).append
    hend.balanced).close (Free.balanced (by decide)) (Free.balanced (by decide))

theorem free_declarationsText (mode : Mode) : Free (declarationsText f mode) := by
  cases mode with
  | int => exact free_nil
  | string caseFold =>
    refine Free.append (by decide) ?_
    split
    · simp only [free_append, free_decimal]
      decide
    · exact free_nil

theorem free_seedsText : Free f.seedsText := by
  unfold seedsText
  simp only [free_append, free_decimal]
  decide

theorem free_returnText : Free f.returnText := by
  unfold returnText
  simp only [free_append, free_decimal]
  decide

/-- With integer keys no brace is opened before the one that closes the loop. -/
theorem free_stepsText_int : Free (stepsText f .int) := by
  unfold stepsText
  simp only [free_append, free_decimal]
  decide

theorem balanced_stepsText_string (caseFold : Bool) :
    Balanced (stepsText f (.string caseFold) ++ "\t\x7d\n".toList) := by
  have hopened : Opened "\twhile (keylen--)\n\t".toList "\n".toList
      "\twhile (keylen--)\n\t\x7b\n".toList :=
    ⟨by decide, Free.balanced (by decide), Free.balanced (by decide)⟩
  have hclose : "\t\x7d\n".toList = "\t".toList ++ '}' :: "\n".toList := by decide
  have hbody : Free ("\t\tunsigned char c = *k++".toList ++
      ((if caseFold then " | 0x20".toList else []) ++ (";\n\n".toList ++
      ("\t\ta = a * ".toList ++ (decimal f.mult1 ++ (" + c;\n".toList ++
      ("\t\tb = b * ".toList ++ (decimal f.mult2 ++ " + c;\n".toList)))))))) := by
    have hfold : Free (if caseFold then " | 0x20".toList else []) := by split <;> decide
    simp only [free_append, hfold, free_decimal, true_and]
    decide
  have hsteps : Balanced (_ ++ ("\t".toList ++ '}' :: "\n".toList)) :=
    (hopened.append hbody.balanced).close (Free.balanced (by decide)) (Free.balanced (by decide))
  unfold stepsText
  rw [hclose]
  simp only [List.append_assoc] at hsteps ⊢
  exact hsteps

/-- The signature opens the block of the function. -/
theorem opened_signatureText (mode : Mode) :
    ∃ head body, Opened ('(' :: head) body (signatureText f mode) ∧ Free ('(' :: head) := by
  have opened (head s : List Char) (hs : s = '(' :: head ++ '{' :: "\n".toList)
      (hhead : Free ('(' :: head)) :
      ∃ head body, Opened ('(' :: head) body s ∧ Free ('(' :: head) :=
    ⟨head, "\n".toList, ⟨hs, hhead.balanced, Free.balanced (by decide)⟩, hhead⟩
  cases mode with
  | int =>
    rw [show signatureText f .int = "(const int key)\n\x7b\n".toList from rfl]
    exact opened "const int key)\n".toList _ (by decide) (by decide)
  | string caseFold =>
    by_cases hfixed : f.keylen.isSome
    · rw [show signatureText f (.string caseFold) = "(const void *key)\n\x7b\n".toList from
        if_pos hfixed]
      exact opened "const void *key)\n".toList _ (by decide) (by decide)
    · rw [show signatureText f (.string caseFold) =
        "(const void *key, size_t keylen)\n\x7b\n".toList from if_neg hfixed]
      exact opened "const void *key, size_t keylen)\n".toList _ (by decide) (by decide)

/-- With string keys the function returns from inside its block. -/
theorem returnsFromBlock_string (hname : IsIdentifier name) (caseFold : Bool) :
    ReturnsFromBlock (f.text (.string caseFold) name) := by
  obtain ⟨head, body, hopened, hhead⟩ := opened_signatureText f (.string caseFold)
  have hfront : Free ("unsigned".toList ++ name) := Free.append (by decide) hname.free
  have hreturn : "return ".toList <:+: f.returnText := by
    have hsplit : "\treturn h[a % ".toList =
        "\t".toList ++ "return ".toList ++ "h[a % ".toList := by decide
    unfold returnText
    rw [hsplit]
    simp only [List.append_assoc]
    exact ⟨"\t".toList, _, by rw [List.append_assoc]⟩
  have hblock := (((((hfront.balanced.opened hopened).append f.balanced_tableText).append
    (f.free_declarationsText (.string caseFold)).balanced).append f.free_seedsText.balanced).append₂
      (f.balanced_stepsText_string caseFold)).append f.free_returnText.balanced
  have hend : "\x7d\n".toList = '}' :: "\n".toList := by decide
  unfold text
  rw [hend]
  exact ⟨_, _, hblock.oneBlock (hfront.append hhead) (List.all_eq_true.mp (by decide)),
    hreturn.trans (List.suffix_append _ _).isInfix⟩

/-- With integer keys the brace that closes the loop closes the block of the function. -/
theorem not_returnsFromBlock_int (hname : IsIdentifier name) :
    ¬ ReturnsFromBlock (f.text .int name) := by
  obtain ⟨head, body, hopened, -⟩ := opened_signatureText f .int
  have hfront : Free ("unsigned".toList ++ name) := Free.append (by decide) hname.free
  have hclosed := (((((hfront.balanced.opened hopened).append f.balanced_tableText).append
    (f.free_declarationsText .int).balanced).append f.free_seedsText.balanced).append
      f.free_stepsText_int.balanced).close (t := "\t".toList) (Free.balanced (by decide))
        (Free.balanced (s := "\n".toList) (by decide))
  have hloop : "\t\x7d\n".toList = "\t".toList ++ '}' :: "\n".toList := by decide
  have hend : "\x7d\n".toList = '}' :: "\n".toList := by decide
  unfold text
  rw [hloop, hend]
  rintro ⟨head, body, hblock, -⟩
  exact (hclosed.append f.free_returnText.balanced).not_oneBlock (Free.balanced (by decide)) hblock

theorem returnsFromBlock_iff (hname : IsIdentifier name) :
    ReturnsFromBlock (f.text mode name) ↔ ∃ caseFold, mode = .string caseFold := by
  constructor
  · intro h
    cases mode with
    | int => exact absurd h (f.not_returnsFromBlock_int hname)
    | string caseFold => exact ⟨caseFold, rfl⟩
  · rintro ⟨caseFold, rfl⟩
    exact f.returnsFromBlock_string hname caseFold

end HashFunction

/-! ## The name -/

theorem functionName_append {word rest : List Char} (h : ∀ c ∈ word, isIdentChar c) :
    functionName (word ++ '(' :: rest) = word := by
  have hparen : ∀ c ∈ word, decide (c ≠ '(') = true := fun c hc => by
    refine decide_eq_true fun heq => ?_
    have hident := h c hc
    rw [heq] at hident
    cases hident
  have hspace : word.reverse.dropWhile Char.isWhitespace = word.reverse := by
    cases hword : word.reverse with
    | nil => rfl
    | cons c cs =>
      apply List.dropWhile_cons_of_neg
      intro hbad
      have hident := h c (List.mem_reverse.mp (hword ▸ List.mem_cons_self))
      simp only [Char.isWhitespace, Bool.or_eq_true, decide_eq_true_eq] at hbad
      rcases hbad with ((rfl | rfl) | rfl) | rfl <;> cases hident
  unfold functionName
  rw [List.takeWhile_append_of_pos hparen, List.takeWhile_cons_of_neg (by decide), List.append_nil,
    hspace, List.takeWhile_eq_self_iff.mpr fun c hc => h c (List.mem_reverse.mp hc),
    List.reverse_reverse]

/-- The name runs into the word before it. -/
theorem functionName_text (f : HashFunction) (mode : Mode) (hname : IsIdentifier name) :
    functionName (f.text mode name) = "unsigned".toList ++ name := by
  have hword : ∀ c ∈ "unsigned".toList ++ name, isIdentChar c :=
    List.forall_mem_append.mpr ⟨List.all_eq_true.mp (by decide), hname.2.1⟩
  obtain ⟨head, body, hopened, -⟩ := f.opened_signatureText mode
  unfold HashFunction.text
  simp only [hopened.eq, List.append_assoc, List.cons_append]
  rw [← List.append_assoc]
  exact functionName_append hword

theorem not_isDefinition_text (f : HashFunction) (mode : Mode) (hname : IsIdentifier name) :
    ¬ IsDefinition name (f.text mode name) := by
  intro h
  have hlength := congrArg List.length (h.name.symm.trans (functionName_text f mode hname))
  rw [List.length_append] at hlength
  have : "unsigned".toList.length = 8 := by decide
  omega

/-- The returned text never defines a function of the requested name. Its braces are those of one
block at its end exactly if the keys are strings. -/
theorem generateText_isDefinition {mode : Mode} {keys : List mode.Key} {name text : List Char}
    {fixedKeyLength : Option Nat} (hname : IsIdentifier name)
    (h : generateText mode keys name fixedKeyLength = .ok text) :
    ¬ IsDefinition name text ∧ (ReturnsFromBlock text ↔ ∃ caseFold, mode = .string caseFold) := by
  obtain ⟨f, -, h⟩ := bind_eq_ok.mp h
  cases h
  exact ⟨not_isDefinition_text f mode hname, f.returnsFromBlock_iff hname⟩

theorem generateText_isDefinition_two : ∃ text,
    generateText (.string true) [[97], [98]] "f".toList none = .ok text ∧
      ¬ IsDefinition "f".toList text ∧ ReturnsFromBlock text := by
  obtain ⟨text, h⟩ := exists_ok_of_isOk (show (generateText (.string true) [[97], [98]]
    "f".toList none).isOk by decide +kernel)
  have hdefinition := generateText_isDefinition (by decide) h
  exact ⟨text, h, hdefinition.1, hdefinition.2.mpr ⟨true, rfl⟩⟩

/-- With integer keys neither the name nor the braces are right. -/
theorem exists_not_isDefinition : ∃ text,
    generateText .int [3, 4] "f".toList none = .ok text ∧
      functionName text ≠ "f".toList ∧ ¬ ReturnsFromBlock text ∧
      ¬ IsDefinition "f".toList text := by
  obtain ⟨f, h⟩ := exists_ok_of_isOk (show (generateHashFunction .int [3, 4] none).isOk
    by decide +kernel)
  have hname : IsIdentifier "f".toList := by decide
  refine ⟨f.text .int "f".toList, bind_eq_ok.mpr ⟨f, h, rfl⟩, ?_,
    f.not_returnsFromBlock_int hname, not_isDefinition_text f .int hname⟩
  rw [functionName_text f .int hname]
  decide

end PerfectHash.PerfectHashInt
