import Mathlib.Data.List.Basic

/-! # The nesting of braces in a text

Texts in which every brace has its partner (`Balanced`), and texts that are one block in braces
behind a head without any (`OneBlock`), such as a C function definition. -/

namespace Braces

def Free (s : List Char) : Prop := ∀ c ∈ s, c ≠ '{' ∧ c ≠ '}'

instance (s : List Char) : Decidable (Free s) :=
  List.decidableBAll (fun c => c ≠ '{' ∧ c ≠ '}') s

/-- Every opened brace is closed, and none is closed that was not opened before. -/
inductive Balanced : List Char → Prop
  | nil : Balanced []
  | char : c ≠ '{' → c ≠ '}' → Balanced s → Balanced (c :: s)
  | block : Balanced s → Balanced t → Balanced ('{' :: s ++ '}' :: t)

/-- One brace is still open. -/
structure Opened (head body s : List Char) : Prop where
  eq : s = head ++ '{' :: body
  head : Balanced head
  body : Balanced body

/-- A head without braces and one block. -/
def OneBlock (head body s : List Char) : Prop :=
  ∃ rest, s = head ++ '{' :: body ++ '}' :: rest ∧ Free head ∧ Balanced body ∧
    ∀ c ∈ rest, c.isWhitespace

variable {s t : List Char}

@[simp] theorem free_nil : Free [] := nofun

@[simp] theorem free_append : Free (s ++ t) ↔ Free s ∧ Free t := List.forall_mem_append

theorem Free.append (hs : Free s) (ht : Free t) : Free (s ++ t) := free_append.mpr ⟨hs, ht⟩

@[simp] theorem free_cons {c : Char} : Free (c :: s) ↔ (c ≠ '{' ∧ c ≠ '}') ∧ Free s :=
  List.forall_mem_cons

theorem Free.balanced (h : Free s) : Balanced s := by
  induction s with
  | nil => exact .nil
  | cons c s ih =>
    obtain ⟨hc, hs⟩ := free_cons.mp h
    exact .char hc.1 hc.2 (ih hs)

theorem Balanced.append (hs : Balanced s) (ht : Balanced t) : Balanced (s ++ t) := by
  induction hs with
  | nil => exact ht
  | char hl hr _ ih => exact .char hl hr ih
  | block hbody _ _ ih =>
    rw [List.append_assoc]
    exact .block hbody ih

theorem Balanced.opened {head body : List Char} (ht : Balanced t) (h : Opened head body s) :
    Opened (t ++ head) body (t ++ s) where
  eq := by rw [h.eq, List.append_assoc]
  head := ht.append h.head
  body := h.body

theorem Opened.append {head body : List Char} (h : Opened head body s) (ht : Balanced t) :
    Opened head (body ++ t) (s ++ t) where
  eq := by rw [h.eq, List.append_assoc, List.cons_append]
  head := h.head
  body := h.body.append ht

theorem Opened.append₂ {head body u : List Char} (h : Opened head body s)
    (ht : Balanced (t ++ u)) : Opened head (body ++ (t ++ u)) (s ++ t ++ u) := by
  rw [List.append_assoc]
  exact h.append ht

theorem Opened.close {head body : List Char} (h : Opened head body s) (ht : Balanced t)
    {rest : List Char} (hrest : Balanced rest) : Balanced (s ++ (t ++ '}' :: rest)) := by
  rw [← List.append_assoc, (h.append ht).eq, List.append_assoc]
  exact h.head.append (.block (h.append ht).body hrest)

theorem Opened.oneBlock {head body : List Char} (h : Opened head body s) (hhead : Free head)
    {rest : List Char} (hrest : ∀ c ∈ rest, c.isWhitespace) :
    OneBlock head body (s ++ '}' :: rest) :=
  ⟨rest, by rw [h.eq], hhead, h.body, hrest⟩

theorem Free.count_eq (h : Free s) : s.count '{' = 0 ∧ s.count '}' = 0 :=
  ⟨List.count_eq_zero.mpr fun hmem => (h _ hmem).1 rfl,
    List.count_eq_zero.mpr fun hmem => (h _ hmem).2 rfl⟩

theorem Balanced.count_eq (h : Balanced s) : s.count '{' = s.count '}' := by
  induction h with
  | nil => rfl
  | char hl hr _ ih => rwa [List.count_cons_of_ne hl, List.count_cons_of_ne hr]
  | block _ _ ihs iht =>
    simp only [List.cons_append, List.count_cons, List.count_append, ihs, iht]
    simp
    omega

/-- A text that is one block has as many opening as closing braces. -/
theorem OneBlock.count_eq {head body : List Char} (h : OneBlock head body s) :
    s.count '{' = s.count '}' := by
  obtain ⟨rest, rfl, hhead, hbody, hrest⟩ := h
  have hfree : Free rest := fun c hc =>
    ⟨fun heq => absurd (hrest c hc) (by rw [heq]; decide),
      fun heq => absurd (hrest c hc) (by rw [heq]; decide)⟩
  have hblock : Balanced ('{' :: body ++ '}' :: rest) := .block hbody hfree.balanced
  rw [List.append_assoc]
  exact (hhead.balanced.append hblock).count_eq

/-- A text that closes a brace after all its braces have their partners is not one block. -/
theorem Balanced.not_oneBlock {head body rest : List Char} (hs : Balanced s)
    (hrest : Balanced rest) : ¬ OneBlock head body (s ++ '}' :: rest) := by
  intro h
  have hcount := h.count_eq
  rw [List.count_append, List.count_append, hs.count_eq, List.count_cons_self,
    List.count_cons_of_ne (by decide), hrest.count_eq] at hcount
  omega

end Braces
