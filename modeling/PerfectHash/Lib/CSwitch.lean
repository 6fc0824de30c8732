import Mathlib.Data.List.Nodup
import Mathlib.Algebra.Order.Ring.Int

/-! # C switch statements

Function bodies of `if (test) return`, `return` and `switch` statements, over any kind of tests and
scrutinees. The labels of a switch stand between the statements of its body: execution enters the
body behind the label that fits, runs on through later labels, and leaves it at a `break`. The
labels of an inner switch are its own. Evaluation is partial: `none` is an undefined operation, or a
switch with two equal labels, which is not a program, or with a label that is no `int` and that C
would convert. -/

namespace CSwitch

/-- A label of a switch. -/
inductive Label where
  | case (n : Int)
  | default
  deriving DecidableEq, Repr

def Label.IsInt : Label → Prop
  | case n => -2 ^ 31 ≤ n ∧ n < 2 ^ 31
  | default => True

instance : DecidablePred Label.IsInt
  | .case n => inferInstanceAs (Decidable (-2 ^ 31 ≤ n ∧ n < 2 ^ 31))
  | .default => inferInstanceAs (Decidable True)

/-- A statement, or a label before one. -/
inductive Stmt (τ ε ρ : Type) where
  | label (l : Label)
  | break
  /-- `if (test) return v;` -/
  | ifReturn (test : τ) (v : ρ)
  /-- `return test ? v : w;` -/
  | returnIf (test : τ) (v w : ρ)
  | return (v : ρ)
  | switch (e : ε) (body : List (Stmt τ ε ρ))

/-- How a statement ends. -/
inductive Outcome (ρ : Type) where
  | next
  | break
  | return (v : ρ)
  deriving DecidableEq, Repr

/-- The values of tests and scrutinees. -/
structure Env (τ ε : Type) where
  test : τ → Option Bool
  value : ε → Option Int

/-- What runs after the statement runs only if execution gets there. -/
def Outcome.andThen : Option (Outcome ρ) → Option (Outcome ρ) → Option (Outcome ρ)
  | some .next, after => after
  | o, _ => o

/-- The end of a switch, whose body ended with the given outcome. -/
def Outcome.leave : Option (Outcome ρ) → Option (Outcome ρ)
  | some .break => some .next
  | o => o

namespace Stmt

variable {τ ε ρ : Type}

def label? : Stmt τ ε ρ → Option Label
  | label l => some l
  | _ => none

/-- The labels of a body. -/
def labels (body : List (Stmt τ ε ρ)) : List Label := body.filterMap label?

/-- The labels of a body are distinct and need no conversion. -/
structure LabelsOk (body : List (Stmt τ ε ρ)) : Prop where
  nodup : (labels body).Nodup
  isInt : ∀ l ∈ labels body, l.IsInt

instance (body : List (Stmt τ ε ρ)) : Decidable (LabelsOk body) :=
  decidable_of_iff ((labels body).Nodup ∧ ∀ l ∈ labels body, l.IsInt)
    ⟨fun h => ⟨h.1, h.2⟩, fun h => ⟨h.nodup, h.isInt⟩⟩

end Stmt

open Stmt Outcome

section
variable {τ ε ρ : Type} (env : Env τ ε)

mutual

/-- Run a statement. -/
def exec : Stmt τ ε ρ → Option (Outcome ρ)
  | .label _ => some .next
  | .break => some .break
  | .ifReturn t v => (env.test t).map fun b => if b then .return v else .next
  | .returnIf t v w => (env.test t).map fun b => .return (if b then v else w)
  | .return v => some (.return v)
  | .switch e body =>
    if LabelsOk body then
      match env.value e with
      | none => none
      | some n =>
        leave (((enter (.case n) body).or (enter .default body)).getD (some .next))
    else none

/-- Run statements one after the other. -/
def execList : List (Stmt τ ε ρ) → Option (Outcome ρ)
  | [] => some .next
  | s :: rest => andThen (exec s) (execList rest)

/-- Run what follows a label of the body, if it is there. -/
def enter (l : Label) : List (Stmt τ ε ρ) → Option (Option (Outcome ρ))
  | [] => none
  | s :: rest => if label? s = some l then some (execList rest) else enter l rest

end

end

variable {τ ε ρ : Type} {env : Env τ ε} {l : Label} {s : Stmt τ ε ρ} {a b body : List (Stmt τ ε ρ)}
  {o p q : Option (Outcome ρ)}

/-! ## Sequences -/

@[simp] theorem andThen_next (p : Option (Outcome ρ)) : andThen (some .next) p = p := rfl

@[simp] theorem andThen_break (p : Option (Outcome ρ)) :
    andThen (some .break) p = some .break := rfl

@[simp] theorem andThen_return (v : ρ) (p : Option (Outcome ρ)) :
    andThen (some (.return v)) p = some (.return v) := rfl

theorem andThen_assoc (o p q : Option (Outcome ρ)) :
    andThen (andThen o p) q = andThen o (andThen p q) := by
  match o with
  | none => rfl
  | some .next => rfl
  | some .break => rfl
  | some (.return _) => rfl

@[simp] theorem execList_nil : execList env ([] : List (Stmt τ ε ρ)) = some .next := by
  rw [execList]

theorem execList_cons (s : Stmt τ ε ρ) (rest : List (Stmt τ ε ρ)) :
    execList env (s :: rest) = andThen (exec env s) (execList env rest) := by
  rw [execList]

@[simp] theorem execList_cons_label (l : Label) (rest : List (Stmt τ ε ρ)) :
    execList env (.label l :: rest) = execList env rest := by
  rw [execList_cons, exec, andThen_next]

theorem execList_append (a b : List (Stmt τ ε ρ)) :
    execList env (a ++ b) = andThen (execList env a) (execList env b) := by
  induction a with
  | nil => simp
  | cons s a ih => rw [List.cons_append, execList_cons, execList_cons, ih, andThen_assoc]

/-! ## Entering a body -/

@[simp] theorem labels_nil : labels ([] : List (Stmt τ ε ρ)) = [] := rfl

@[simp] theorem labels_append (a b : List (Stmt τ ε ρ)) :
    labels (a ++ b) = labels a ++ labels b := List.filterMap_append

@[simp] theorem labels_cons_label (l : Label) (b : List (Stmt τ ε ρ)) :
    labels (.label l :: b) = l :: labels b := rfl

theorem labels_cons_of_none (h : label? s = none) : labels (s :: b) = labels b :=
  List.filterMap_cons_none h

theorem enter_cons_label (l : Label) (b : List (Stmt τ ε ρ)) :
    enter env l (.label l :: b) = some (execList env b) := by
  rw [enter]
  exact if_pos rfl

/-- A label that is not in the first part is looked for in the second. -/
theorem enter_append_of_notMem (h : l ∉ labels a) (b : List (Stmt τ ε ρ)) :
    enter env l (a ++ b) = enter env l b := by
  induction a with
  | nil => rfl
  | cons s a ih =>
    have hs : label? s ≠ some l := fun hs => h (List.mem_filterMap.mpr ⟨s, List.mem_cons_self, hs⟩)
    have ha : l ∉ labels a := fun hl => by
      obtain ⟨s', hs', hl⟩ := List.mem_filterMap.mp hl
      exact h (List.mem_filterMap.mpr ⟨s', List.mem_cons_of_mem _ hs', hl⟩)
    rw [List.cons_append, enter, if_neg hs, ih ha]

/-- Execution that entered the first part runs on into the second. -/
theorem enter_append_of_some (h : enter env l a = some o) :
    enter env l (a ++ b) = some (andThen o (execList env b)) := by
  induction a with
  | nil => simp [enter] at h
  | cons s a ih =>
    rw [enter] at h
    rw [List.cons_append, enter]
    split at h
    · cases h
      rw [if_pos ‹_›, execList_append]
    · rw [if_neg ‹_›, ih h]

theorem enter_eq_none (h : l ∉ labels a) : enter env l a = none := by
  have happend : enter env l (a ++ []) = enter env l [] := enter_append_of_notMem h []
  rwa [List.append_nil, enter] at happend

/-! ## Switches -/

/-- A switch with a label for its number. -/
theorem exec_switch_case {e : ε} {n : Int} (hlabels : LabelsOk body)
    (hvalue : env.value e = some n) (h : enter env (.case n) body = some o) :
    exec env (.switch e body) = leave o := by
  rw [exec, if_pos hlabels, hvalue]
  simp [h]

/-- A switch without a label for its number, but with a default. -/
theorem exec_switch_default {e : ε} {n : Int} (hlabels : LabelsOk body)
    (hvalue : env.value e = some n) (hcase : enter env (.case n) body = none)
    (h : enter env .default body = some o) : exec env (.switch e body) = leave o := by
  rw [exec, if_pos hlabels, hvalue]
  simp [hcase, h]

/-- A switch without any label for its number. -/
theorem exec_switch_none {e : ε} {n : Int} (hlabels : LabelsOk body)
    (hvalue : env.value e = some n) (hcase : enter env (.case n) body = none)
    (hdefault : enter env .default body = none) : exec env (.switch e body) = some .next := by
  rw [exec, if_pos hlabels, hvalue]
  simp [hcase, hdefault, leave]

end CSwitch
