import Mathlib.Data.List.GetD
import Mathlib.Data.List.Induction
import Mathlib.Data.List.Sort

/-! # The Perl and C run-time behaviour the model uses

Byte strings, the ways a run can stop, array elements under Perl subscripts, and the stable
sort. A scalar that may be `undef` is an `Option`. -/

namespace PerfectHash

/-- A byte string. -/
abbrev Bytes := List UInt8

/-- Why a run stops without a result. -/
inductive Stop where
  /-- `die` with its message -/
  | die (message : String)
  /-- an undefined operation of C: a read outside an object, an overflow, a division by zero -/
  | undefined
  /-- a loop without a bound that has not ended after the turns it was given -/
  | running
  deriving DecidableEq, Repr

abbrev Run := Except Stop

theorem exists_ok_of_isOk {x : Run α} (h : x.isOk) : ∃ a, x = .ok a := by
  cases x with
  | error e => cases h
  | ok a => exact ⟨a, rfl⟩

theorem exists_ok_and {x : Run α} {p : α → Prop} [DecidablePred p]
    (h : (x.toOption.map fun a => decide (p a)) = some true) : ∃ a, x = .ok a ∧ p a := by
  cases x with
  | error e => cases h
  | ok a => exact ⟨a, rfl, of_decide_eq_true (Option.some.inj h)⟩

/-- Two steps return if the first one does, and the second one does with its result. -/
theorem bind_eq_ok {x : Run α} {f : α → Run β} {b : β} :
    x >>= f = .ok b ↔ ∃ a, x = .ok a ∧ f a = .ok b := by
  cases x with
  | error e => exact ⟨nofun, nofun⟩
  | ok a => exact ⟨fun h => ⟨a, rfl, h⟩, fun ⟨_, ha, h⟩ => Except.ok.inj ha ▸ h⟩

/-- A loop over the indexes of a list that gets its elements one after the other. -/
theorem mapM_range_eq_pure {m : Type → Type} [Monad m] [LawfulMonad m] {f : Nat → m α} {l : List α}
    (h : ∀ (i : Nat) x, l[i]? = some x → f i = pure x) :
    (List.range l.length).mapM f = pure l := by
  induction l using List.reverseRecOn with
  | nil => rfl
  | append_singleton l x ih =>
    have hfront : (List.range l.length).mapM f = pure l := ih fun i y hi =>
      h i y (by rw [List.getElem?_append_left (List.getElem?_eq_some_iff.mp hi).1, hi])
    have hlast : f l.length = pure x := h _ x List.getElem?_concat_length
    rw [List.length_append, List.length_singleton, List.range_succ, List.mapM_append, hfront,
      List.mapM_cons, hlast]
    simp

/-- `$x % $n`, which dies when `$n` is zero. -/
def modulo (x n : Nat) : Run Nat :=
  if n = 0 then .error (.die "Illegal modulus zero") else .ok (x % n)

theorem modulo_pos (h : 0 < n) : modulo x n = .ok (x % n) := if_neg (by omega)

theorem modulo_error {x n : Nat} {stop : Stop} (h : modulo x n = .error stop) :
    stop = .die "Illegal modulus zero" := by
  unfold modulo at h
  split at h
  · exact (Except.error.inj h).symm
  · cases h

theorem getElem?_eq_getD {l : List α} {i : Nat} (h : i < l.length) (d : α) :
    l[i]? = some (l.getD i d) := by
  rw [List.getD_eq_getElem _ _ h, List.getElem?_eq_getElem h]

section
variable {H : List Nat} {n i x : Nat}

theorem length_of_perm_range (h : H.Perm (List.range n)) : H.length = n :=
  h.length_eq.trans List.length_range

theorem lt_of_perm_range (h : H.Perm (List.range n)) (hx : x ∈ H) : x < n :=
  List.mem_range.mp (h.mem_iff.mp hx)

theorem getD_lt_of_perm_range (h : H.Perm (List.range n)) (hi : i < n) : H.getD i 0 < n := by
  rw [List.getD_eq_getElem _ _ (length_of_perm_range h ▸ hi)]
  exact lt_of_perm_range h (List.getElem_mem _)

end

/-- `$a->[$i]`, with a negative subscript counted from the end and `undef` outside the array. The
subscript is a signed 64-bit number. -/
def elem (a : List (Option α)) (i : Int) : Option α :=
  if 0 ≤ i then a[i.toNat]?.join
  else if -i ≤ a.length then a[(a.length + i).toNat]?.join
  else none

theorem elem_natCast (a : List (Option α)) (i : Nat) : elem a i = a[i]?.join := by
  simp [elem]

/-- The defined scalars of a program. One can be made of an integer, and one can be the subscript
of an array. -/
class Scalar (α : Type) where
  ofInt : Int → α
  toInt : α → Int
  toInt_ofInt : ∀ n, toInt (ofInt n) = n

instance : Scalar Int := ⟨id, id, fun _ => rfl⟩

/-- `undef` counts as `0` where a number is needed. -/
def Scalar.number [Scalar α] (v : Option α) : Int := (v.map Scalar.toInt).getD 0

/-- The subscript that a value stands for. A value that is no index of the `n` elements is converted
to a signed 64-bit number, so `18446744073709551615` stands for the last element. -/
def subscript (n : Nat) (v : Int) : Int := if 0 ≤ v ∧ v < n then v else v.bmod 0x10000000000000000

/-- `$keys->[$v]` as a string. `undef` counts as the empty string where a string is needed. -/
def keyAt (keys : List Bytes) (v : Int) : Bytes :=
  (elem (keys.map some) (subscript keys.length v)).getD []

/-- The key at an index. -/
theorem keyAt_natCast {keys : List Bytes} {i : Nat} {k : Bytes} (h : keys[i]? = some k) :
    keyAt keys i = k := by
  have hlt := (List.getElem?_eq_some_iff.mp h).1
  rw [keyAt, subscript, if_pos ⟨by omega, by omega⟩, elem_natCast, List.getElem?_map, h]
  rfl

/-- A value names one of the keys, or the empty string. -/
theorem keyAt_mem (keys : List Bytes) (v : Int) : keyAt keys v ∈ keys ∨ keyAt keys v = [] := by
  have helem (i : Int) (k : Bytes) (h : elem (keys.map some) i = some k) : k ∈ keys := by
    have hget (j : Nat) (h : (keys.map some)[j]?.join = some k) : k ∈ keys := by
      rw [Option.join_eq_some_iff, List.getElem?_map] at h
      obtain ⟨k', hk', heq⟩ := Option.map_eq_some_iff.mp h
      cases heq
      exact List.mem_of_getElem? hk'
    unfold elem at h
    split at h
    · exact hget _ h
    · split at h
      · exact hget _ h
      · cases h
  unfold keyAt
  cases hk : elem (keys.map some) (subscript keys.length v) with
  | none => exact .inr rfl
  | some k => exact .inl (helem _ k hk)

example : keyAt [[97], [98]] 18446744073709551615 = [98] := by decide

/-- `sort @l`, bytewise. -/
def sortBytes (l : List Bytes) : List Bytes := l.insertionSort (· ≤ ·)

/-- `sort { $f->($a) <=> $f->($b) } @l`, which is stable. -/
def sortOn (f : α → Nat) (l : List α) : List α := l.insertionSort fun a b => f a ≤ f b

/-- `sort { $f->($b) <=> $f->($a) } @l`, which is stable. -/
def sortDescOn (f : α → Nat) (l : List α) : List α := l.insertionSort fun a b => f b ≤ f a

theorem sortBytes_perm (l : List Bytes) : (sortBytes l).Perm l := List.perm_insertionSort _ _

theorem sortOn_perm (f : α → Nat) (l : List α) : (sortOn f l).Perm l :=
  List.perm_insertionSort _ _

theorem sortDescOn_perm (f : α → Nat) (l : List α) : (sortDescOn f l).Perm l :=
  List.perm_insertionSort _ _

theorem sortOn_pairwise (f : α → Nat) (l : List α) :
    (sortOn f l).Pairwise fun a b => f a ≤ f b :=
  have : Std.Total fun a b : α => f a ≤ f b := ⟨fun a b => Nat.le_total (f a) (f b)⟩
  have : IsTrans α fun a b => f a ≤ f b := ⟨fun _ _ _ => Nat.le_trans⟩
  List.pairwise_insertionSort _ _

theorem sortDescOn_pairwise (f : α → Nat) (l : List α) :
    (sortDescOn f l).Pairwise fun a b => f b ≤ f a :=
  have : Std.Total fun a b : α => f b ≤ f a := ⟨fun a b => Nat.le_total (f b) (f a)⟩
  have : IsTrans α fun a b => f b ≤ f a := ⟨fun _ _ _ h h' => Nat.le_trans h' h⟩
  List.pairwise_insertionSort _ _

end PerfectHash
