import PerfectHash.Lib.Cells
import Mathlib.Control.Monad.Writer

/-! # Reads of a buffer, with a log

Computations that read bytes and words of a buffer, in the byte order of a machine. They log the
offset of every byte that they read. A read outside of the buffer is undefined, as any other failing
step. -/

namespace Reads

/-- A computation that can be undefined and logs the offsets of the bytes it reads. -/
abbrev Read := WriterT (List Nat) Option

/-- A step that reads nothing. -/
def step {α : Type} (o : Option α) : Read α := WriterT.mk (o.map (·, []))

/-- The order in which the bytes of a word are stored. -/
inductive ByteOrder where
  | little
  | big
  deriving DecidableEq, Repr

/-- The word with the given bytes. -/
def ByteOrder.value : ByteOrder → List UInt8 → Int
  | little, bytes => Cells.value bytes
  | big, bytes => Cells.value bytes.reverse

/-- Read `w` bytes. -/
def bytes (buf : List UInt8) (offset : Int) (w : Nat) : Read (List UInt8) :=
  WriterT.mk (if 0 ≤ offset ∧ offset + w ≤ buf.length then
    some ((buf.drop offset.toNat).take w, List.range' offset.toNat w)
  else none)

/-- Read a word of `w` bytes. -/
def word (order : ByteOrder) (buf : List UInt8) (offset : Int) (w : Nat) : Read Int :=
  order.value <$> bytes buf offset w

/-- Read a byte. -/
def byte (buf : List UInt8) (offset : Int) : Read UInt8 := (·.headD 0) <$> bytes buf offset 1

/-- The computation returns a value and has read the bytes at the offsets of `log`, in this
order. -/
def Returns {α : Type} (x : Read α) (a : α) (log : List Nat) : Prop := x.run = some (a, log)

variable {α β : Type} {x : Read α} {f : α → Read β} {a a' : α} {b : β} {log log' : List Nat}
  {buf : List UInt8} {offset w : Nat} {order : ByteOrder}

/-! ## Words -/

theorem ByteOrder.value_nonneg (order : ByteOrder) (bytes : List UInt8) :
    0 ≤ order.value bytes := by
  cases order <;> exact Cells.value_nonneg _

theorem ByteOrder.value_lt (order : ByteOrder) (bytes : List UInt8) :
    order.value bytes < 256 ^ bytes.length := by
  cases order with
  | little => exact Cells.value_lt bytes
  | big =>
    have hlt := Cells.value_lt bytes.reverse
    rwa [List.length_reverse] at hlt

/-! ## Returning -/

theorem Returns.unique (h : Returns x a log) (h' : Returns x a' log') : a = a' ∧ log = log' :=
  Prod.mk.inj (Option.some.inj (h.symm.trans h'))

theorem returns_pure (a : α) : Returns (pure a) a [] := rfl

theorem returns_step {o : Option α} (h : o = some a) : Returns (step o) a [] := by
  rw [h]
  rfl

theorem returns_step_iff {o : Option α} : Returns (step o) a log ↔ o = some a ∧ log = [] := by
  constructor
  · intro h
    obtain ⟨b, rfl, heq⟩ := Option.map_eq_some_iff.mp h
    obtain ⟨rfl, rfl⟩ := Prod.mk.inj heq
    exact ⟨rfl, rfl⟩
  · rintro ⟨h, rfl⟩
    exact returns_step h

theorem Returns.bind (h : Returns x a log) (h' : Returns (f a) b log') :
    Returns (x >>= f) b (log ++ log') := by
  change x.run.bind (fun p => (f p.1).run.map fun q => (q.1, p.2 ++ q.2)) = _
  rw [h, Option.bind_some, h']
  rfl

theorem Returns.map {g : α → β} (h : Returns x a log) : Returns (g <$> x) (g a) log := by
  change x.run.map (fun p => (g p.1, p.2)) = _
  rw [h]
  rfl

/-- What a sequence of two steps returns. -/
theorem returns_bind_iff : Returns (x >>= f) b log ↔
    ∃ a l l', Returns x a l ∧ Returns (f a) b l' ∧ log = l ++ l' := by
  constructor
  · intro h
    change x.run.bind (fun p => (f p.1).run.map fun q => (q.1, p.2 ++ q.2)) = _ at h
    obtain ⟨⟨a, l⟩, ha, h⟩ := Option.bind_eq_some_iff.mp h
    obtain ⟨⟨b', l'⟩, hb, heq⟩ := Option.map_eq_some_iff.mp h
    obtain ⟨rfl, rfl⟩ := Prod.mk.inj heq
    exact ⟨a, l, l', ha, hb, rfl⟩
  · rintro ⟨a, l, l', ha, hb, rfl⟩
    exact ha.bind hb

/-- A sequence of two steps the first of which reads nothing. -/
theorem returns_step_bind_iff {o : Option α} (h : o = some a) :
    Returns (step o >>= f) b log ↔ Returns (f a) b log := by
  rw [returns_bind_iff]
  constructor
  · rintro ⟨a', l, l', hstep, hf, rfl⟩
    obtain ⟨ha, rfl⟩ := returns_step_iff.mp hstep
    obtain rfl := Option.some.inj (h.symm.trans ha)
    exact hf
  · exact fun hf => ⟨a, [], log, returns_step h, hf, rfl⟩

/-! ## Reading -/

theorem returns_bytes (h : offset + w ≤ buf.length) :
    Returns (bytes buf offset w) ((buf.drop offset).take w) (List.range' offset w) := by
  have hin : (0 : Int) ≤ offset ∧ (offset : Int) + w ≤ buf.length := by omega
  rw [Returns, bytes, WriterT.run_mk, if_pos hin, Int.toNat_natCast]

theorem returns_word (order : ByteOrder) (h : offset + w ≤ buf.length) :
    Returns (word order buf offset w) (order.value ((buf.drop offset).take w))
      (List.range' offset w) :=
  (returns_bytes h).map

theorem returns_byte {c : UInt8} (h : buf[offset]? = some c) :
    Returns (byte buf offset) c [offset] := by
  have hlt := (List.getElem?_eq_some_iff.mp h).1
  have hbytes := (returns_bytes (show offset + 1 ≤ buf.length by omega)).map
    (g := (·.headD 0))
  have hhead : ((buf.drop offset).take 1).headD 0 = c := by
    rw [List.drop_eq_getElem_cons hlt]
    exact (List.getElem?_eq_some_iff.mp h).2
  rw [hhead] at hbytes
  exact hbytes

/-- A byte that is read is in the buffer. -/
theorem Returns.of_byte {offset : Int} {c : UInt8} (h : Returns (byte buf offset) c log) :
    ∃ i : Nat, offset = i ∧ buf[i]? = some c ∧ log = [i] := by
  obtain ⟨⟨bs, l⟩, hbytes, heq⟩ := Option.map_eq_some_iff.mp h
  obtain ⟨rfl, rfl⟩ := Prod.mk.inj heq
  rw [bytes, WriterT.run_mk] at hbytes
  split at hbytes
  · rename_i hin
    obtain ⟨rfl, rfl⟩ := Prod.mk.inj (Option.some.inj hbytes)
    have hlt : offset.toNat < buf.length := by omega
    refine ⟨offset.toNat, (Int.toNat_of_nonneg hin.1).symm, ?_, rfl⟩
    rw [List.drop_eq_getElem_cons hlt, List.getElem?_eq_getElem hlt]
    rfl
  · cases hbytes

end Reads
