import PerfectHash.Dict

/-! # The Pearson hashes (`Perfect::Hash::Pearson`, `PearsonNP`, `Pearson8`)

`new` shuffles the table `@H` until no two keys share a slot or it gives up. After giving up,
`collisions` lists the keys of each slot with their values. The three classes share `hash`,
`shuffle`, `cost` and `collisions`; they differ in the size of `@H`, in the number of shuffles and
in `perfecthash`.

The random numbers are a parameter: `draws n i` is the number drawn in step `i` of shuffle `n`,
cut to the range of that step. So is the clock: `inTime n` says that the time limit has not passed
after shuffle `n`. The search keeps the best table in `$best`, which is a reference to the one
object it keeps shuffling; it is left out, and so is the debug output. -/

namespace PerfectHash

/-- The lists of `@$C`, told apart by their length: the value of the one key of a slot, or the
pairs of its two or more keys. -/
inductive Colliding (α : Type) where
  | value (v : Option α)
  | pairs (l : List (Bytes × Option α))

/-- The object `[$size, $H, $C, $options, $keys]`. The objects of `Pearson8` have no `$C`. -/
structure Pearson (α : Type) where
  size : Nat
  H : List Nat
  C : Option (List (Option (Colliding α)))
  options : Options
  keys : Option (List Bytes)

namespace Pearson

/-- A scalar in an array: an integer or a reference to an array of integers. -/
inductive Slot where
  | int (n : Nat)
  | aref (a : List Nat)

/-- The head of an object, which `hash` reads. -/
def object (size : Nat) (H : List Nat) : List Slot := [.int size, .aref H]

/-- One step of `hash`. -/
def step (H : List Nat) (d : Nat) (c : UInt8) : Run Nat := do
  let i ← if H.length = 256 then .ok (d ^^^ c.toNat) else modulo (d ^^^ c.toNat) H.length
  return H.getD i 0

/-- `hash $ph, $key`; `$ph` can be any array here. -/
def hash (ph : List Slot) (key : Bytes) : Run Nat :=
  match ph with
  | .int size :: .aref H :: _ => do modulo (← key.foldlM (step H) 0) size
  | _ :: .int n :: _ =>
    .error (.die s!"Can't use string (\"{n}\") as an ARRAY ref while \"strict refs\" in use")
  | _ => .error (.die "Can't use an undefined value as an ARRAY reference")

/-- One step of the Knuth shuffle. `rand 0` is `rand 1`. -/
def shuffleStep (draw : Nat → Nat) (H : List Nat) (i : Nat) : List Nat :=
  let last := H.length - 1
  let tmp := H.getD i 0
  let j := i + draw i % max (last - i) 1
  (H.set i (H.getD j 0)).set j tmp

/-- `shuffle` -/
def shuffle (draw : Nat → Nat) (H : List Nat) : List Nat :=
  (List.range H.length).foldl (shuffleStep draw) H

/-- The counters of `cost`: how many keys each slot has, how many keys are not the first of their
slot, and the largest number of keys in a slot. -/
structure Cost where
  N : Nat → Nat
  sum : Nat
  max : Nat

/-- Count one more key in slot `h`. -/
def Cost.count (c : Cost) (h : Nat) : Cost :=
  let n := c.N h + 1
  { N := fun i => if i = h then n else c.N i
    sum := if n > 1 then c.sum + 1 else c.sum
    max := if c.max < n then n else c.max }

/-- `cost` -/
def cost (ph : List Slot) (keys : List Bytes) : Run Cost :=
  keys.foldlM (fun c k => do return c.count (← hash ph k)) { N := fun _ => 0, sum := 0, max := 0 }

section
variable {α : Type} [Scalar α]

/-- How `collisions` stores the pairs of one slot. -/
def gather : List (Bytes × Option α) → Option (Colliding α)
  | [] => none
  | [p] => some (.value p.2)
  | l => some (.pairs l)

/-- What the list of a slot assigns to `$v` for a key, if it assigns anything. -/
def assigned (key : Bytes) : Option (Colliding α) → Option (Option α)
  | some (.pairs l) => (l.find? (·.1 = key)).map Prod.snd
  | some (.value v) => some v
  | none => none

/-- `collisions` -/
def collisions (size : Nat) (H : List Nat) (keys : List Bytes) (values : List (Option α)) :
    Run (List (Option (Colliding α))) := do
  let values :=
    if values ≠ [] then values else (List.range size).map fun i : Nat => some (Scalar.ofInt i)
  let C ← keys.zipIdx.foldlM (fun C (p : Bytes × Nat) => do
    let h ← hash (object size H) p.1
    return C.modify h (· ++ [(p.1, values[p.2]?.join)])) (List.replicate size [])
  return C.map gather

/-- The search of `new`: shuffle at least once and go on while two keys share a slot, the counter
allows it (`remaining` more times) and there is time. Returns the table and its cost. -/
def search (draws : Nat → Nat → Nat) (inTime : Nat → Bool) (size : Nat) (keys : List Bytes)
    (remaining counter : Nat) (H : List Nat) : Run (List Nat × Cost) := do
  let H := shuffle (draws counter) H
  let c ← cost (object size H) keys
  match remaining with
  | 0 => return (H, c)
  | remaining + 1 =>
    if c.max > 1 ∧ inTime (counter + 1) then
      search draws inTime size keys remaining (counter + 1) H
    else return (H, c)

/-- The options with the default of `-max-time`. -/
def withMaxTime (options : Options) : Options :=
  if options.has "-max-time" then options else ("-max-time", some "60") :: options

/-- The common text of `Pearson::new` and `PearsonNP::new`. The size of `@H` and the largest
number of shuffles depend on the number of keys. -/
def build (hsize maxcount : Nat → Nat) (draws : Nat → Nat → Nat) (inTime : Nat → Bool)
    (dict : Dict α) (args : List String) : Run (Pearson α) := do
  let options := withMaxTime (handleOpts args)
  let (keys, values) ← dictInit dict
  let size := keys.length
  let (H, c) ← search draws inTime size keys (maxcount size - 1) 0 (List.range (hsize size))
  let C ← if c.max > 1 then some <$> collisions size H keys values else pure none
  return {
    size, H, C, options
    keys := if options.has "-false-positives" then none else some keys }

/-- `while (2**$i++ < $size) {}` and then `2**($i-1)`, for at most the given number of turns;
`$size` turns are enough. -/
def roundUp (size : Nat) : Nat → Nat → Nat
  | 0, i => 2 ^ i
  | turns + 1, i => if 2 ^ i < size then roundUp size turns (i + 1) else 2 ^ i

/-- `Pearson::new` -/
def new : (Nat → Nat → Nat) → (Nat → Bool) → Dict α → List String → Run (Pearson α) :=
  build (fun size => roundUp size size 8) (fun size => size - 1)

/-- `Pearson::perfecthash` -/
def perfecthash (ph : Pearson α) (key : Bytes) : Run (Option α) := do
  let h ← hash (object ph.size ph.H) key
  let v := (assigned key (ph.C.getD [])[h]?.join).join
  match v, ph.keys with
  | some v, some keys => return if keyAt keys (Scalar.toInt v) = key then some v else none
  | v, _ => return v

end
end Pearson

namespace PearsonNP

open Pearson

variable {α : Type} [Scalar α]

/-- `PearsonNP::new` -/
def new : (Nat → Nat → Nat) → (Nat → Bool) → Dict α → List String → Run (Pearson α) :=
  build (fun _ => 256) (fun _ => 30)

/-- `PearsonNP::perfecthash`. The value starts as the slot of the key. -/
def perfecthash (ph : Pearson α) (key : Bytes) : Run (Option α) := do
  let h ← hash (object ph.size ph.H) key
  let v := (assigned key (ph.C.getD [])[h]?.join).getD (some (Scalar.ofInt h))
  match ph.keys with
  | some keys => return if keyAt keys (Scalar.number v) = key then v else none
  | none => return v

end PearsonNP

namespace Pearson8

open Pearson

variable {α : Type} [Scalar α]

/-- `Pearson8::new`, which returns `undef` when it finds no perfect table. -/
def new (draws : Nat → Nat → Nat) (inTime : Nat → Bool) (dict : Dict α) (args : List String) :
    Run (Option (Pearson α)) := do
  let options := withMaxTime (handleOpts args)
  let (keys, _) ← dictInit dict
  let size := keys.length
  if size > 256 then return none
  let (H, c) ← search draws inTime size keys (3 * (size - 1) - 1) 0 (List.range 256)
  if c.max ≠ 1 then return none
  return some {
    size, H, options
    C := none
    keys := if options.has "-false-positives" then none else some keys }

/-- `Pearson8::perfecthash`. It passes the table where `hash` expects the object. -/
def perfecthash (ph : Pearson α) (key : Bytes) : Run (Option α) := do
  let v ← hash (ph.H.map .int) key
  match ph.keys with
  | some keys => return if keyAt keys v = key then some (Scalar.ofInt v) else none
  | none => return some (Scalar.ofInt v)

end Pearson8
end PerfectHash
