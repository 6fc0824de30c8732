import PerfectHash.C

/-! # The two-table hash of `PerfectHashInt`

`generate_hash_function` tries parameters for two hash functions until the graph that has an edge
between the two hashes of every key is acyclic. The table `h` is filled along the edges so that
the two entries of key `i` add up to `i`; the generated C function returns that sum.

The options `int_keys` and `case_fold` are a `Mode`, which also tells the type of the keys. The
model of the generated function keeps what it computes with. -/

namespace PerfectHash.PerfectHashInt

open CValues C

/-- `int_keys`, or byte strings with or without `case_fold`. -/
inductive Mode where
  | int
  | string (caseFold : Bool)

/-- The type of the keys. -/
abbrev Mode.Key : Mode → Type
  | .int => Int
  | .string _ => Bytes

/-- The key is a byte string of the given length. An integer has no length to speak of. -/
def Mode.HasLength : (mode : Mode) → mode.Key → Nat → Prop
  | .int, _, _ => True
  | .string _, key, n => key.length = n

/-- `_calc_hash $key, $mult, $seed` -/
def calcHash : (mode : Mode) → mode.Key → Nat → Nat → Nat
  | .int, key, mult, seed => ((seed * mult + key) % 4294967296).toNat
  | .string caseFold, key, mult, seed =>
    key.foldl (fun result c =>
      let cn := c.toNat
      let cn := if caseFold then cn ||| 0x20 else cn
      (result * mult + cn) % 4294967296) seed

/-! ## `_construct_hash_table` -/

/-- `$nverts++` while it is a multiple of a multiplier, for less than the given number of turns. -/
def adjust (mult1 mult2 : Nat) : Nat → Nat → Run Nat
  | 0, _ => .error .running
  | turns + 1, nverts => do
    if (← modulo nverts mult1) = 0 then adjust mult1 mult2 turns (nverts + 1)
    else if (← modulo nverts mult2) = 0 then adjust mult1 mult2 turns (nverts + 1)
    else return nverts

/-- The array `@E` of the edges `left`, `right`. There is none if a key has two equal hashes. -/
def edges (hash1 hash2 : κ → Nat) (nverts : Nat) (keys : List κ) : Option (List (Nat × Nat)) :=
  keys.mapM fun kw =>
    let left := hash1 kw % nverts
    let right := hash2 kw % nverts
    if left = right then none else some (left, right)

section
variable (E : List (Nat × Nat))

/-- The edge numbers of each vertex. -/
def vertices (nverts : Nat) : List (List Nat) :=
  E.zipIdx.foldl (fun V p => (V.modify p.1.1 (·.insert p.2)).modify p.1.2 (·.insert p.2))
    (List.replicate nverts [])

/-- The variables `@V` and `@output_order`. -/
structure Peel where
  V : List (List Nat)
  outputOrder : List Nat

/-- The inner loop: while vertex `v` has one edge, unlink it and go on with the vertex at its other
end. -/
def unlink : Nat → Nat → Peel → Run Peel
  | turns, v, s =>
    match s.V.getD v [] with
    | [e] =>
      match turns with
      | 0 => .error .running
      | turns + 1 =>
        let V := s.V.modify v (·.erase e)
        let v2 := (E.getD e (0, 0)).1
        let v2 := if v2 = v then (E.getD e (0, 0)).2 else v2
        unlink turns v2 { V := V.modify v2 (·.erase e), outputOrder := e :: s.outputOrder }
    | _ => .ok s

/-- The loop over the starting vertices. The inner loop never takes more turns than the vertices
have edges. -/
def peel (nverts : Nat) : Run Peel :=
  (List.range nverts).foldlM (fun s startv => unlink E (2 * E.length) startv s)
    { V := vertices E nverts, outputOrder := [] }

/-- The arrays `@hashtab` and `@visited`. -/
structure Assignment where
  hashtab : List Int
  visited : List Bool

/-- Give the free end of edge `e` the value that makes the sum of its ends `e`, and freeze both. -/
def assignEdge (s : Assignment) (e : Nat) : Run Assignment :=
  let l := (E.getD e (0, 0)).1
  let r := (E.getD e (0, 0)).2
  let visited := (s.visited.set l true).set r true
  if ¬ s.visited.getD l false then
    .ok { hashtab := s.hashtab.set l (e - s.hashtab.getD r 0), visited }
  else if s.visited.getD r false then .error (.die "oops, doubly used hashtab entry")
  else .ok { hashtab := s.hashtab.set r (e - s.hashtab.getD l 0), visited }

end

/-- The type of the entries and the flag for unused ones. -/
def elemType (nedges : Nat) (hashtab : List Int) : Run (IntType × Int) :=
  let hmin := hashtab.foldl (fun hmin x => if x < hmin then x else hmin) (nedges : Int)
  let hmax := hashtab.foldl (fun hmax x => if x > hmax then x else hmax) (0 : Int)
  if hmin ≥ -0x7F ∧ hmax ≤ 0x7F ∧ hmin + 0x7F ≥ nedges then .ok (signedChar, 0x7F)
  else if hmin ≥ -0x7FFF ∧ hmax ≤ 0x7FFF ∧ hmin + 0x7FFF ≥ nedges then .ok (short, 0x7FFF)
  else if hmin ≥ -0x7FFFFFFF ∧ hmax ≤ 0x7FFFFFFF ∧ hmin + 0x3FFFFFFF ≥ nedges then
    .ok (int, 0x3FFFFFFF)
  else .error (.die "hash table values too wide")

/-- `_construct_hash_table`; `none` asks for other parameters. The loop over `$nverts` ends within a
period of the two remainders or not at all. -/
def constructHashTable (mode : Mode) (keys : List mode.Key) (mult1 mult2 seed1 seed2 : Nat) :
    Run (Option (IntType × List Int)) := do
  let nedges := keys.length
  let nverts ← adjust mult1 mult2 ((mult1 + 1) * (mult2 + 1)) (2 * nedges + 1)
  match edges (calcHash mode · mult1 seed1) (calcHash mode · mult2 seed2) nverts keys with
  | none => return none
  | some E => do
    let s ← peel E nverts
    if s.outputOrder.length ≠ nedges then return none
    let a ← s.outputOrder.foldlM (assignEdge E)
      { hashtab := List.replicate nverts 0, visited := List.replicate nverts false }
    let (elemtype, unusedFlag) ← elemType nedges a.hashtab
    return some (elemtype,
      (a.hashtab.zip a.visited).map fun p => if ¬ p.2 then unusedFlag else p.1)

/-! ## `generate_hash_function` -/

/-- What the generated function computes with. `keylen` is the fixed key length. -/
structure HashFunction where
  elemtype : IntType
  h : List Int
  mult1 : Nat
  mult2 : Nat
  seed1 : Nat
  seed2 : Nat
  keylen : Option Nat

/-- The parameters in the order in which they are tried: `seed1`, `seed2`, `mult2`. -/
def params : List (Nat × Nat × Nat) :=
  (List.range 10).flatMap fun seed1 => (List.range 10).flatMap fun seed2 =>
    [17, 31, 127, 8191].map fun mult2 => (seed1, seed2, mult2)

/-- The loop `FIND_PARAMS` over the given parameters. -/
def findParams (mode : Mode) (keys : List mode.Key) (fixedKeyLength : Option Nat) :
    List (Nat × Nat × Nat) → Run HashFunction
  | [] => .error (.die "failed to generate perfect hash")
  | (seed1, seed2, mult2) :: rest => do
    match ← constructHashTable mode keys 257 mult2 seed1 seed2 with
    | some (elemtype, h) =>
      return { elemtype, h, mult1 := 257, mult2, seed1, seed2, keylen := fixedKeyLength }
    | none => findParams mode keys fixedKeyLength rest

/-- `generate_hash_function` -/
def generateHashFunction (mode : Mode) (keys : List mode.Key) (fixedKeyLength : Option Nat) :
    Run HashFunction :=
  findParams mode keys fixedKeyLength params

namespace HashFunction

variable (f : HashFunction)

/-- The loop over the bytes: `n` more turns at the pointer `k`. -/
def loop (caseFold : Bool) : BitVec 32 × BitVec 32 → Bytes → Nat → Option (BitVec 32 × BitVec 32)
  | ab, _, 0 => some ab
  | _, [], _ + 1 => none
  | (a, b), c :: k, n + 1 =>
    let c := if caseFold then c ||| 0x20 else c
    loop caseFold (a * BitVec.ofNat 32 f.mult1 + BitVec.ofNat 32 c.toNat,
      b * BitVec.ofNat 32 f.mult2 + BitVec.ofNat 32 c.toNat) k n

/-- `h[a % N] + h[b % N]` -/
def sum (ab : BitVec 32 × BitVec 32) : Option Int := do
  let h := f.h.map f.elemtype.conv
  if h.length = 0 then none
  let x ← h[ab.1.toNat % h.length]?
  let y ← h[ab.2.toNat % h.length]?
  f.elemtype.promote.arith (x + y)

/-- The generated function, called for a key. It gets an integer by value. It gets a byte string as
a pointer to its bytes, which `rest` follows, and its length, unless the length is fixed. -/
def call : (mode : Mode) → mode.Key → Bytes → Option Int
  | .int, key, _ =>
    f.sum (BitVec.ofNat 32 f.seed1 * BitVec.ofNat 32 f.mult1 + BitVec.ofInt 32 key,
      BitVec.ofNat 32 f.seed2 * BitVec.ofNat 32 f.mult2 + BitVec.ofInt 32 key)
  | .string caseFold, key, rest => do
    f.sum (← f.loop caseFold (BitVec.ofNat 32 f.seed1, BitVec.ofNat 32 f.seed2) (key ++ rest)
      (f.keylen.getD key.length))

end HashFunction
end PerfectHash.PerfectHashInt
