import PerfectHash.Dict
import PerfectHash.Lib.SlotTable

/-! # The two-level table (`Perfect::Hash::HanovPP`)

`new` puts the keys into buckets by their hash under seed 0. A bucket of two or more keys gets the
first seed that sends its keys to distinct free slots of `V`; a bucket of one key gets a slot of
the free list, recorded in `G` as a negative number. `perfecthash` follows `G` to the slot of a
key.

The hash function of the class, `$class->hash($key, $seed)`, is a parameter: `HanovPP::hash` is
`fnv` below, `Hanov` and `Urban` use a CRC. The object of `new` does not depend on the debug
output, which is left out. -/

namespace PerfectHash

/-- The tables `@G` and `@V`. -/
structure Tables (α : Type) where
  G : List Int
  V : List (Option α)

/-- The object `[\@G, \@V, $options, $keys]`; the keys are left out with `-false-positives`. -/
structure HanovPP (α : Type) extends Tables α where
  options : Options
  keys : Option (List Bytes)

namespace HanovPP

section
variable (hash : Bytes → Nat → Nat)

/-- `push @{$buckets[ $class->hash($_, 0) % $size ]}, $_ for @$keys` -/
def fillBuckets (size : Nat) (keys : List Bytes) : List (List Bytes) :=
  keys.foldl (fun buckets k => buckets.modify (hash k 0 % size) (· ++ [k]))
    (List.replicate size [])

/-- The local variables of the seed search for one bucket; `slots` is `%slots`. -/
structure Search where
  d : Nat
  item : Nat
  slots : List (Nat × Nat)

section
variable (size : Nat) (V : List (Option α)) (bucket : List Bytes)

/-- One turn of the seed search. A slot that is taken or was met before in this bucket restarts
the search with the next seed. -/
def Search.next (s : Search) : Search :=
  let slot := hash (bucket.getD s.item []) s.d % size
  if (SlotTable.get V slot).isSome ∨ slot ∈ s.slots.map Prod.fst then
    { d := s.d + 1, item := 0, slots := [] }
  else
    { s with item := s.item + 1, slots := (slot, s.item) :: s.slots }

/-- The seed search, for at most the given number of turns. -/
def searchSeed : Nat → Search → Run Search
  | turns, s =>
    if s.item < bucket.length then
      match turns with
      | 0 => .error .running
      | turns + 1 => searchSeed turns (s.next hash size V bucket)
    else .ok s

end

section
variable (dict : Bytes → Option α) (size : Nat) (buckets : List (List Bytes))

/-- The buckets with two or more keys, in the order of `@sorted`. Returns the rest of `@sorted`. -/
def placeBuckets (turns : Nat) : List Nat → Tables α → Run (List Nat × Tables α)
  | [], t => .ok ([], t)
  | b :: sorted, t =>
    let bucket := buckets.getD b []
    if bucket.length ≤ 1 then .ok (b :: sorted, t) else
      match searchSeed hash size t.V bucket turns { d := 1, item := 0, slots := [] } with
      | .error e => .error e
      | .ok s => placeBuckets turns sorted
          { G := t.G.set (hash (bucket.getD 0 []) 0 % size) s.d
            V := SlotTable.fill t.V (s.slots.map fun p => (p.1, dict (bucket.getD p.2 []))) }

/-- The buckets with one key: each takes the last slot of the free list. -/
def placeSingles : List Nat → List Nat → Tables α → Tables α
  | [], _, t => t
  | i :: sorted, freelist, t =>
    match buckets.getD i [] with
    | [] => t
    | k :: _ =>
      let slot := freelist.getLastD 0
      placeSingles sorted freelist.dropLast
        { G := t.G.set (hash k 0 % size) (-(slot : Int) - 1), V := t.V.set slot (dict k) }

end

/-- `@sorted`: the bucket numbers, those of the largest buckets first. -/
def sortBuckets (size : Nat) (buckets : List (List Bytes)) : List Nat :=
  sortDescOn (fun b => (buckets.getD b []).length) (List.range size)

/-- Steps 1 and 2 of `new`: the buckets and the tables `@G` and `@V` of a key list. -/
def tables (turns : Nat) (keys : List Bytes) (dict : Bytes → Option α) : Run (Tables α) :=
  let size := keys.length
  let buckets := fillBuckets hash size keys
  match placeBuckets hash dict size buckets turns (sortBuckets size buckets)
      { G := List.replicate size 0, V := List.replicate size none } with
  | .error e => .error e
  | .ok (sorted, t) => .ok (placeSingles hash dict size buckets sorted (SlotTable.freelist t.V) t)

/-- `map { $keys->[$_] => $_ } 0..$last` -/
def indexHash [Scalar α] (keys : List Bytes) : Bytes → Option α :=
  hashOfList (keys.zipIdx.map fun p => (p.1, some (Scalar.ofInt p.2)))

/-- What `$dict` stands for while the tables are built: a hashref itself, else the hash that maps
each key to its value or, when there are no values, to its index. -/
def valueOf [Scalar α] (dict : Dict α) (keys : List Bytes) (values : List (Option α)) :
    Bytes → Option α :=
  match dict with
  | .hash d => d.get
  | _ =>
    if values ≠ [] then hashOfList (keys.zip values) else indexHash keys

/-- `new $dict, @options`, with a bound on the turns of each seed search. -/
def new [Scalar α] (turns : Nat) (dict : Dict α) (args : List String) : Run (HanovPP α) := do
  let options := handleOpts args
  let (keys, values) ← dictInit dict
  let t ← tables hash turns keys (valueOf dict keys values)
  return { t with
    options := options
    keys := if options.has "-false-positives" then none else some keys }

/-- The element of `V` that `G` leads a key to. -/
def lookup (t : Tables α) (key : Bytes) : Run (Option α) := do
  let size := t.G.length
  let h ← modulo (hash key 0) size
  let d := t.G.getD h 0
  if d < 0 then return elem t.V (-d - 1)
  else if d = 0 then return elem t.V h
  else return elem t.V (← modulo (hash key d.toNat) size)

/-- `perfecthash $ph, $key` -/
def perfecthash [Scalar α] (ph : HanovPP α) (key : Bytes) : Run (Option α) := do
  let v ← lookup hash ph.toTables key
  match ph.keys with
  | some keys => return if keyAt keys (Scalar.number v) = key then v else none
  | none => return v

end

/-- The FNV prime, also the seed that stands for seed 0. -/
def fnvPrime : Nat := 0x01000193

/-- `hash $ph, $string, $seed`: FNV-1 in the 64-bit wraparound of `use integer`, cut to 32 bits at
the end. -/
def fnv (key : Bytes) (seed : Nat) : Nat :=
  let d := BitVec.ofNat 64 (if seed = 0 then fnvPrime else seed)
  let d := key.foldl (fun d c => d * BitVec.ofNat 64 fnvPrime ^^^ BitVec.ofNat 64 c.toNat) d
  (d &&& 0xffffffff).toNat

end HanovPP
end PerfectHash
