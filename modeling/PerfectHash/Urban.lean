import PerfectHash.HanovPP
import PerfectHash.C
import PerfectHash.Lib.Cells

/-! # The two-level table packed into one byte string (`Perfect::Hash::Urban`)

`new` builds the tables `@G` and `@V` of `HanovPP`, with a CRC for a hash, and packs both into one
byte string at a width that is chosen from the entries of `@G`. `perfecthash` reads them back. The
string is accessed by `nvecset` and `vec`, which are C code and read as such for x86-64: `HAS_QUAD`
is defined there, `HAVE_QUAD` is not. -/

namespace PerfectHash.Urban

open C

/-! ## The accessors of the byte string -/

/-- An access of memory outside the string is undefined. -/
def inside : Option α → Run α
  | some a => .ok a
  | none => .error .undefined

/-- `vec(G, index, bits)`, where `G` points to offset `base` of the string. -/
def vec (s : Bytes) (base index bits : Nat) : Run Int :=
  if bits = 8 then do
    return signedChar.conv (← inside (Cells.load s (base + index) 1)) % 256
  else if bits = 4 then do
    return signedChar.conv (← inside (Cells.load s (base + index / 2) 1)) % 16
  else if bits = 16 then do
    return short.conv (← inside (Cells.load s (base + 2 * index) 2))
  else if bits = 32 then do
    return int.conv (← inside (Cells.load s (base + 4 * index) 4))
  else if bits = 64 then do
    return long.conv (← inside (Cells.load s (base + 8 * index) 8))
  else .error (.die s!"Unsupported bits {bits}\n")

/-- `nvecset(v, index, bits, value)` -/
def nvecset (s : Bytes) (index bits : Nat) (value : Int) : Run Bytes :=
  if bits = 8 then inside (Cells.store s index (Cells.le 1 value))
  else if bits = 4 then inside (Cells.store s (index / 2) (Cells.le 1 (value % 16)))
  else if bits = 16 then inside (Cells.store s (2 * index) (Cells.le 2 value))
  else if bits = 32 then inside (Cells.store s (4 * index) (Cells.le 4 value))
  else if bits = 64 then inside (Cells.store s (8 * index) (Cells.le 8 value))
  else .ok s

/-! ## Packing -/

/-- One turn of the loop for `$min` and `$max`. -/
def minMaxStep (m : Int × Int) (g : Int) : Int × Int :=
  (if g < m.1 then g else m.1, if g > m.2 then g else m.2)

/-- `$min` and `$max` -/
def minMax (G : List Int) : Int × Int := G.foldl minMaxStep (0, 0)

/-- The bits that an entry of `@G` needs, one more if there are negative ones. -/
def neededBits (G : List Int) : Nat :=
  let (min, max) := minMax G
  let maxindex := if |min| > max then |min| else max
  let bits := (Nat.toDigits 2 maxindex.toNat).length
  if min < 0 then bits + 1 else bits

/-- `for (2,4,8,16,32,64) { next if $bits > $_; $bits = $_; last; }` -/
def roundBits (bits : Nat) : Nat := ([2, 4, 8, 16, 32, 64].find? (bits ≤ ·)).getD bits

/-- Write the entries of an array that are not zero, the first at the given index. -/
def packArray (bits : Nat) : Nat → List Int → Bytes → Run Bytes
  | _, [], s => .ok s
  | i, x :: xs, s =>
    if x = 0 then packArray bits (i + 1) xs s
    else do packArray bits (i + 1) xs (← nvecset s i bits x)

/-- The string of both tables. -/
def pack (bits size : Nat) (t : Tables Int) : Run Bytes := do
  let s := List.replicate (bits * size / 4) 0
  let s ← packArray bits 0 t.G s
  packArray bits size (t.V.map Scalar.number) s

end Urban

/-- The object `[$G, $bits, $options, $keys]`; the keys are left out with `-false-positives`. -/
structure Urban where
  G : Bytes
  bits : Nat
  options : Options
  keys : Option (List Bytes)

namespace Urban

open C

/-- The values of a hashref have to be numbers from `0` to `size`. -/
def checkValues (size : Nat) : Dict Int → Run Unit
  | .hash d =>
    match d.entries.find? fun e => Scalar.number e.2 < 0 ∨ Scalar.number e.2 > size with
    | some (_, v) => .error (.die (s!"invalid dict hashref with value {Scalar.number v}. " ++
        s!"require values as integers in 0..{size}\n"))
    | none => .ok ()
  | _ => .ok ()

section
variable (hash : Bytes → Nat → Nat)

/-- `new $dict, @options`, with a bound on the turns of each seed search. -/
def new (turns : Nat) (dict : Dict Int) (args : List String) : Run Urban := do
  let options := handleOpts args
  let (keys, values) ← dictInit dict
  let size := keys.length
  checkValues size dict
  let t ← HanovPP.tables hash turns keys (HanovPP.valueOf dict keys values)
  let bits := roundBits (neededBits t.G)
  return {
    G := ← pack bits size t
    bits, options
    keys := if options.has "-false-positives" then none else some keys }

/-- The sign of an entry of `G` as read by `vec`. A shift of an `int` by 31 bits or more is
undefined. -/
def fixSign (bits : Nat) (d : Int) : Run Int :=
  if bits = 32 then .ok (if d ≥ 2147483647 then d - 4294967295 else d)
  else if bits ≥ 31 then .error .undefined
  else .ok (if d ≥ 2 ^ (bits - 1) then d - 2 ^ bits else d)

/-- `keys[v]` -/
def storedKey (keys : List Bytes) (v : Int) : Run Bytes :=
  inside (if 0 ≤ v then keys[v.toNat]? else none)

/-- The number that `iv_perfecthash` reads for a key. -/
def ivLookup (ph : Urban) (key : Bytes) : Run Int := do
  let size := 4 * ph.G.length / ph.bits
  let V := size * ph.bits / 8
  if size = 0 then .error .undefined else
    let h := hash key 0 % size
    let d ← fixSign ph.bits (← vec ph.G 0 h ph.bits)
    if d < 0 then vec ph.G V (-d - 1).toNat ph.bits
    else if d = 0 then vec ph.G V h ph.bits
    else vec ph.G V (hash key d.toNat % size) ph.bits

/-- `iv_perfecthash $ph, $key` -/
def ivPerfecthash (ph : Urban) (key : Bytes) : Run Int := do
  let v ← ivLookup hash ph key
  match ph.keys with
  | some keys => return if key = (← storedKey keys v) then v else -1
  | none => return v

/-- `perfecthash $ph, $key` -/
def perfecthash (ph : Urban) (key : Bytes) : Run (Option Int) := do
  let v ← ivPerfecthash hash ph key
  return if v = -1 then none else some v

end

/-- `crc32` of zlib, one bit at a time. -/
def crc32 (key : Bytes) (seed : Nat) : Nat :=
  let turn (crc : BitVec 32) (_ : Nat) : BitVec 32 :=
    if crc.getLsbD 0 then crc >>> 1 ^^^ 0xedb88320 else crc >>> 1
  let crc := key.foldl (fun crc c => (List.range 8).foldl turn (crc ^^^ BitVec.ofNat 32 c.toNat))
    (~~~ BitVec.ofNat 32 seed)
  (~~~ crc).toNat

end PerfectHash.Urban
