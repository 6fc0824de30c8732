import PerfectHash.Pearson.Lookup
import PerfectHash.HanovPP.SaveC
import PerfectHash.C.Stringpool
import Mathlib.Data.Int.Bitwise

/-! # The generated C lookup of the Pearson hashes (`save_c`)

`saveC` is what `save_c` writes: the table `@H`, the collision lists in the arrays `Ck`, `Cv` and
`Cs`, and the keys in an array or, with `-pic`, in a pool. `lookup` runs the generated function on a
buffer. A lookup that returns does the same on every longer buffer (`lookup_append`). -/

namespace PerfectHash.Pearson

open CValues C
open HanovPP (at? at?_natCast)

/-- The arrays `Ck`, `Cv` and `Cs`, which have an element for each slot; a pointer can be null. -/
structure CollisionArrays where
  Ck : List (Option (List Bytes))
  Cv : List (Option (List Int))
  ctype : IntType
  Cs : List Nat

/-- The array `keys`: of strings, or of the offsets in a pool. -/
inductive KeyTable where
  | strings (keys : List Bytes)
  | pool (contents : Bytes) (keys : List Nat)

/-- The offsets, where there are any. -/
def KeyTable.offsets : KeyTable → List Nat
  | strings _ => []
  | pool _ keys => keys

/-- The parts of the generated C file that depend on the object. -/
structure CFile where
  nul : Bool
  /-- `% $hsize` is printed in the loop of the hash -/
  modulo : Bool
  size : Nat
  hsize : Nat
  htype : IntType
  base : List Nat
  collisions : Option CollisionArrays
  keys : Option KeyTable

/-- `scalar(@$coll)`, of a list that can be missing -/
def count : Option (Colliding Int) → Nat
  | some (.pairs l) => l.length
  | some (.value _) => 1
  | none => 0

/-- `Ck_$i` -/
def collKeys : Option (Colliding Int) → Option (List Bytes)
  | some (.pairs l) => some (saveCArray (l.map Prod.fst)).flatten
  | _ => none

/-- `Cv_$i` -/
def collValues : Option (Colliding Int) → Option (List Int)
  | some (.pairs l) => some (saveCArray (l.map fun p => Scalar.number p.2)).flatten
  | some (.value v) => some v.toList
  | none => none

/-- One turn of the loop for `$maxcoll`. -/
def maxcollStep (maxcoll : Nat) (coll : Option (Colliding Int)) : Nat :=
  if count coll > 1 then if maxcoll < count coll then count coll else maxcoll else maxcoll

/-- `$maxcoll`, the length of the longest list of pairs -/
def maxcoll (C : List (Option (Colliding Int))) : Nat := C.foldl maxcollStep 0

/-- `save_c` -/
def saveC (variant : Variant) (ph : Pearson Int) : CFile :=
  let C := ph.C.getD []
  let keys := ph.keys.getD []
  { nul := ph.options.has "-nul"
    modulo := variant matches .pearson
    size := ph.size
    hsize := ph.H.length
    htype := uCsize ph.H.length
    base := (saveCArray ph.H).flatten
    collisions :=
      if C.any (count · > 1) then some {
        Ck := C.map collKeys
        Cv := C.map collValues
        ctype := uCsize (maxcoll C)
        Cs := C.map count }
      else none
    keys :=
      if ph.options.has "-false-positives" then none
      else if ph.options.has "-pic" then
        some (.pool (poolContents keys) ((List.range keys.length).map (poolOffset keys)))
      else some (.strings (saveCArray keys).flatten) }

/-! ## Running the generated code -/

/-- `x % n` -/
def rem (x : Int) (n : Nat) : Option Int := if n = 0 then none else some (x.tmod n)

/-- `(h ^ c) % hsize`, where `% hsize` can be missing and `h` is cast with `-nul`. -/
def CFile.index (c : CFile) (h : Int) (b : UInt8) : Option Int :=
  let x := Int.xor (if c.nul then c.htype.conv h else h) b.toNat
  if c.modulo then rem x c.hsize else some x

/-- `h = <base>[(h ^ c) % hsize]` -/
def CFile.step (c : CFile) (h : Int) (b : UInt8) : Option Int := do
  let i ← c.index h b
  return long.conv (c.htype.conv (← (at? c.base i).map fun n : Nat => (n : Int)))

/-- `for (c=*su++; c; c=*su++)` -/
def CFile.hashStr (c : CFile) : Int → Bytes → Option Int
  | _, [] => none
  | h, b :: su => if b = 0 then some h else do c.hashStr (← c.step h b) su

/-- `for (i=0; i<l; i++)` with `n` turns left -/
def CFile.hashLen (c : CFile) : Int → Bytes → Nat → Option Int
  | h, _, 0 => some h
  | _, [], _ + 1 => none
  | h, b :: su, n + 1 => do c.hashLen (← c.step h b) su n

/-- The loop of the hash. -/
def CFile.hash (c : CFile) (s : Bytes) (l : Int) : Option Int :=
  if c.nul then c.hashLen 0 s l.toNat else c.hashStr 0 s

/-- The slot in `h` after the loop and `h = h % size`. -/
def CFile.slot (c : CFile) (s : Bytes) (l : Int) : Option Int := do
  let h ← c.hash s l
  if c.hsize ≠ c.size then rem h c.size else return h

/-- `_min(l, strlen(k))` of a literal `k`. The comparison is one of `size_t`. -/
def minLen (l : Int) (k : Bytes) : Option Nat := do
  return min (unsignedLong.conv l).toNat (← strlen (k ++ [0]))

/-- `l+1`, or `1+(_min(l, strlen(ck[i])))` without `-nul` -/
def CFile.sameLen (c : CFile) (l : Int) (k : Bytes) : Option Nat :=
  if c.nul then (int.arith (l + 1)).map fun n => (unsignedLong.conv n).toNat
  else (minLen l k).map (1 + ·)

/-- `!memcmp(ck[i], s, ..)` -/
def CFile.same (c : CFile) (s : Bytes) (l : Int) (k : Bytes) : Option Bool := do
  memcmpEq (k ++ [0]) s (← c.sameLen l k)

/-- The loop over a collision list from index `i`, which is an `int`, with `n` turns left. The value
that is returned from it, if there is one. -/
def CFile.scan (c : CFile) (s : Bytes) (l : Int) (ck : List Bytes) (cv : List Int) :
    Nat → Nat → Option (Option Int)
  | _, 0 => some none
  | i, n + 1 => do
    if ← c.same s l (← ck[i]?) then return some (int.conv (← cv[i]?))
    else c.scan s l ck cv (← int.arith (i + 1)).toNat n

/-- The statements about the collisions of slot `h`: they return a value (`inl`) or go on with
`h` (`inr`). -/
def CFile.collide (c : CFile) (s : Bytes) (l : Int) (h : Int) : Option (Int ⊕ Int) :=
  match c.collisions with
  | none => some (.inr h)
  | some a => do
    let n := a.ctype.conv (← (at? a.Cs h).map fun n : Nat => (n : Int))
    if n > 1 then
      match ← c.scan s l (← (at? a.Ck h).join) (← (at? a.Cv h).join) 0 n.toNat with
      | some v => return .inl v
      | none => return .inr h
    else if n = 1 then return .inr (int.conv (← (← (at? a.Cv h).join)[0]?))
    else return .inr h

/-- `l`, or `_min(l, strlen(keys[h]))` without `-nul` -/
def CFile.checkLen (c : CFile) (l : Int) (k : Bytes) : Option Nat :=
  if c.nul then some (unsignedLong.conv l).toNat else minLen l k

/-- The check of the key and `return h` -/
def CFile.check (c : CFile) (s : Bytes) (l : Int) (h : Int) : Option Int :=
  match c.keys with
  | none => some h
  | some (.strings keys) =>
    if l = 0 then some (-1) else do
      let k ← at? keys h
      if ← memcmpEq (k ++ [0]) s (← c.checkLen l k) then return h else return -1
  | some (.pool contents keys) =>
    if l = 0 then some (-1) else do
      let n ← at? keys h
      let o := int.conv n
      if o < 0 then return h else
        let st := contents.drop o.toNat
        if (← st[0]?) ≠ (← s[0]?) then return -1 else
          let n := (unsignedLong.conv (← int.arith (l - 1))).toNat
          if ← memcmpEq (s.drop 1) (st.drop 1) n then return h else return -1

/-- The body of `<base>_lookup`, once `l` is known. -/
def CFile.run (c : CFile) (s : Bytes) (l : Int) : Option Int := do
  match ← c.collide s l (← c.slot s l) with
  | .inl v => return v
  | .inr h => c.check s l h

/-- `<base>_lookup(s)`, or `<base>_lookup(s, l)` with `-nul`; `l` is an `int`. -/
def CFile.lookup (c : CFile) (s : Bytes) (l : Nat) : Option Int :=
  if c.nul then c.run s (int.conv l) else do c.run s (int.conv (← strlen s))

/-! ## The hash -/

variable {variant : Variant} {ph : Pearson Int} {H : List Nat} {d : Nat}

/-- A table `@H` as the classes have it. -/
structure Table (variant : Variant) (H : List Nat) : Prop where
  lt : ∀ x ∈ H, x < H.length
  ne_nil : H ≠ []
  length_eq : variant ≠ .pearson → H.length = 256

/-- The index that is read in one step of `hash`. -/
def index (H : List Nat) (d : Nat) (b : UInt8) : Nat :=
  if H.length = 256 then d ^^^ b.toNat else (d ^^^ b.toNat) % H.length

theorem index_lt (ht : Table variant H) (hd : d < H.length) (b : UInt8) :
    index H d b < H.length := by
  unfold index
  split
  · rename_i h256
    rw [h256] at hd ⊢
    exact Nat.xor_lt_two_pow (n := 8) hd b.toNat_lt
  · exact Nat.mod_lt _ (List.length_pos_iff.mpr ht.ne_nil)

theorem walk_cons (H : List Nat) (d : Nat) (b : UInt8) (s : Bytes) :
    walk H d (b :: s) = walk H (H.getD (index H d b) 0) s := rfl

theorem getElem?_index (ht : Table variant H) (hd : d < H.length) (b : UInt8) :
    H[index H d b]? = some (H.getD (index H d b) 0) ∧ H.getD (index H d b) 0 < H.length := by
  have hget := getElem?_eq_getD (index_lt ht hd b) 0
  exact ⟨hget, ht.lt _ (List.mem_of_getElem? hget)⟩

/-- The entries of a table are not cut. -/
theorem conv_entry (hle : H.length ≤ 2 ^ 63) {x : Nat} (hx : x < H.length) :
    (uCsize H.length).conv x = x ∧ long.conv x = x :=
  ⟨IntType.conv_of_fits (uCsize_fits (by omega) (by omega) (by omega) (by omega)),
    long_conv_natCast (by omega)⟩

theorem walk_lt (ht : Table variant H) (hd : d < H.length) (s : Bytes) :
    walk H d s < H.length := by
  induction s generalizing d with
  | nil => exact hd
  | cons b s ih => exact ih (getElem?_index ht hd b).2

section
variable (ht : Table variant ph.H) (hle : ph.H.length ≤ 2 ^ 63)
include ht hle

theorem index_saveC (hd : d < ph.H.length) (b : UInt8) :
    (saveC variant ph).index d b = some (index ph.H d b : Int) := by
  have hh :
      (if (saveC variant ph).nul then (saveC variant ph).htype.conv d else (d : Int)) = d := by
    split
    · exact (conv_entry hle hd).1
    · rfl
  have hxor : Int.xor d b.toNat = ((d ^^^ b.toNat : Nat) : Int) := rfl
  have hpos := List.length_pos_iff.mpr ht.ne_nil
  unfold CFile.index
  dsimp only
  rw [hh, hxor]
  split
  · rw [rem, if_neg (show (saveC variant ph).hsize ≠ 0 from hpos.ne')]
    change some (((d ^^^ b.toNat) % ph.H.length : Nat) : Int) = _
    rw [index]
    split
    · rename_i h256
      rw [h256] at hd ⊢
      rw [Nat.mod_eq_of_lt (Nat.xor_lt_two_pow (n := 8) hd b.toNat_lt)]
    · rfl
  · rename_i hmodulo
    rw [index, if_pos (ht.length_eq fun h => hmodulo (by rw [h]; rfl))]

/-- A step of the generated loop is a step of `hash`. -/
theorem step_saveC (hd : d < ph.H.length) (b : UInt8) :
    (saveC variant ph).step d b = some (ph.H.getD (index ph.H d b) 0 : Nat) := by
  obtain ⟨hget, hlt⟩ := getElem?_index ht hd b
  have hat : at? (saveC variant ph).base (index ph.H d b : Int) =
      some (ph.H.getD (index ph.H d b) 0) := by
    change at? (saveCArray ph.H).flatten _ = _
    rw [at?_natCast, flatten_saveCArray, hget]
  unfold CFile.step
  simp only [index_saveC ht hle hd, hat, Option.bind_eq_bind, Option.bind_some, Option.pure_def,
    Option.map_some]
  change some (long.conv ((uCsize ph.H.length).conv _)) = _
  rw [(conv_entry hle hlt).1, (conv_entry hle hlt).2]

/-- The loop up to the NUL. -/
theorem hashStr_saveC (hd : d < ph.H.length) {s : Bytes} (hs : 0 ∉ s) (rest : Bytes) :
    (saveC variant ph).hashStr d (s ++ 0 :: rest) = some (walk ph.H d s : Int) := by
  induction s generalizing d with
  | nil => rfl
  | cons b s ih =>
    obtain ⟨hb, hs⟩ := not_or.mp (mt List.mem_cons.mpr hs)
    rw [List.cons_append, CFile.hashStr, if_neg (Ne.symm hb), step_saveC ht hle hd]
    exact ih (getElem?_index ht hd b).2 hs

/-- The loop over the given length. -/
theorem hashLen_saveC (hd : d < ph.H.length) (s rest : Bytes) :
    (saveC variant ph).hashLen d (s ++ rest) s.length = some (walk ph.H d s : Int) := by
  induction s generalizing d with
  | nil => simp [CFile.hashLen, walk]
  | cons b s ih =>
    rw [List.cons_append, List.length_cons, CFile.hashLen, step_saveC ht hle hd]
    exact ih (getElem?_index ht hd b).2

/-- The generated loop with its casts, and the final `% size`, give the slot of `hash`. -/
theorem slot_saveC (hsize : 0 < ph.size) {s rest : Bytes} {l : Int}
    (h : if ph.options.has "-nul" then l = s.length else 0 ∉ s ∧ rest.head? = some 0) :
    (saveC variant ph).slot (s ++ rest) l = some (slot ph.size ph.H s : Int) := by
  have hpos := List.length_pos_iff.mpr ht.ne_nil
  have hwalk : (saveC variant ph).hash (s ++ rest) l = some (walk ph.H 0 s : Int) := by
    unfold CFile.hash
    change (if ph.options.has "-nul" then _ else _) = _
    split
    · rename_i hnul
      rw [if_pos hnul] at h
      rw [h, Int.toNat_natCast]
      exact hashLen_saveC ht hle hpos s rest
    · rename_i hnul
      rw [if_neg hnul] at h
      obtain ⟨hs, hrest⟩ := h
      obtain ⟨rest, rfl⟩ := List.head?_eq_some_iff.mp hrest
      exact hashStr_saveC ht hle hpos hs rest
  unfold CFile.slot
  rw [hwalk]
  change (if ph.H.length ≠ ph.size then rem _ ph.size else _) = _
  split
  · rw [rem, if_neg hsize.ne']
    rfl
  · rename_i heq
    rw [slot, ← not_not.mp heq, Nat.mod_eq_of_lt (walk_lt ht hpos s)]
    rfl

end

/-! ## Longer buffers -/

section
variable {c : CFile} {s rest : Bytes} {l h : Int}

theorem hashStr_append {x : Int} (hx : c.hashStr h s = some x) (rest : Bytes) :
    c.hashStr h (s ++ rest) = some x := by
  induction s generalizing h with
  | nil => cases hx
  | cons b s ih =>
    rw [List.cons_append]
    unfold CFile.hashStr at hx ⊢
    split at hx
    · rw [if_pos ‹_›, hx]
    · obtain ⟨y, hy, hx⟩ := Option.bind_eq_some_iff.mp hx
      rw [if_neg ‹_›, hy]
      exact ih hx

theorem hashLen_append {n : Nat} {x : Int} (hx : c.hashLen h s n = some x) (rest : Bytes) :
    c.hashLen h (s ++ rest) n = some x := by
  induction n generalizing s h with
  | zero => simpa [CFile.hashLen] using hx
  | succ n ih =>
    cases s with
    | nil => cases hx
    | cons b s =>
      obtain ⟨y, hy, hx⟩ := Option.bind_eq_some_iff.mp hx
      rw [List.cons_append, CFile.hashLen, hy]
      exact ih hx

theorem slot_append {x : Int} (hx : c.slot s l = some x) (rest : Bytes) :
    c.slot (s ++ rest) l = some x := by
  obtain ⟨y, hy, hx⟩ := Option.bind_eq_some_iff.mp hx
  have hhash : c.hash (s ++ rest) l = some y := by
    unfold CFile.hash at hy ⊢
    split at hy
    · rw [if_pos ‹_›, hashLen_append hy]
    · rw [if_neg ‹_›, hashStr_append hy]
  rw [CFile.slot, hhash]
  exact hx

theorem same_append {k : Bytes} {r : Bool} (hr : c.same s l k = some r) (rest : Bytes) :
    c.same (s ++ rest) l k = some r := by
  obtain ⟨n, hn, hr⟩ := Option.bind_eq_some_iff.mp hr
  rw [CFile.same, hn]
  simpa using memcmpEq_mono hr [] rest

/-- One turn of the loop over a collision list. -/
theorem scan_succ {ck : List Bytes} {cv : List Int} {i n : Nat} :
    c.scan s l ck cv i (n + 1) = ck[i]?.bind fun k => (c.same s l k).bind fun b =>
      if b then cv[i]?.bind fun v => some (some (int.conv v))
      else (int.arith (i + 1)).bind fun i => c.scan s l ck cv i.toNat n := rfl

theorem scan_append {ck : List Bytes} {cv : List Int} {i n : Nat} {r : Option Int}
    (hr : c.scan s l ck cv i n = some r) (rest : Bytes) :
    c.scan (s ++ rest) l ck cv i n = some r := by
  induction n generalizing i with
  | zero => exact hr
  | succ n ih =>
    rw [scan_succ] at hr ⊢
    obtain ⟨k, hk, hr⟩ := Option.bind_eq_some_iff.mp hr
    obtain ⟨b, hb, hr⟩ := Option.bind_eq_some_iff.mp hr
    rw [hk, Option.bind_some, same_append hb, Option.bind_some]
    split at hr
    · rwa [if_pos ‹_›]
    · obtain ⟨j, hj, hr⟩ := Option.bind_eq_some_iff.mp hr
      rw [if_neg ‹_›, hj, Option.bind_some, ih hr]

theorem collide_append {r : Int ⊕ Int} (hr : c.collide s l h = some r) (rest : Bytes) :
    c.collide (s ++ rest) l h = some r := by
  unfold CFile.collide at hr ⊢
  split
  · rename_i hnone
    rwa [hnone] at hr
  · rename_i a ha
    rw [ha] at hr
    obtain ⟨n, hn, hr⟩ := Option.bind_eq_some_iff.mp hr
    simp only [hn, Option.bind_eq_bind, Option.bind_some]
    dsimp only at hr
    split at hr
    · rename_i hgt
      rw [if_pos hgt]
      obtain ⟨ck, hck, hr⟩ := Option.bind_eq_some_iff.mp hr
      obtain ⟨cv, hcv, hr⟩ := Option.bind_eq_some_iff.mp hr
      obtain ⟨v, hv, hr⟩ := Option.bind_eq_some_iff.mp hr
      simp only [hck, hcv, Option.bind_some, scan_append hv rest]
      exact hr
    · rw [if_neg ‹_›]
      exact hr

theorem check_strings_eq {keys : List Bytes} (hkeys : c.keys = some (.strings keys)) :
    c.check s l h =
      if l = 0 then some (-1) else (at? keys h).bind fun k => (c.checkLen l k).bind fun n =>
        (memcmpEq (k ++ [0]) s n).bind fun b => if b then some h else some (-1) := by
  rw [CFile.check, hkeys]
  rfl

theorem check_pool_eq {contents : Bytes} {offsets : List Nat}
    (hkeys : c.keys = some (.pool contents offsets)) : c.check s l h =
      if l = 0 then some (-1) else (at? offsets h).bind fun o =>
        if int.conv o < 0 then some h
        else (contents.drop (int.conv o).toNat)[0]?.bind fun a => s[0]?.bind fun b =>
          if a ≠ b then some (-1)
          else (int.arith (l - 1)).bind fun n =>
            (memcmpEq (s.drop 1) ((contents.drop (int.conv o).toNat).drop 1)
              (unsignedLong.conv n).toNat).bind fun b => if b then some h else some (-1) := by
  rw [CFile.check, hkeys]
  rfl

theorem check_append {x : Int} (hx : c.check s l h = some x) (rest : Bytes) :
    c.check (s ++ rest) l h = some x := by
  cases hkeys : c.keys with
  | none =>
    rw [CFile.check, hkeys] at hx ⊢
    exact hx
  | some t =>
    cases t with
    | strings keys =>
      rw [check_strings_eq hkeys] at hx ⊢
      split at hx
      · rwa [if_pos ‹_›]
      · obtain ⟨k, hk, hx⟩ := Option.bind_eq_some_iff.mp hx
        obtain ⟨n, hn, hx⟩ := Option.bind_eq_some_iff.mp hx
        obtain ⟨b, hb, hx⟩ := Option.bind_eq_some_iff.mp hx
        have hb := memcmpEq_mono hb [] rest
        rw [List.append_nil] at hb
        rw [if_neg ‹_›, hk, Option.bind_some, hn, Option.bind_some, hb, Option.bind_some, hx]
    | pool contents offsets =>
      rw [check_pool_eq hkeys] at hx ⊢
      split at hx
      · rwa [if_pos ‹_›]
      · obtain ⟨o, ho, hx⟩ := Option.bind_eq_some_iff.mp hx
        rw [if_neg ‹_›, ho, Option.bind_some]
        split at hx
        · rwa [if_pos ‹_›]
        · obtain ⟨a, ha, hx⟩ := Option.bind_eq_some_iff.mp hx
          obtain ⟨b, hb, hx⟩ := Option.bind_eq_some_iff.mp hx
          have hlt := (List.getElem?_eq_some_iff.mp hb).1
          rw [if_neg ‹_›, ha, Option.bind_some, List.getElem?_append_left hlt, hb,
            Option.bind_some]
          split at hx
          · rwa [if_pos ‹_›]
          · obtain ⟨n, hn, hx⟩ := Option.bind_eq_some_iff.mp hx
            obtain ⟨r, hr, hx⟩ := Option.bind_eq_some_iff.mp hx
            have hr := memcmpEq_mono hr rest []
            rw [List.append_nil, ← List.drop_append_of_le_length hlt] at hr
            rw [if_neg ‹_›, hn, Option.bind_some, hr, Option.bind_some, hx]

theorem run_append {x : Int} (hx : c.run s l = some x) (rest : Bytes) :
    c.run (s ++ rest) l = some x := by
  obtain ⟨h, hh, hx⟩ := Option.bind_eq_some_iff.mp hx
  obtain ⟨r, hr, hx⟩ := Option.bind_eq_some_iff.mp hx
  simp only [CFile.run, slot_append hh rest, collide_append hr rest, Option.bind_eq_bind,
    Option.bind_some]
  cases r with
  | inl v => exact hx
  | inr h => exact check_append hx rest

/-- A lookup that returns does not depend on what follows the buffer. -/
theorem lookup_append {n : Nat} {x : Int} (hx : c.lookup s n = some x) (rest : Bytes) :
    c.lookup (s ++ rest) n = some x := by
  unfold CFile.lookup at hx ⊢
  split at hx
  · rw [if_pos ‹_›]
    exact run_append hx rest
  · rw [if_neg ‹_›]
    obtain ⟨l, hl, hx⟩ := Option.bind_eq_some_iff.mp hx
    rw [strlen_mono hl]
    exact run_append hx rest

end

end PerfectHash.Pearson
