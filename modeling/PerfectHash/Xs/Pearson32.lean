import PerfectHash.Lib.Reads
import PerfectHash.Xs.XsHash

/-! # The hash of `Pearson32` (`Hash.xs`, `save_c`)

`Pearson32` hashes in XS with a table of 256 bytes, the first bytes of the key by words of four and
the rest one by one. `save_c` prints the same loops with other casts. Both read every byte of the
key once. They give the same slot for every key exactly if the table size survives the `int` of
`Hash.xs` as a modulus (`slot32_eq_iff`). -/

namespace PerfectHash.Xs

open CValues C Reads
open HanovPP (at? at?_natCast)
open Pearson (rem)

/-- `hi[j]`, where `hi` views the bytes `h` as words -/
def hi (order : ByteOrder) (h : Bytes) (j : Int) : Option Int :=
  if 0 ≤ j ∧ 4 * j + 4 ≤ h.length then
    some (order.value ((h.drop (4 * j).toNat).take 4))
  else none

/-- `for (i=0; i < len/4; i += 4, s += 4)`, from the value `i` on. The pointer is `i` bytes behind
the start of the buffer `s`. -/
def wordLoop (order : ByteOrder) (h s : Bytes) (len : Int) (i : Nat) (d : Int) :
    Read (Nat × Int) :=
  if i < len.tdiv 4 then do
    let w ← word order s i 4
    let d ← step (hi order h (Int.xor (unsignedInt.conv d) w % 64))
    wordLoop order h s len (i + 4) d
  else return (i, d)
termination_by (len.tdiv 4 - i).toNat

/-- `for (; i < len; i++, s++)` over the bytes that are left, with the index that is read next. -/
def byteLoop (index : Int → UInt8 → Int) (h s : Bytes) (len : Int) (i : Nat) (d : Int) :
    Read Int :=
  if i < len then do
    let c ← byte s i
    let b ← step (at? h (index d c))
    byteLoop index h s len (i + 1) b.toNat
  else return d
termination_by (len - i).toNat

/-- `Pearson32::hash(ph, key)` for the object of a size and a table. -/
def pearson32Hash (order : ByteOrder) (size : Nat) (H : List Nat) (key : Bytes) : Read Int := do
  let size := int.conv size
  let len := int.conv key.length
  if key.length = 0 then return 0
  else
    let h ← step ((List.range 256).mapM fun i : Nat =>
      (svIvx H i).map fun x => UInt8.ofNat (unsignedChar.conv x).toNat)
    let s := key ++ [0]
    let (i, d) ← wordLoop order h s len 0 0
    let d ← byteLoop (fun d c => unsignedChar.conv (Int.xor (d.tmod 256) c.toNat)) h s len i d
    return unsignedLong.conv (← step (longRem d size))

/-- The hash that `save_c` prints for `Pearson32`, with `h = h % $size`, for a table of 256 entries:
then `$htype` is `unsigned char`. -/
def slot32 (order : ByteOrder) (size : Nat) (H : List Nat) (su : Bytes) (l : Int) : Read Int := do
  let htype := uCsize H.length
  let base := (saveCArray H).flatten.map UInt8.ofNat
  let (i, h) ← wordLoop order base su l 0 0
  let h ← byteLoop (fun h c => (Int.xor (htype.conv h) c.toNat).tmod 256) base su l i h
  if H.length ≠ size then step (rem h size) else return h

/-- The slot in the generated function, with `-nul` or without; `l` is an `int`. -/
def cSlot32 (order : ByteOrder) (nul : Bool) (size : Nat) (H : List Nat) (s : Bytes) (l : Nat) :
    Read Int := do
  let l ← step (if nul then some (int.conv l) else (strlen s).map fun n : Nat => int.conv n)
  slot32 order size H s l

/-- A buffer holds a key: as a NUL-terminated string, or any bytes with `-nul`. -/
def Holds (nul : Bool) (key s : Bytes) : Prop :=
  if nul then key <+: s else 0 ∉ key ∧ key ++ [0] <+: s

theorem Holds.exists_append {nul : Bool} {key s : Bytes} (h : Holds nul key s) :
    ∃ rest, s = key ++ rest ∧ (nul ≠ true → strlen s = some key.length) := by
  unfold Holds at h
  split at h
  · rename_i hnul
    obtain ⟨rest, rfl⟩ := h
    exact ⟨rest, rfl, fun hne => absurd hnul hne⟩
  · obtain ⟨h0, rest, rfl⟩ := h
    refine ⟨[0] ++ rest, List.append_assoc .., fun _ => ?_⟩
    rw [List.append_assoc]
    exact strlen_append h0 rest

/-! ## What the loops compute -/

/-- The word `j` of the table. -/
def hiWord (order : ByteOrder) (h : Bytes) (j : Nat) : Nat :=
  (order.value ((h.drop (4 * j)).take 4)).toNat

/-- The index and the state after the word loop over a key. -/
def wordWalk (order : ByteOrder) (h key : Bytes) (i d : Nat) : Nat × Nat :=
  if i < key.length / 4 then
    let w := (order.value ((key.drop i).take 4)).toNat
    wordWalk order h key (i + 4) (hiWord order h ((d ^^^ w) % 64))
  else (i, d)
termination_by key.length / 4 - i

/-- The state after the byte loop over some bytes. -/
def byteWalk (h : Bytes) (d : Nat) (bytes : Bytes) : Nat :=
  bytes.foldl (fun d c => (h.getD (d % 256 ^^^ c.toNat) 0).toNat) d

/-- The state after both loops. -/
def state32 (order : ByteOrder) (h key : Bytes) : Nat :=
  let (i, d) := wordWalk order h key 0 0
  byteWalk h d (key.drop i)

section
variable {order : ByteOrder} {H : List Nat} {h key rest s : Bytes} {c : UInt8} {d i j size : Nat}

theorem hiWord_lt (order : ByteOrder) (hh : h.length = 256) (hj : j < 64) :
    hiWord order h j < 2 ^ 32 := by
  have hlt := order.value_lt ((h.drop (4 * j)).take 4)
  rw [List.length_take, List.length_drop, Nat.min_eq_left (by omega)] at hlt
  have hnonneg := order.value_nonneg ((h.drop (4 * j)).take 4)
  rw [hiWord]
  omega

theorem hi_natCast (hh : h.length = 256) (hj : j < 64) :
    hi order h j = some (hiWord order h j : Int) := by
  have hin : (0 : Int) ≤ j ∧ 4 * (j : Int) + 4 ≤ h.length := by omega
  rw [hi, if_pos hin, hiWord, Int.toNat_of_nonneg (order.value_nonneg _)]
  rfl

/-- The word loop reads the words of the key from `i` on. -/
theorem wordLoop_returns (order : ByteOrder) (hh : h.length = 256) (hle : i ≤ key.length)
    (hd : d < 2 ^ 32) (rest : Bytes) :
    Returns (wordLoop order h (key ++ rest) key.length i d)
        ((wordWalk order h key i d).1, ((wordWalk order h key i d).2 : Int))
        (List.range' i ((wordWalk order h key i d).1 - i)) ∧
      i ≤ (wordWalk order h key i d).1 ∧ (wordWalk order h key i d).1 ≤ key.length ∧
      (wordWalk order h key i d).2 < 2 ^ 32 := by
  induction hn : key.length / 4 - i using Nat.strong_induction_on generalizing i d with
  | _ n ih =>
    have hdiv : (key.length : Int).tdiv 4 = ((key.length / 4 : Nat) : Int) := rfl
    rw [wordLoop, wordWalk, hdiv]
    by_cases hlt : i < key.length / 4
    · have hcast : (i : Int) < ((key.length / 4 : Nat) : Int) := by omega
      rw [if_pos hcast, if_pos hlt]
      dsimp only
      have hword := returns_word order
        (show i + 4 ≤ (key ++ rest).length by rw [List.length_append]; omega)
      rw [List.drop_append_of_le_length hle,
        List.take_append_of_le_length (by rw [List.length_drop]; omega)] at hword
      obtain ⟨w, hw⟩ := Int.eq_ofNat_of_zero_le (order.value_nonneg ((key.drop i).take 4))
      rw [hw] at hword ⊢
      rw [Int.toNat_natCast]
      have hmod : (d ^^^ w) % 64 < 64 := Nat.mod_lt _ (by decide)
      have hindex : Int.xor (unsignedInt.conv d) w % 64 = (((d ^^^ w) % 64 : Nat) : Int) := by
        rw [unsignedInt_conv_natCast hd]
        rfl
      have hentry : hi order h (Int.xor (unsignedInt.conv d) w % 64) =
          some (hiWord order h ((d ^^^ w) % 64) : Int) := by
        rw [hindex, hi_natCast hh hmod]
      obtain ⟨hloop, hge, hle', hlt'⟩ :=
        ih _ (by omega) (show i + 4 ≤ key.length by omega) (hiWord_lt order hh hmod) rfl
      generalize wordWalk order h key (i + 4) (hiWord order h ((d ^^^ w) % 64)) = r at *
      have hlog : List.range' i 4 ++ List.range' (i + 4) (r.1 - (i + 4)) =
          List.range' i (r.1 - i) := by
        rw [List.range'_append_1]
        congr 1
        omega
      rw [← hlog]
      exact ⟨hword.bind ((returns_step hentry).bind hloop), by omega, hle', hlt'⟩
    · have hcast : ¬ (i : Int) < ((key.length / 4 : Nat) : Int) := by omega
      rw [if_neg hcast, if_neg hlt, Nat.sub_self]
      exact ⟨returns_pure _, Nat.le_refl i, hle, hd⟩

/-- The byte loop reads the bytes of the key from `i` on. -/
theorem byteLoop_returns {index : Int → UInt8 → Int} (hh : h.length = 256)
    (hindex : ∀ (d : Nat) (c : UInt8), index d c = ((d % 256 ^^^ c.toNat : Nat) : Int))
    (hle : i ≤ key.length) (rest : Bytes) :
    Returns (byteLoop index h (key ++ rest) key.length i d)
      (byteWalk h d (key.drop i) : Int) (List.range' i (key.length - i)) := by
  induction hn : key.length - i generalizing i d with
  | zero =>
    have hge : ¬ (i : Int) < key.length := by omega
    rw [byteLoop, if_neg hge, List.drop_of_length_le (by omega)]
    exact returns_pure _
  | succ n ih =>
    have hlt : i < key.length := by omega
    have hcast : (i : Int) < key.length := by omega
    have hbyte : (key ++ rest)[i]? = some key[i] := by
      rw [List.getElem?_append_left hlt, List.getElem?_eq_getElem hlt]
    have hxor : d % 256 ^^^ key[i].toNat < h.length := by
      rw [hh]
      exact Nat.xor_lt_two_pow (n := 8) (Nat.mod_lt _ (by decide)) key[i].toNat_lt
    have hentry : at? h (index d key[i]) = some (h.getD (d % 256 ^^^ key[i].toNat) 0) := by
      rw [hindex, at?_natCast, getElem?_eq_getD hxor]
    rw [byteLoop, if_pos hcast, List.drop_eq_getElem_cons hlt]
    exact (returns_byte hbyte).bind ((returns_step hentry).bind (ih (by omega) (by omega)))

/-- Both loops together read every byte of the key once, in order. -/
theorem loops_returns {β : Type} {index : Int → UInt8 → Int} {f : Int → Read β} {b : β}
    (hh : h.length = 256)
    (hindex : ∀ (d : Nat) (c : UInt8), index d c = ((d % 256 ^^^ c.toNat : Nat) : Int))
    (rest : Bytes) (hf : Returns (f (state32 order h key)) b []) :
    Returns (do
        let (i, d) ← wordLoop order h (key ++ rest) key.length 0 0
        let d ← byteLoop index h (key ++ rest) key.length i d
        f d)
      b (List.range key.length) := by
  obtain ⟨hword, -, hle, -⟩ := wordLoop_returns (d := 0) order hh
    (Nat.zero_le key.length) (by decide) rest
  have hbyte := byteLoop_returns (d := (wordWalk order h key 0 0).2) hh hindex hle rest
  have happend := List.range'_append_1 (s := 0) (m := (wordWalk order h key 0 0).1)
    (n := key.length - (wordWalk order h key 0 0).1)
  rw [Nat.zero_add, Nat.add_sub_cancel' hle] at happend
  rw [List.range_eq_range', ← happend, ← List.append_nil (List.range' _ (key.length - _))]
  exact hword.bind (hbyte.bind hf)

theorem byteWalk_lt {n : Nat} (hn : 256 ≤ n) (hd : d < n) (h bytes : Bytes) :
    byteWalk h d bytes < n := by
  induction bytes generalizing d with
  | nil => exact hd
  | cons c bytes ih => exact ih ((UInt8.toNat_lt _).trans_le hn)

theorem state32_lt (hh : h.length = 256) (order : ByteOrder) (key : Bytes) :
    state32 order h key < 2 ^ 32 := by
  have hword := wordLoop_returns (d := 0) order hh (Nat.zero_le key.length) (by decide) []
  exact byteWalk_lt (by decide) hword.2.2.2 h _

/-! ## The hashes -/

theorem xsIndex_eq (d : Nat) (c : UInt8) :
    unsignedChar.conv (Int.xor ((d : Int).tmod 256) c.toNat) =
      ((d % 256 ^^^ c.toNat : Nat) : Int) := by
  have hxor : d % 256 ^^^ c.toNat < 256 :=
    Nat.xor_lt_two_pow (n := 8) (Nat.mod_lt _ (by decide)) c.toNat_lt
  exact unsignedChar_conv_natCast hxor

theorem cIndex_eq (d : Nat) (c : UInt8) :
    (Int.xor ((uCsize 256).conv d) c.toNat).tmod 256 =
      ((d % 256 ^^^ c.toNat : Nat) : Int) := by
  have hxor : d % 256 ^^^ c.toNat < 256 :=
    Nat.xor_lt_two_pow (n := 8) (Nat.mod_lt _ (by decide)) c.toNat_lt
  have hmod : ((d % 256 ^^^ c.toNat) % 256 : Nat) = d % 256 ^^^ c.toNat := Nat.mod_eq_of_lt hxor
  exact congrArg Int.ofNat hmod

section
variable (hH : H.Perm (List.range 256))
include hH

/-- The array `h` holds the entries of the table. -/
theorem mapM_svIvx : ((List.range 256).mapM fun i : Nat =>
      (svIvx H i).map fun x => UInt8.ofNat (unsignedChar.conv x).toNat) =
    some (H.map UInt8.ofNat) := by
  have hlen : (H.map UInt8.ofNat).length = 256 := by
    rw [List.length_map, length_of_perm_range hH]
  rw [← hlen]
  refine mapM_range_eq_pure fun i x hi => ?_
  rw [List.getElem?_map, Option.map_eq_some_iff] at hi
  obtain ⟨n, hn, rfl⟩ := hi
  have hlt := lt_of_perm_range hH (List.mem_of_getElem? hn)
  rw [svIvx, at?_natCast, hn, Option.map_some, Option.map_some, long_conv_natCast (by omega),
    unsignedChar_conv_natCast hlt, Int.toNat_natCast]
  rfl

/-- What the hash in XS returns. -/
theorem pearson32Hash_returns (order : ByteOrder) (hsize : int.conv size ≠ 0) (hne : key ≠ [])
    (hlen : key.length < 2 ^ 31) : Returns (pearson32Hash order size H key)
      ((state32 order (H.map UInt8.ofNat) key % (int.conv size).natAbs : Nat) : Int)
      (List.range key.length) := by
  have hh : (H.map UInt8.ofNat).length = 256 := by
    rw [List.length_map, length_of_perm_range hH]
  have hlt := state32_lt hh order key
  have hle := Nat.mod_le (state32 order (H.map UInt8.ofNat) key) (int.conv size).natAbs
  unfold pearson32Hash
  dsimp only
  rw [if_neg (by rwa [List.length_eq_zero_iff]), int_conv_natCast hlen,
    ← List.nil_append (List.range key.length)]
  refine (returns_step (mapM_svIvx hH)).bind (loops_returns hh xsIndex_eq [0] ?_)
  have hrem := longRem_natCast (d := state32 order (H.map UInt8.ofNat) key) (by omega) hsize
  generalize state32 order (H.map UInt8.ofNat) key % (int.conv size).natAbs = r at *
  have hret : Returns (pure (unsignedLong.conv r)) (r : Int) [] := by
    rw [unsignedLong_conv_natCast (by omega)]
    exact returns_pure _
  exact (returns_step hrem).bind hret

/-- What the hash in the generated code returns. -/
theorem cSlot32_returns (order : ByteOrder) {nul : Bool} (hsize : size % 8 ≠ 0)
    (hlen : key.length < 2 ^ 31) (h : Holds nul key s) :
    Returns (cSlot32 order nul size H s key.length)
      ((state32 order (H.map UInt8.ofNat) key % size : Nat) : Int) (List.range key.length) := by
  have hlength := length_of_perm_range hH
  obtain ⟨rest, rfl, hstrlen⟩ := h.exists_append
  have hl : (if nul then some (int.conv key.length)
      else (strlen (key ++ rest)).map fun n : Nat => int.conv n) = some (key.length : Int) := by
    split
    · rw [int_conv_natCast hlen]
    · rename_i hnul
      rw [hstrlen hnul, Option.map_some, int_conv_natCast hlen]
  have hrem : rem (state32 order (H.map UInt8.ofNat) key) size =
      some ((state32 order (H.map UInt8.ofNat) key % size : Nat) : Int) := by
    rw [rem, if_neg (by omega)]
    rfl
  rw [cSlot32, ← List.nil_append (List.range key.length)]
  refine (returns_step hl).bind ?_
  unfold slot32
  dsimp only
  rw [flatten_saveCArray, hlength]
  refine loops_returns (by rw [List.length_map, hlength]) cIndex_eq rest ?_
  rw [if_pos (by omega)]
  exact returns_step hrem

end

/-! ## Where they agree -/

/-- The two hashes return the same slot for a key, and both read each of its bytes once, in order,
and no other byte. -/
def Agree32 (order : ByteOrder) (nul : Bool) (size : Nat) (H : List Nat) (key s : Bytes) : Prop :=
  ∃ slot, Returns (pearson32Hash order size H key) slot (List.range key.length) ∧
    Returns (cSlot32 order nul size H s key.length) slot (List.range key.length)

/-- A state in which the loops can end: a byte, or a word of the table. -/
def IsState (order : ByteOrder) (H : List Nat) (x : Nat) : Prop :=
  x < 256 ∨ ∃ j < 64, x = hiWord order (H.map UInt8.ofNat) j

/-- The size is as good a modulus after the conversion to an `int`. -/
def SizeKept (order : ByteOrder) (H : List Nat) (size : Nat) : Prop :=
  ∀ x, IsState order H x → x % (int.conv size).natAbs = x % size

theorem wordWalk_eq_or (order : ByteOrder) (h key : Bytes) (i d : Nat) :
    wordWalk order h key i d = (i, d) ∨
      ∃ j < 64, (wordWalk order h key i d).2 = hiWord order h j := by
  fun_induction wordWalk order h key i d with
  | case1 i d hlt w ih =>
    right
    rcases ih with heq | hword
    · exact ⟨_, Nat.mod_lt _ (by decide), congrArg Prod.snd heq⟩
    · exact hword
  | case2 i d hlt => exact .inl rfl

/-- The loops end in a byte or a word of the table. -/
theorem isState_state32 (hne : key ≠ []) :
    IsState order H (state32 order (H.map UInt8.ofNat) key) := by
  have hbyte (d : Nat) (c : UInt8) (bytes : Bytes) :
      byteWalk (H.map UInt8.ofNat) d (c :: bytes) < 256 :=
    byteWalk_lt (Nat.le_refl 256) (UInt8.toNat_lt _) _ bytes
  rw [state32]
  rcases wordWalk_eq_or order (H.map UInt8.ofNat) key 0 0 with heq | ⟨j, hj, hword⟩
  · obtain ⟨c, bytes, rfl⟩ := List.exists_cons_of_ne_nil hne
    rw [heq]
    exact .inl (hbyte 0 c bytes)
  · generalize wordWalk order (H.map UInt8.ofNat) key 0 0 = r at *
    obtain ⟨i, d⟩ := r
    dsimp only at hword ⊢
    cases key.drop i with
    | nil => exact .inr ⟨j, hj, hword⟩
    | cons c bytes => exact .inl (hbyte d c bytes)

theorem conv_size_ne_zero (hsize : size % 8 ≠ 0) : int.conv size ≠ 0 := by
  rw [int_conv, Int.bmod_def]
  omega

/-- On a key that is not empty, the two agree if the state has the same remainder. -/
theorem agree32_iff {nul : Bool} (hH : H.Perm (List.range 256)) (hsize : size % 8 ≠ 0)
    (hne : key ≠ []) (hlen : key.length < 2 ^ 31) (h : Holds nul key s) :
    Agree32 order nul size H key s ↔
      state32 order (H.map UInt8.ofNat) key % (int.conv size).natAbs =
        state32 order (H.map UInt8.ofNat) key % size := by
  have hxs := pearson32Hash_returns hH order (conv_size_ne_zero hsize) hne hlen
  have hc := cSlot32_returns hH order hsize hlen h
  constructor
  · rintro ⟨slot, hxs', hc'⟩
    exact Int.ofNat_inj.mp ((hxs.unique hxs').1.trans (hc'.unique hc).1)
  · intro heq
    exact ⟨_, heq ▸ hxs, hc⟩

/-! ## Keys for the states -/

/-- A key of less than four bytes has no words. -/
theorem state32_of_lt (order : ByteOrder) (h : Bytes) (hlen : key.length < 4) :
    state32 order h key = byteWalk h 0 key := by
  rw [state32, wordWalk, if_neg (by omega)]
  rfl

/-- A key of four bytes is a word. -/
theorem state32_of_eq (order : ByteOrder) (h : Bytes) (hlen : key.length = 4) :
    state32 order h key = hiWord order h ((order.value key).toNat % 64) := by
  have hdrop : key.drop 4 = [] := List.drop_of_length_le (by omega)
  have htake : key.take 4 = key := List.take_of_length_le (by omega)
  rw [state32, wordWalk, if_pos (by omega)]
  dsimp only
  rw [wordWalk, if_neg (by omega), List.drop_zero, htake, Nat.zero_xor]
  dsimp only
  rw [hdrop]
  rfl

theorem getD_map_ofNat (hH : H.Perm (List.range 256)) (hi : i < 256) :
    ((H.map UInt8.ofNat).getD i 0).toNat = H.getD i 0 := by
  have hlen := length_of_perm_range hH
  have hlt := getD_lt_of_perm_range hH hi
  rw [List.getD_eq_getElem _ _ (by rw [List.length_map]; omega), List.getElem_map,
    ← List.getD_eq_getElem _ 0, UInt8.toNat_ofNat', Nat.mod_eq_of_lt hlt]

/-- A key of the byte `c` ends in the entry of `c`. -/
theorem state32_singleton (order : ByteOrder) (hH : H.Perm (List.range 256)) (c : UInt8) :
    state32 order (H.map UInt8.ofNat) [c] = H.getD c.toNat 0 := by
  rw [state32_of_lt _ _ (show [c].length < 4 by simp), ← getD_map_ofNat hH c.toNat_lt]
  change ((H.map UInt8.ofNat).getD (0 ^^^ c.toNat) 0).toNat = _
  rw [Nat.zero_xor]

/-- A byte and its entry end in the first entry. -/
theorem state32_entry (order : ByteOrder) (hH : H.Perm (List.range 256)) (c : UInt8) :
    state32 order (H.map UInt8.ofNat) [c, UInt8.ofNat (H.getD c.toNat 0)] = H.getD 0 0 := by
  have hlt := getD_lt_of_perm_range hH c.toNat_lt
  rw [state32_of_lt _ _ (by simp), ← getD_map_ofNat hH (i := 0) (by decide)]
  change ((H.map UInt8.ofNat).getD (((H.map UInt8.ofNat).getD (0 ^^^ c.toNat) 0).toNat % 256 ^^^
    (UInt8.ofNat (H.getD c.toNat 0)).toNat) 0).toNat = _
  rw [Nat.zero_xor, getD_map_ofNat hH c.toNat_lt, UInt8.toNat_ofNat', Nat.mod_eq_of_lt hlt,
    Nat.xor_self]

/-- The key for a word of the table. -/
def wordKey (order : ByteOrder) (j : Nat) : Bytes :=
  match order with
  | .little => [UInt8.ofNat (64 + j), 1, 1, 1]
  | .big => [1, 1, 1, UInt8.ofNat (64 + j)]

theorem state32_wordKey (order : ByteOrder) (h : Bytes) (hj : j < 64) :
    state32 order h (wordKey order j) = hiWord order h j := by
  have hbyte : (UInt8.ofNat (64 + j)).toNat = 64 + j := by
    rw [UInt8.toNat_ofNat', Nat.mod_eq_of_lt (by omega)]
  have hvalue : (order.value (wordKey order j)).toNat % 64 = j := by
    cases order <;>
      simp only [wordKey, ByteOrder.value, Cells.value, List.foldr_cons, List.foldr_nil,
        List.reverse_cons, List.reverse_nil, List.nil_append, List.cons_append, hbyte] <;>
      norm_num <;> omega
  rw [state32_of_eq _ _ (by cases order <;> rfl), hvalue]

/-- Every state is the end of a key without a NUL. -/
theorem exists_key (hH : H.Perm (List.range 256)) {x : Nat} (hx : IsState order H x) :
    ∃ key, key ≠ [] ∧ 0 ∉ key ∧ key.length < 2 ^ 31 ∧
      state32 order (H.map UInt8.ofNat) key = x := by
  have hlen := length_of_perm_range hH
  have hnodup : H.Nodup := hH.nodup_iff.mpr List.nodup_range
  have hne (n : Nat) (h0 : 0 < n) (hn : n < 256) : UInt8.ofNat n ≠ 0 := by
    rw [Ne, ← UInt8.toNat_inj, UInt8.toNat_ofNat', Nat.mod_eq_of_lt hn]
    exact h0.ne'
  rcases hx with hlt | ⟨j, hj, rfl⟩
  · obtain ⟨i, hi, rfl⟩ := List.mem_iff_getElem.mp (hH.mem_iff.mpr (List.mem_range.mpr hlt))
    rw [hlen] at hi
    rw [← List.getD_eq_getElem H 0 (by omega)]
    rcases Nat.eq_zero_or_pos i with rfl | hpos
    · -- one of the entries of the bytes 1 and 2 is not 0
      have hdiff : H.getD 1 0 ≠ H.getD 2 0 := by
        rw [List.getD_eq_getElem _ _ (by omega), List.getD_eq_getElem _ _ (by omega)]
        exact fun h => absurd (hnodup.getElem_inj_iff.mp h) (by decide)
      obtain ⟨c, hc, hentry⟩ : ∃ c : UInt8, c ≠ 0 ∧ H.getD c.toNat 0 ≠ 0 := by
        by_cases h1 : H.getD 1 0 = 0
        · exact ⟨2, by decide, fun h2 => hdiff (h1.trans h2.symm)⟩
        · exact ⟨1, by decide, h1⟩
      have hne0 := hne _ (Nat.pos_of_ne_zero hentry) (getD_lt_of_perm_range hH c.toNat_lt)
      have hmem : 0 ∉ [c, UInt8.ofNat (H.getD c.toNat 0)] := by
        rw [List.mem_cons, List.mem_singleton, not_or]
        exact ⟨hc.symm, hne0.symm⟩
      exact ⟨_, List.cons_ne_nil _ _, hmem, by simp, state32_entry order hH c⟩
    · have hstate := state32_singleton order hH (UInt8.ofNat i)
      rw [UInt8.toNat_ofNat', Nat.mod_eq_of_lt hi] at hstate
      exact ⟨[UInt8.ofNat i], List.cons_ne_nil _ _, by simp [(hne i hpos hi).symm], by simp, hstate⟩
  · have hj0 := hne (64 + j) (by omega) (by omega)
    have hlength : (wordKey order j).length = 4 := by cases order <;> rfl
    have hmem : 0 ∉ wordKey order j := by
      unfold wordKey
      generalize UInt8.ofNat (64 + j) = c at hj0
      cases order <;> simp [hj0.symm]
    exact ⟨wordKey order j, List.ne_nil_of_length_pos (by omega), hmem, by omega,
      state32_wordKey order _ hj⟩

/-- When the hash in XS and the generated one agree on all keys, for a table and a size. -/
theorem slot32_eq_iff (order : ByteOrder) (nul : Bool) {H : List Nat} {size : Nat}
    (hH : H.Perm (List.range 256)) (hsize : size % 8 ≠ 0) :
    (∀ key s, key.length < 2 ^ 31 → Holds nul key s → Agree32 order nul size H key s) ↔
      SizeKept order H size := by
  constructor
  · intro h x hx
    obtain ⟨key, hne, h0, hlen, rfl⟩ := exists_key hH hx
    have hholds : Holds nul key (key ++ [0]) := by
      unfold Holds
      split
      · exact List.prefix_append _ _
      · exact ⟨h0, List.prefix_refl _⟩
    exact (agree32_iff hH hsize hne hlen hholds).mp (h key _ hlen hholds)
  · intro h key s hlen hholds
    rcases eq_or_ne key [] with rfl | hne
    · have hc := cSlot32_returns hH order hsize hlen hholds
      have hzero : state32 order (H.map UInt8.ofNat) [] % size = 0 := by
        rw [state32_of_lt _ _ (by simp)]
        exact Nat.zero_mod size
      rw [hzero] at hc
      exact ⟨0, returns_pure _, hc⟩
    · exact (agree32_iff hH hsize hne hlen hholds).mpr (h _ (isState_state32 hne))

/-- A size below `2 ^ 31` is kept. -/
theorem sizeKept_of_lt (order : ByteOrder) (H : List Nat) (hlt : size < 2 ^ 31) :
    SizeKept order H size := fun x _ => by
  rw [int_conv_natCast hlt, Int.natAbs_natCast]

/-- Any key has a slot in a table of three. -/
theorem slot32_eq_iff_three : Agree32 .little false 3 (List.range 256) [97, 98] [97, 98, 0] :=
  (slot32_eq_iff .little false (List.Perm.refl _) (by decide)).mpr (sizeKept_of_lt _ _ (by decide))
    [97, 98] [97, 98, 0] (by decide) ⟨by decide, List.prefix_refl _⟩

/-- With the size `2 ^ 31 + 1` the key `?aaa` has two slots. -/
theorem slot32_ne : ¬ ∀ (order : ByteOrder) (nul : Bool) (H : List Nat) (size : Nat),
    H.Perm (List.range 256) → size % 8 ≠ 0 → ∀ key s, key.length < 2 ^ 31 → Holds nul key s →
      Agree32 order nul size H key s := by
  intro h
  have hholds : Holds false [63, 97, 97, 97] [63, 97, 97, 97, 0] :=
    ⟨by decide, List.prefix_refl _⟩
  have hword := (agree32_iff (List.Perm.refl _) (by decide) (by simp) (by decide) hholds).mp
    (h .little false (List.range 256) (2 ^ 31 + 1) (List.Perm.refl _) (by decide)
      [63, 97, 97, 97] [63, 97, 97, 97, 0] (by decide) hholds)
  rw [state32_of_eq _ _ (by simp)] at hword
  revert hword
  decide +kernel

end

end PerfectHash.Xs
