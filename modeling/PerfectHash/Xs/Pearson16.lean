import PerfectHash.Xs.Pearson32

/-! # The hash of `Pearson16` (`Hash.xs`, `save_c`)

`Pearson16` hashes in XS with a table of 65536 entries and words of two bytes that overlap. The
function that `save_c` prints starts with what is in the variable `hs`, which it does not set. So
the two give the same slot only in a table with one slot (`slot16_eq_iff`). -/

namespace PerfectHash.Xs

open CValues C Reads
open HanovPP (at? at?_natCast)
open Pearson (rem)

/-- `len % 2 ? len -1 : len` -/
def words16 (len : Int) : Int := if len.tmod 2 ≠ 0 then len - 1 else len

/-- `for (; i < n; i++) d = H[(unsigned short)(d ^ *(unsigned short*)s++)]`, from the value `i` on.
The pointer is `i` bytes behind the start of the buffer `s`. -/
def loop16 (order : ByteOrder) (entry : Int → Option Int) (s : Bytes) (n : Int) (i : Nat)
    (d : Int) : Read (Nat × Int) :=
  if i < n then do
    let w ← word order s i 2
    let d ← step (entry (unsignedShort.conv (Int.xor d w)))
    loop16 order entry s n (i + 1) d
  else return (i, d)
termination_by (n - i).toNat

/-- `Pearson16::hash(ph, key)` for the object of a size and a table. -/
def pearson16Hash (order : ByteOrder) (size : Nat) (H : List Nat) (key : Bytes) : Read Int := do
  let size := int.conv size
  let len := int.conv key.length
  if key.length = 0 then return 0
  else
    let s := key ++ [0]
    let entry (x : Int) := (svIvx H x).map unsignedShort.conv
    let (_, d) ← loop16 order entry s (words16 len) 0 0
    let d ←
      if len.tmod 2 ≠ 0 then do
        -- the bytes of `SvPVX(key)` are signed
        let c ← byte s (len - 1)
        step (entry (unsignedShort.conv (Int.xor d (signedChar.conv c.toNat))))
      else pure d
    -- the quotient fits, as `d` is not negative
    step (if size = 0 then none else some (unsignedLong.conv (d.tmod size)))

/-- The hash that `save_c` prints for `Pearson16`, with `h = h % $size`, when the variable `hs` has
the value `hs` at its declaration. -/
def slot16 (order : ByteOrder) (size : Nat) (H : List Nat) (hs : Int) (su : Bytes) (l : Int) :
    Read Int := do
  let htype := uCsize H.length
  let base := (saveCArray H).flatten
  let entry (x : Int) := (at? base x).map fun n : Nat => unsignedShort.conv (htype.conv n)
  let (i, hs) ← loop16 order entry su (words16 l) 0 hs
  let hs ←
    if l.tmod 2 ≠ 0 then do
      -- `su[l-1]`, where the loop has moved `su`
      let c ← byte su (i + (l - 1))
      step (entry (unsignedShort.conv (Int.xor hs c.toNat)))
    else pure hs
  if H.length ≠ size then step (rem hs size) else return hs

/-- The slot in the generated function, with `-nul` or without; `l` is an `int`. -/
def cSlot16 (order : ByteOrder) (nul : Bool) (size : Nat) (H : List Nat) (hs : Int) (s : Bytes)
    (l : Nat) : Read Int := do
  let l ← step (if nul then some (int.conv l) else (strlen s).map fun n : Nat => int.conv n)
  slot16 order size H hs s l

/-! ## What the loop computes -/

/-- The word of two bytes at an offset. -/
def wordAt (order : ByteOrder) (s : Bytes) (i : Nat) : Nat :=
  (order.value ((s.drop i).take 2)).toNat

/-- The state after some words. -/
def walk16 (H : List Nat) (d : Nat) (ws : List Nat) : Nat :=
  ws.foldl (fun d w => H.getD (d ^^^ w) 0) d

section
variable {order : ByteOrder} {H ws : List Nat} {entry : Int → Option Int} {key s : Bytes}
  {c : UInt8} {d i m n x size : Nat}

theorem wordAt_lt (order : ByteOrder) (s : Bytes) (i : Nat) : wordAt order s i < 65536 := by
  have hlt := order.value_lt ((s.drop i).take 2)
  have hnonneg := order.value_nonneg ((s.drop i).take 2)
  have hle : ((s.drop i).take 2).length ≤ 2 := List.length_take_le _ _
  have hpow : (256 : Int) ^ ((s.drop i).take 2).length ≤ 256 ^ 2 :=
    pow_le_pow_right₀ (by norm_num) hle
  rw [wordAt]
  omega

section
variable (hH : H.Perm (List.range 65536))
include hH

theorem walk16_lt (hd : d < 65536) (hws : ∀ w ∈ ws, w < 65536) : walk16 H d ws < 65536 := by
  induction ws generalizing d with
  | nil => exact hd
  | cons w ws ih =>
    have hxor : d ^^^ w < 65536 := Nat.xor_lt_two_pow (n := 16) hd (hws w List.mem_cons_self)
    exact ih (getD_lt_of_perm_range hH hxor) fun v hv => hws v (List.mem_cons_of_mem w hv)

/-- Every step is a permutation, so the words lead to every state from some start. -/
theorem exists_walk16 (hws : ∀ w ∈ ws, w < 65536) (hx : x < 65536) :
    ∃ d < 65536, walk16 H d ws = x := by
  induction ws with
  | nil => exact ⟨x, hx, rfl⟩
  | cons w ws ih =>
    have hw := hws w List.mem_cons_self
    obtain ⟨d, hd, hwalk⟩ := ih fun v hv => hws v (List.mem_cons_of_mem w hv)
    obtain ⟨j, hj, hentry⟩ := List.mem_iff_getElem.mp (hH.mem_iff.mpr (List.mem_range.mpr hd))
    have hj' : j < 65536 := length_of_perm_range hH ▸ hj
    refine ⟨j ^^^ w, Nat.xor_lt_two_pow (n := 16) hj' hw, ?_⟩
    rw [walk16, List.foldl_cons, Nat.xor_assoc, Nat.xor_self, Nat.xor_zero,
      List.getD_eq_getElem _ _ hj, hentry]
    exact hwalk

end

/-! ## The loop -/

/-- The words that the loop reads from the value `i` on. -/
def wordsFrom (order : ByteOrder) (s : Bytes) (i m : Nat) : List Nat :=
  (List.range' i (m - i)).map (wordAt order s)

theorem wordsFrom_lt : ∀ w ∈ wordsFrom order s i m, w < 65536 := by
  intro w hw
  obtain ⟨j, -, rfl⟩ := List.mem_map.mp hw
  exact wordAt_lt order s j

/-- A lookup in the table. -/
def IsEntry (H : List Nat) (entry : Int → Option Int) : Prop :=
  ∀ x : Nat, x < 65536 → entry x = some (H.getD x 0 : Int)

/-- One step of the loop. -/
theorem IsEntry.step {w : Nat} (hentry : IsEntry H entry) (hx : d ^^^ w < 65536) :
    entry (unsignedShort.conv (Int.xor d w)) = some (H.getD (d ^^^ w) 0 : Int) := by
  change entry (unsignedShort.conv ((d ^^^ w : Nat) : Int)) = _
  rw [unsignedShort_conv_natCast hx, hentry _ hx]

theorem isEntry_svIvx (hH : H.Perm (List.range 65536)) :
    IsEntry H fun x => (svIvx H x).map unsignedShort.conv := by
  intro x hx
  have hlen := length_of_perm_range hH
  have hlt := getD_lt_of_perm_range hH hx
  dsimp only
  rw [svIvx, at?_natCast, getElem?_eq_getD (by omega) 0, Option.map_some, Option.map_some,
    long_conv_natCast (by omega), unsignedShort_conv_natCast hlt]

/-- An array of 65536 entries is printed with the type `unsigned short`. -/
theorem isEntry_base (hH : H.Perm (List.range 65536)) :
    IsEntry H fun x => (at? (saveCArray H).flatten x).map
      fun n : Nat => unsignedShort.conv ((uCsize H.length).conv n) := by
  intro x hx
  have hlen := length_of_perm_range hH
  have hlt := getD_lt_of_perm_range hH hx
  have htype : uCsize H.length = unsignedShort := by rw [hlen]; rfl
  dsimp only
  rw [flatten_saveCArray, at?_natCast, getElem?_eq_getD (by omega) 0, Option.map_some, htype,
    unsignedShort_conv_natCast hlt, unsignedShort_conv_natCast hlt]

/-- The loop reads the words that start in front of `m`, and their bytes only. -/
theorem loop16_returns (order : ByteOrder) (hH : H.Perm (List.range 65536))
    (hentry : IsEntry H entry) {n : Int} (hn : n.toNat = m) (hm : m < s.length) (hi : i ≤ m)
    (hd : d < 65536) :
    ∃ log, Returns (loop16 order entry s n i d)
      (m, (walk16 H d (wordsFrom order s i m) : Int)) log ∧ ∀ o ∈ log, o ≤ m := by
  induction hk : m - i generalizing i d with
  | zero =>
    have hge : ¬ (i : Int) < n := by omega
    obtain rfl : i = m := by omega
    rw [loop16, if_neg hge, wordsFrom, Nat.sub_self]
    exact ⟨[], returns_pure _, nofun⟩
  | succ k ih =>
    have hlt : (i : Int) < n := by omega
    have hword := returns_word order (show i + 2 ≤ s.length by omega)
    have hwords : wordsFrom order s i m = wordAt order s i :: wordsFrom order s (i + 1) m := by
      rw [wordsFrom, hk, List.range'_succ, List.map_cons, wordsFrom,
        show m - (i + 1) = k by omega]
    have hxor : d ^^^ wordAt order s i < 65536 :=
      Nat.xor_lt_two_pow (n := 16) hd (wordAt_lt order s i)
    have hvalue : order.value ((s.drop i).take 2) = (wordAt order s i : Int) :=
      (Int.toNat_of_nonneg (order.value_nonneg _)).symm
    have hstep : entry (unsignedShort.conv (Int.xor d (order.value ((s.drop i).take 2)))) =
        some (H.getD (d ^^^ wordAt order s i) 0 : Int) := by
      rw [hvalue]
      exact hentry.step hxor
    obtain ⟨log, hloop, hlog⟩ :=
      ih (show i + 1 ≤ m by omega) (getD_lt_of_perm_range hH hxor) (by omega)
    rw [loop16, if_pos hlt, hwords]
    refine ⟨_, hword.bind ((returns_step hstep).bind hloop), fun o ho => ?_⟩
    rw [List.nil_append, List.mem_append, List.mem_range'_1] at ho
    rcases ho with ho | ho
    · omega
    · exact hlog o ho

/-! ## The hash in XS -/

theorem toNat_words16_le {L : Int} (hL : L ≤ n) : (words16 L).toNat ≤ n := by
  unfold words16
  split <;> omega

/-- The last byte of a key of odd length is read with its sign. -/
theorem xor_signedChar_lt (d : Nat) (c : UInt8) :
    ∃ x : Nat, x < 65536 ∧ unsignedShort.conv (Int.xor d (signedChar.conv c.toNat)) = x := by
  have hnonneg := Int.emod_nonneg (Int.xor d (signedChar.conv c.toNat))
    (show (2 : Int) ^ unsignedShort.bits ≠ 0 by decide)
  have hlt := Int.emod_lt_of_pos (Int.xor d (signedChar.conv c.toNat))
    (show (0 : Int) < 2 ^ unsignedShort.bits by decide)
  refine ⟨(Int.xor d (signedChar.conv c.toNat) % 2 ^ unsignedShort.bits).toNat, ?_, ?_⟩
  · have hbits : (2 : Int) ^ unsignedShort.bits = 65536 := rfl
    omega
  · exact (Int.toNat_of_nonneg hnonneg).symm

/-- In a table with one slot the hash in XS gives this slot. -/
theorem pearson16Hash_one (order : ByteOrder) (hH : H.Perm (List.range 65536)) (hne : key ≠ [])
    (hL : 2 ∣ int.conv key.length ∨ 0 < int.conv key.length) :
    ∃ log, Returns (pearson16Hash order 1 H key) 0 log ∧ ∀ o ∈ log, o ≤ key.length := by
  have hle := int_conv_natCast_le key.length
  have hentry := isEntry_svIvx hH
  have hm := toNat_words16_le hle
  have hlength : (key ++ [0]).length = key.length + 1 := List.length_append
  obtain ⟨log, hloop, hlog⟩ := loop16_returns order (s := key ++ [0]) (d := 0) hH hentry
    (n := words16 (int.conv key.length)) rfl (by omega) (Nat.zero_le _) (by decide)
  have hd : walk16 H 0 (wordsFrom order (key ++ [0]) 0 (words16 (int.conv key.length)).toNat) <
      65536 := walk16_lt hH (by decide) wordsFrom_lt
  generalize walk16 H 0 (wordsFrom order (key ++ [0]) 0 (words16 (int.conv key.length)).toNat) = d
    at hloop hd
  have hfinal (d : Nat) : Returns (step (if int.conv ((1 : Nat) : Int) = 0 then none
      else some (unsignedLong.conv ((d : Int).tmod (int.conv ((1 : Nat) : Int)))))) 0 [] := by
    refine returns_step ?_
    rw [int_conv_natCast (by decide), if_neg (by decide), Nat.cast_one, Int.tmod_one]
    rfl
  unfold pearson16Hash
  dsimp only
  rw [if_neg (by rwa [List.length_eq_zero_iff])]
  by_cases hodd : (int.conv key.length).tmod 2 ≠ 0
  · have hpos := hL.resolve_left fun hdvd => hodd (Int.dvd_iff_tmod_eq_zero.mp hdvd)
    generalize int.conv key.length = L at *
    obtain ⟨j, rfl⟩ : ∃ j : Nat, L = j + 1 := ⟨(L - 1).toNat, by omega⟩
    obtain ⟨c, hc⟩ : ∃ c, (key ++ [0])[j]? = some c :=
      ⟨_, List.getElem?_eq_getElem (by omega)⟩
    obtain ⟨x, hx, hindex⟩ := xor_signedChar_lt d c
    have hbyte := returns_byte hc
    rw [← Int.add_sub_cancel (j : Int) 1] at hbyte
    have hstep : ((svIvx H (unsignedShort.conv (Int.xor d (signedChar.conv c.toNat)))).map
        unsignedShort.conv) = some (H.getD x 0 : Int) := by
      rw [hindex]
      exact hentry x hx
    refine ⟨log ++ [j], hloop.bind ?_, fun o ho => ?_⟩
    · rw [if_pos hodd]
      exact hbyte.bind ((returns_step hstep).bind (hfinal _))
    · rcases List.mem_append.mp ho with ho | ho
      · exact (hlog o ho).trans hm
      · obtain rfl := List.mem_singleton.mp ho
        omega
  · refine ⟨log ++ [], hloop.bind ?_, fun o ho => ?_⟩
    · rw [if_neg hodd]
      exact (returns_pure _).bind (hfinal d)
    · rw [List.append_nil] at ho
      exact (hlog o ho).trans hm

/-! ## The generated hash -/

/-- The word after the loop and the offset that is read for it, for a length `L`. -/
inductive Tail (s : Bytes) (L : Int) : List Nat → List Nat → Prop
  | even (h : 2 ∣ L) : Tail s L [] []
  | odd {j : Nat} {c : UInt8} (h : ¬ 2 ∣ L) (hj : L = j + 1) (hc : s[2 * j]? = some c) :
    Tail s L [c.toNat] [2 * j]

theorem Tail.lt {L : Int} {tail reads : List Nat} (h : Tail s L tail reads) :
    ∀ w ∈ tail, w < 65536 := by
  cases h with
  | even => exact nofun
  | @odd _ c =>
    intro w hw
    obtain rfl := List.mem_singleton.mp hw
    exact c.toNat_lt.trans (by decide)

/-- What the generated loop returns for a length, from every start. -/
theorem slot16_returns (order : ByteOrder) (hH : H.Perm (List.range 65536)) {L : Int}
    (hm : (words16 L).toNat < s.length) {tail reads : List Nat} (ht : Tail s L tail reads)
    (hsize : size ≠ 0) (hd : d < 65536) :
    ∃ log, Returns (slot16 order size H d s L)
        ((walk16 H d (wordsFrom order s 0 (words16 L).toNat ++ tail) % size : Nat) : Int)
        (log ++ reads) ∧
      ∀ o ∈ log, o ≤ (words16 L).toNat := by
  have hlen := length_of_perm_range hH
  have hentry := isEntry_base hH
  obtain ⟨log, hloop, hlog⟩ := loop16_returns order hH hentry rfl hm (Nat.zero_le _) hd
  have hwords : walk16 H d (wordsFrom order s 0 (words16 L).toNat) < 65536 :=
    walk16_lt hH hd wordsFrom_lt
  have hfinal (x : Nat) (hx : x < 65536) :
      Returns (if H.length ≠ size then step (rem x size) else pure (x : Int))
        ((x % size : Nat) : Int) [] := by
    split
    · refine returns_step ?_
      rw [rem, if_neg hsize]
      rfl
    · rename_i heq
      rw [Nat.mod_eq_of_lt (by omega)]
      exact returns_pure _
  refine ⟨log, ?_, hlog⟩
  unfold slot16
  dsimp only
  refine hloop.bind ?_
  have hwalk (tail : List Nat) : walk16 H d (wordsFrom order s 0 (words16 L).toNat ++ tail) =
      walk16 H (walk16 H d (wordsFrom order s 0 (words16 L).toNat)) tail := List.foldl_append
  rw [hwalk]
  generalize walk16 H d (wordsFrom order s 0 (words16 L).toNat) = x at *
  cases ht with
  | even h =>
    rw [if_neg (not_not.mpr (Int.dvd_iff_tmod_eq_zero.mp h))]
    exact (returns_pure _).bind (hfinal x hwords)
  | @odd j c h hj hc =>
    have hodd := fun hmod => h (Int.dvd_iff_tmod_eq_zero.mpr hmod)
    have hxor : x ^^^ c.toNat < 65536 :=
      Nat.xor_lt_two_pow (n := 16) hwords (c.toNat_lt.trans (by decide))
    have hoffset : ((words16 L).toNat : Int) + (L - 1) = ((2 * j : Nat) : Int) := by
      rw [words16, if_pos hodd]
      omega
    have hbyte := returns_byte hc
    rw [← hoffset] at hbyte
    have hstep : (at? (saveCArray H).flatten (unsignedShort.conv (Int.xor x c.toNat))).map
        (fun n : Nat => unsignedShort.conv ((uCsize H.length).conv n)) =
          some (H.getD (x ^^^ c.toNat) 0 : Int) := hentry.step hxor
    rw [if_pos hodd]
    exact hbyte.bind ((returns_step hstep).bind (hfinal _ (getD_lt_of_perm_range hH hxor)))

/-- Where the generated hash returns from a start, it read what the tail says. -/
theorem exists_tail (hH : H.Perm (List.range 65536)) {L slot : Int} {log : List Nat}
    (hm : (words16 L).toNat < s.length) (hd : d < 65536)
    (h : Returns (slot16 order size H d s L) slot log) :
    (∃ tail reads, Tail s L tail reads) ∧ size ≠ 0 := by
  have hlen := length_of_perm_range hH
  have hentry := isEntry_base hH
  obtain ⟨log', hloop, -⟩ := loop16_returns order hH hentry rfl hm (Nat.zero_le _) hd
  have hsize (x : Int) (log : List Nat)
      (h : Returns (if H.length ≠ size then step (rem x size) else pure x) slot log) :
      size ≠ 0 := by
    rintro rfl
    rw [if_pos (by omega), returns_step_iff] at h
    cases h.1
  unfold slot16 at h
  dsimp only at h
  obtain ⟨p, l, l', hp, h, -⟩ := returns_bind_iff.mp h
  obtain ⟨rfl, -⟩ := hloop.unique hp
  by_cases hodd : L.tmod 2 ≠ 0
  · rw [if_pos hodd] at h
    obtain ⟨c, _, _, hbyte, h, -⟩ := returns_bind_iff.mp h
    obtain ⟨x, _, _, -, hend, -⟩ := returns_bind_iff.mp h
    have hne := hsize x _ hend
    obtain ⟨i, hi, hc, -⟩ := hbyte.of_byte
    dsimp only at hi
    rw [words16, if_pos hodd] at hi
    obtain ⟨j, rfl⟩ : ∃ j : Nat, L = j + 1 := ⟨(L - 1).toNat, by omega⟩
    obtain rfl : i = 2 * j := by omega
    exact ⟨⟨_, _, .odd (fun hdvd => hodd (Int.dvd_iff_tmod_eq_zero.mp hdvd)) rfl hc⟩, hne⟩
  · rw [if_neg hodd] at h
    obtain ⟨x, _, _, -, hend, -⟩ := returns_bind_iff.mp h
    exact ⟨⟨_, _, .even (Int.dvd_iff_tmod_eq_zero.mpr (not_not.mp hodd))⟩, hsize x _ hend⟩

/-! ## Where they agree -/

/-- The two hashes return the same slot for a key, and read only bytes of the key and its NUL,
whatever the variable `hs` holds at its declaration and what follows the key in memory. -/
def Agree16 (order : ByteOrder) (nul : Bool) (size : Nat) (H : List Nat) (key : Bytes) : Prop :=
  ∀ hs : Nat, hs < 65536 → ∀ rest, ∃ slot log log',
    Returns (pearson16Hash order size H key) slot log ∧
    Returns (cSlot16 order nul size H hs (key ++ 0 :: rest) key.length) slot log' ∧
    ∀ o ∈ log ++ log', o ≤ key.length

/-- The length of the key as an `int` is even, or the moved pointer does not leave the key. -/
def ReadsTail (key : Bytes) : Prop :=
  2 ∣ int.conv key.length ∨
    0 < int.conv key.length ∧ 2 * (int.conv key.length - 1) ≤ key.length

theorem cSlot16_eq (order : ByteOrder) (nul : Bool) (size : Nat) (H : List Nat) (hs : Int)
    (h0 : 0 ∉ key) (rest : Bytes) {slot : Int} {log : List Nat} :
    Returns (cSlot16 order nul size H hs (key ++ 0 :: rest) key.length) slot log ↔
      Returns (slot16 order size H hs (key ++ 0 :: rest) (int.conv key.length)) slot log := by
  have hl : (if nul then some (int.conv key.length)
      else (strlen (key ++ 0 :: rest)).map fun n : Nat => int.conv n) =
        some (int.conv key.length) := by
    rw [strlen_append h0, Option.map_some, ite_self]
  exact returns_step_bind_iff hl

section
variable {nul : Bool} (hH : H.Perm (List.range 65536)) (h0 : 0 ∉ key)
include hH h0

/-- If the two agree on a key, the generated hash reads its last byte inside of the key, and every
state has the same slot. -/
theorem exists_tail_of_agree16 (h : Agree16 order nul size H key) :
    size = 1 ∧ ∃ tail reads, Tail (key ++ [0]) (int.conv key.length) tail reads ∧
      ∀ o ∈ reads, o ≤ key.length := by
  have hm := toNat_words16_le (int_conv_natCast_le key.length)
  have hm' : (words16 (int.conv key.length)).toNat < (key ++ [0]).length := by
    rw [List.length_append, List.length_singleton]
    omega
  have hc (hs : Nat) (hlt : hs < 65536) : ∃ slot log log',
      Returns (pearson16Hash order size H key) slot log ∧
      Returns (slot16 order size H hs (key ++ [0]) (int.conv key.length)) slot log' ∧
      ∀ o ∈ log ++ log', o ≤ key.length := by
    obtain ⟨slot, log, log', hxs, hc, hlog⟩ := h hs hlt []
    exact ⟨slot, log, log', hxs, (cSlot16_eq order nul size H hs h0 []).mp hc, hlog⟩
  obtain ⟨_, _, _, -, hzero, -⟩ := hc 0 (by decide)
  obtain ⟨⟨tail, reads, ht⟩, hsize⟩ := exists_tail hH hm' (by decide) hzero
  have hwords : ∀ w ∈ wordsFrom order (key ++ [0]) 0 (words16 (int.conv key.length)).toNat ++ tail,
      w < 65536 := fun w hw => (List.mem_append.mp hw).elim (wordsFrom_lt w) (ht.lt w)
  -- the loop and the tail are a permutation, so `hs` can lead to every state
  have hslot (x : Nat) (hx : x < 65536) : ∃ log log',
      Returns (pearson16Hash order size H key) ((x % size : Nat) : Int) log ∧
        ∀ o ∈ log' ++ reads, o ≤ key.length := by
    obtain ⟨d, hd, rfl⟩ := exists_walk16 hH hwords hx
    obtain ⟨log', hret, -⟩ := slot16_returns order hH hm' ht hsize hd
    obtain ⟨slot, log, _, hxs, hc, hlog⟩ := hc d hd
    obtain ⟨rfl, rfl⟩ := hret.unique hc
    exact ⟨log, log', hxs, fun o ho => hlog o (List.mem_append_right log ho)⟩
  obtain ⟨_, _, hxs, hlog⟩ := hslot 0 (by decide)
  obtain ⟨_, _, hxs', -⟩ := hslot 1 (by decide)
  have heq : 0 % size = 1 % size := Int.ofNat_inj.mp (hxs.unique hxs').1
  refine ⟨?_, tail, reads, ht, fun o ho => hlog o (List.mem_append_right _ ho)⟩
  rw [Nat.zero_mod] at heq
  exact Nat.dvd_one.mp (Nat.dvd_of_mod_eq_zero heq.symm)

end

/-- When the hash in XS and the generated one agree on a key. -/
theorem slot16_eq_iff (order : ByteOrder) (nul : Bool) {H : List Nat} {key : Bytes}
    (hH : H.Perm (List.range 65536)) (hne : key ≠ []) (h0 : 0 ∉ key) (size : Nat) :
    Agree16 order nul size H key ↔ size = 1 ∧ ReadsTail key := by
  constructor
  · intro h
    obtain ⟨hsize, tail, reads, ht, hreads⟩ := exists_tail_of_agree16 hH h0 h
    refine ⟨hsize, ?_⟩
    cases ht with
    | even heven => exact .inl heven
    | @odd j c hodd hj hc =>
      have hle := hreads (2 * j) List.mem_cons_self
      exact .inr (by omega)
  · rintro ⟨rfl, htail⟩ hs hlt rest
    obtain ⟨log, hxs, hlog⟩ := pearson16Hash_one order hH hne
      (htail.imp_right And.left)
    have hm := toNat_words16_le (int_conv_natCast_le key.length)
    have hlength : (key ++ 0 :: rest).length = key.length + 1 + rest.length := by
      rw [List.length_append, List.length_cons]
      omega
    obtain ⟨tail, reads, ht, hreads⟩ : ∃ tail reads,
        Tail (key ++ 0 :: rest) (int.conv key.length) tail reads ∧
          ∀ o ∈ reads, o ≤ key.length := by
      by_cases heven : 2 ∣ int.conv key.length
      · exact ⟨_, _, .even heven, nofun⟩
      · obtain ⟨hpos, hle⟩ := htail.resolve_left heven
        obtain ⟨j, hj⟩ : ∃ j : Nat, int.conv key.length = j + 1 :=
          ⟨(int.conv key.length - 1).toNat, by omega⟩
        refine ⟨_, _, .odd heven hj (List.getElem?_eq_getElem (by omega)), fun o ho => ?_⟩
        obtain rfl := List.mem_singleton.mp ho
        omega
    obtain ⟨log', hc, hlog'⟩ := slot16_returns order hH (by omega) ht (Nat.one_ne_zero) hlt
    rw [Nat.mod_one] at hc
    refine ⟨0, log, log' ++ reads, hxs, (cSlot16_eq order nul 1 H hs h0 rest).mpr hc, ?_⟩
    intro o ho
    simp only [List.mem_append] at ho
    rcases ho with ho | ho | ho
    · exact hlog o ho
    · exact (hlog' o ho).trans hm
    · exact hreads o ho

/-- In a table with one slot the key `ab` is found. -/
theorem slot16_eq_iff_ab : Agree16 .little false 1 (List.range 65536) [97, 98] :=
  (slot16_eq_iff .little false (List.Perm.refl _) (by simp) (by decide) 1).mpr
    ⟨rfl, .inr (by decide)⟩

/-- In a table with two slots the key `ab` can have two different ones. -/
theorem slot16_ne : ¬ ∀ (order : ByteOrder) (nul : Bool) (size : Nat) (H : List Nat) (key : Bytes),
    H.Perm (List.range 65536) → key ≠ [] → 0 ∉ key → Agree16 order nul size H key := by
  intro h
  have hagree := h .little false 2 (List.range 65536) [97, 98] (List.Perm.refl _) (by simp)
    (by decide)
  exact absurd (exists_tail_of_agree16 (List.Perm.refl _) (by decide) hagree).1 (by decide)

end

end PerfectHash.Xs
