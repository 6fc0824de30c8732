import PerfectHash.Cmph
import Mathlib.Data.List.TakeWhile

/-! # Files of keys (`cmph_io_nlfile_adapter`)

The adapter reads a file in pieces of at most 8191 characters. What it counts and reads are the lines
that end with a newline (`nlfileKeys_eq`), so a last line without one is no key. -/

namespace PerfectHash.Cmph

/-- `fgets` of at most `n` characters: what was read, the rest of the file, and whether the read
reached the end of the file -/
def fgets : Nat → Bytes → Bytes × Bytes × Bool
  | 0, f => ([], f, false)
  | _ + 1, [] => ([], [], true)
  | n + 1, c :: f =>
    if c = 10 then ([c], f, false)
    else
      let (buf, f, eof) := fgets n f
      (c :: buf, f, eof)

/-- `BUFSIZ - 1`, the characters that fit into `buf` -/
def bufLen : Nat := 8191

/-- `strlen(buf)` -/
def strlen (buf : Bytes) : Nat := (buf.takeWhile (· ≠ 0)).length

/-- The loop of `key_nlfile_read`, with the key so far: whether a line was read, the key and the rest
of the file -/
def keyNlfileReadLoop : Nat → Bytes → Bytes → Option (Bool × Bytes × Bytes)
  | 0, _, _ => none
  | turns + 1, key, f =>
    let (buf, f, eof) := fgets bufLen f
    if eof then some (false, key, f)
    else
      let key := key ++ buf.take (strlen buf)
      if strlen buf = 0 then none
      else if buf[strlen buf - 1]? ≠ some 10 then keyNlfileReadLoop turns key f
      else some (true, key, f)

/-- `key_nlfile_read`: what it returns, the key, and the rest of the file -/
def keyNlfileRead (f : Bytes) : Option (Int × Bytes × Bytes) := do
  let (line, key, f) ← keyNlfileReadLoop (f.length + 1) [] f
  if line then
    let key := if key.getLast? = some 10 then key.dropLast else key
    return ((key.length : Int).bmod (2 ^ 32), key, f)
  return (-1, key, f)

/-- The loop of `count_nlfile_keys`. -/
def countNlfileKeysLoop : Nat → Nat → Bytes → Option Nat
  | 0, _, _ => none
  | turns + 1, count, f =>
    let (buf, f, eof) := fgets bufLen f
    if eof then some count
    else if strlen buf = 0 then none
    else if buf[strlen buf - 1]? ≠ some 10 then countNlfileKeysLoop turns count f
    else countNlfileKeysLoop turns (u32 (count + 1)) f

/-- `count_nlfile_keys` -/
def countNlfileKeys (f : Bytes) : Option Nat := countNlfileKeysLoop (f.length + 1) 0 f

/-- The keys that some calls of `key_source->read` give. What they return is not checked. -/
def readKeys : Nat → Bytes → Option (List Bytes)
  | 0, _ => some []
  | n + 1, f => do
    let (_, key, f) ← keyNlfileRead f
    return key :: (← readKeys n f)

/-- The keys of `cmph_io_nlfile_adapter`, each time after a `rewind`. -/
def nlfileKeys (f : Bytes) : Option (List Bytes) := do readKeys (← countNlfileKeys f) f

/-! ## Lines -/

variable {n : Nat} {key last content : Bytes} {keys : List Bytes}

/-- The bytes of a line. -/
def IsLine (key : Bytes) : Prop := 10 ∉ key ∧ 0 ∉ key

instance (key : Bytes) : Decidable (IsLine key) := inferInstanceAs (Decidable (_ ∧ _))

/-- A line that fits is read with its newline. -/
theorem fgets_of_lt (h10 : 10 ∉ key) (hlen : key.length < n) (rest : Bytes) :
    fgets n (key ++ 10 :: rest) = (key ++ [10], rest, false) := by
  induction key generalizing n with
  | nil =>
    obtain ⟨n, rfl⟩ := Nat.exists_eq_succ_of_ne_zero (by omega : n ≠ 0)
    rfl
  | cons c key ih =>
    obtain ⟨hc, h10⟩ := not_or.mp (mt List.mem_cons.mpr h10)
    rw [List.length_cons] at hlen
    obtain ⟨n, rfl⟩ := Nat.exists_eq_succ_of_ne_zero (by omega : n ≠ 0)
    rw [List.cons_append, fgets, if_neg (Ne.symm hc), ih h10 (by omega)]
    rfl

/-- At the end of the file there is no newline. -/
theorem fgets_eof (h10 : 10 ∉ key) (hlen : key.length < n) : fgets n key = (key, [], true) := by
  induction key generalizing n with
  | nil =>
    obtain ⟨n, rfl⟩ := Nat.exists_eq_succ_of_ne_zero (by omega : n ≠ 0)
    rfl
  | cons c key ih =>
    obtain ⟨hc, h10⟩ := not_or.mp (mt List.mem_cons.mpr h10)
    rw [List.length_cons] at hlen
    obtain ⟨n, rfl⟩ := Nat.exists_eq_succ_of_ne_zero (by omega : n ≠ 0)
    rw [fgets, if_neg (Ne.symm hc), ih h10 (by omega)]

/-- A longer line is read in pieces. -/
theorem fgets_of_ge (h10 : 10 ∉ key) (hlen : n ≤ key.length) (rest : Bytes) :
    fgets n (key ++ rest) = (key.take n, key.drop n ++ rest, false) := by
  induction key generalizing n with
  | nil =>
    obtain rfl := Nat.le_zero.mp hlen
    rfl
  | cons c key ih =>
    obtain ⟨hc, h10⟩ := not_or.mp (mt List.mem_cons.mpr h10)
    cases n with
    | zero => rfl
    | succ n =>
      rw [List.cons_append, fgets, if_neg (Ne.symm hc), ih h10 (Nat.le_of_succ_le_succ hlen)]
      rfl

theorem strlen_eq (h0 : 0 ∉ key) : strlen key = key.length := by
  rw [strlen, List.takeWhile_eq_self_iff.mpr]
  intro c hc
  simpa using fun h : c = 0 => h0 (h ▸ hc)

/-- Induction on the pieces of a line. -/
theorem line_induction {P : Bytes → Prop} (hshort : ∀ key : Bytes, key.length < bufLen → P key)
    (hlong : ∀ key : Bytes, bufLen ≤ key.length → P (key.drop bufLen) → P key) (key : Bytes) :
    P key := by
  induction hn : key.length using Nat.strong_induction_on generalizing key with
  | _ n ih =>
    rcases Nat.lt_or_ge key.length bufLen with hlt | hge
    · exact hshort key hlt
    · refine hlong key hge (ih (key.length - bufLen) ?_ _ List.length_drop)
      rw [bufLen] at hge ⊢
      omega

/-- What one turn of both loops reads: the end of the line, or a piece without a newline. -/
theorem strlen_last (h : IsLine key) :
    strlen (key ++ [10]) = key.length + 1 ∧ (key ++ [10])[key.length]? = some 10 := by
  refine ⟨?_, List.getElem?_concat_length⟩
  rw [strlen_eq, List.length_append, List.length_singleton]
  rw [List.mem_append, not_or]
  exact ⟨h.2, by decide⟩

theorem strlen_piece (h : IsLine key) (hlen : bufLen ≤ key.length) :
    strlen (key.take bufLen) = bufLen ∧ (key.take bufLen)[bufLen - 1]? ≠ some 10 := by
  refine ⟨?_, fun h10 => h.1 (List.mem_of_mem_take (List.mem_of_getElem? h10))⟩
  rw [strlen_eq fun h0 => h.2 (List.mem_of_mem_take h0), List.length_take, Nat.min_eq_left hlen]

theorem IsLine.drop (h : IsLine key) (n : Nat) : IsLine (key.drop n) :=
  ⟨fun h10 => h.1 (List.mem_of_mem_drop h10), fun h0 => h.2 (List.mem_of_mem_drop h0)⟩

theorem keyNlfileReadLoop_line (hkey : IsLine key) (front rest : Bytes) {turns : Nat}
    (hturns : key.length < turns) :
    keyNlfileReadLoop turns front (key ++ 10 :: rest) = some (true, front ++ key ++ [10], rest) := by
  induction key using line_induction generalizing turns front with
  | hshort key hlen =>
    obtain ⟨turns, rfl⟩ := Nat.exists_eq_succ_of_ne_zero (by omega : turns ≠ 0)
    obtain ⟨hstrlen, hlast⟩ := strlen_last hkey
    simp only [keyNlfileReadLoop, fgets_of_lt hkey.1 hlen, hstrlen, Nat.add_sub_cancel, hlast]
    rw [if_neg Bool.false_ne_true, if_neg (Nat.succ_ne_zero _), if_neg (not_not.mpr rfl),
      List.take_of_length_le (by rw [List.length_append]; rfl), List.append_assoc]
  | hlong key hlen ih =>
    obtain ⟨turns, rfl⟩ := Nat.exists_eq_succ_of_ne_zero (by omega : turns ≠ 0)
    obtain ⟨hstrlen, hlast⟩ := strlen_piece hkey hlen
    have hpos : bufLen ≠ 0 := by decide
    simp only [keyNlfileReadLoop, fgets_of_ge hkey.1 hlen, hstrlen]
    rw [if_neg Bool.false_ne_true, if_neg hpos, if_pos hlast, List.take_take, Nat.min_self,
      ih (hkey.drop _) _ (by rw [List.length_drop]; omega), List.append_assoc front,
      List.take_append_drop]

/-- The next key of the file is read. -/
theorem keyNlfileRead_line (hkey : IsLine key) (hlen : key.length < 2 ^ 31) (rest : Bytes) :
    keyNlfileRead (key ++ 10 :: rest) = some ((key.length : Int), key, rest) := by
  rw [keyNlfileRead, keyNlfileReadLoop_line hkey [] rest
    (by rw [List.length_append, List.length_cons]; omega), Option.bind_eq_bind, Option.bind_some]
  dsimp only
  rw [if_pos rfl, List.nil_append, if_pos List.getLast?_concat, List.dropLast_concat,
    Int.bmod_eq_of_le (by omega) (by omega)]
  rfl

theorem countNlfileKeysLoop_line (hkey : IsLine key) (rest : Bytes) {turns count : Nat}
    (hturns : key.length + (rest.length + 1) < turns) :
    ∃ turns', rest.length < turns' ∧
      countNlfileKeysLoop turns count (key ++ 10 :: rest) =
        countNlfileKeysLoop turns' (u32 (count + 1)) rest := by
  induction key using line_induction generalizing turns with
  | hshort key hlen =>
    obtain ⟨turns, rfl⟩ := Nat.exists_eq_succ_of_ne_zero (by omega : turns ≠ 0)
    obtain ⟨hstrlen, hlast⟩ := strlen_last hkey
    refine ⟨turns, by omega, ?_⟩
    simp only [countNlfileKeysLoop, fgets_of_lt hkey.1 hlen, hstrlen, Nat.add_sub_cancel, hlast]
    rw [if_neg Bool.false_ne_true, if_neg (Nat.succ_ne_zero _), if_neg (not_not.mpr rfl)]
  | hlong key hlen ih =>
    obtain ⟨turns, rfl⟩ := Nat.exists_eq_succ_of_ne_zero (by omega : turns ≠ 0)
    obtain ⟨hstrlen, hlast⟩ := strlen_piece hkey hlen
    have hpos : bufLen ≠ 0 := by decide
    have hdrop : (key.drop bufLen).length + (rest.length + 1) < turns := by
      rw [List.length_drop]
      omega
    obtain ⟨turns', hturns', hrun⟩ := ih (hkey.drop _) hdrop
    refine ⟨turns', hturns', ?_⟩
    simp only [countNlfileKeysLoop, fgets_of_ge hkey.1 hlen, hstrlen]
    rw [if_neg Bool.false_ne_true, if_neg hpos, if_pos hlast, hrun]

/-- What is left behind the last newline is not counted. -/
theorem countNlfileKeysLoop_last (hlast : IsLine last) {turns count : Nat}
    (hturns : last.length < turns) : countNlfileKeysLoop turns count last = some count := by
  induction last using line_induction generalizing turns with
  | hshort last hlen =>
    obtain ⟨turns, rfl⟩ := Nat.exists_eq_succ_of_ne_zero (by omega : turns ≠ 0)
    simp only [countNlfileKeysLoop, fgets_eof hlast.1 hlen]
    rfl
  | hlong last hlen ih =>
    obtain ⟨turns, rfl⟩ := Nat.exists_eq_succ_of_ne_zero (by omega : turns ≠ 0)
    obtain ⟨hstrlen, hnewline⟩ := strlen_piece hlast hlen
    have hpos : bufLen ≠ 0 := by decide
    have hpiece := fgets_of_ge hlast.1 hlen []
    rw [List.append_nil, List.append_nil] at hpiece
    simp only [countNlfileKeysLoop, hpiece, hstrlen]
    rw [if_neg Bool.false_ne_true, if_neg hpos, if_pos hnewline,
      ih (hlast.drop _) (by rw [List.length_drop]; omega)]

/-! ## Files -/

/-- The file with one key on each line. -/
def lines (keys : List Bytes) : Bytes := keys.flatMap fun key => key ++ [10]

theorem lines_cons (key : Bytes) (keys : List Bytes) (f : Bytes) :
    lines (key :: keys) ++ f = key ++ 10 :: (lines keys ++ f) := by
  rw [lines, List.flatMap_cons, List.append_assoc, List.append_assoc]
  rfl

theorem countNlfileKeysLoop_lines (hkeys : ∀ key ∈ keys, IsLine key) (hlast : IsLine last)
    {turns count : Nat} (hcount : count + keys.length < 2 ^ 32)
    (hturns : (lines keys ++ last).length < turns) :
    countNlfileKeysLoop turns count (lines keys ++ last) = some (count + keys.length) := by
  induction keys generalizing turns count with
  | nil => exact countNlfileKeysLoop_last hlast hturns
  | cons key keys ih =>
    obtain ⟨hkey, hkeys⟩ := List.forall_mem_cons.mp hkeys
    rw [List.length_cons] at hcount
    rw [lines_cons] at hturns ⊢
    rw [List.length_append, List.length_cons] at hturns
    obtain ⟨turns', hturns', hrun⟩ := countNlfileKeysLoop_line hkey (lines keys ++ last) hturns
    have hsucc : u32 ((count : Int) + 1) = count + 1 := u32_of_eq (by omega) (by push_cast; rfl)
    rw [hrun, hsucc, ih hkeys (by omega) hturns', List.length_cons]
    congr 1
    omega

theorem readKeys_lines (hkeys : ∀ key ∈ keys, IsLine key ∧ key.length < 2 ^ 31) (rest : Bytes) :
    readKeys keys.length (lines keys ++ rest) = some keys := by
  induction keys with
  | nil => rfl
  | cons key keys ih =>
    obtain ⟨⟨hkey, hlen⟩, hkeys⟩ := List.forall_mem_cons.mp hkeys
    rw [List.length_cons, readKeys, lines_cons, keyNlfileRead_line hkey hlen, Option.bind_eq_bind,
      Option.bind_some]
    dsimp only
    rw [ih hkeys]
    rfl

theorem nlfileKeys_lines (hkeys : ∀ key ∈ keys, IsLine key ∧ key.length < 2 ^ 31)
    (hlast : IsLine last) (hlen : keys.length < 2 ^ 32) :
    nlfileKeys (lines keys ++ last) = some keys := by
  have hcount : countNlfileKeys (lines keys ++ last) = some keys.length := by
    rw [countNlfileKeys, countNlfileKeysLoop_lines (fun key hkey => (hkeys key hkey).1) hlast
      (by omega) (Nat.lt_succ_self _), Nat.zero_add]
  rw [nlfileKeys, hcount, Option.bind_eq_bind, Option.bind_some, readKeys_lines hkeys]

/-- The lines of a file that end with a newline. -/
def fullLines (content : Bytes) : List Bytes := (content.splitOn 10).dropLast

theorem splitOn_lines (hkeys : ∀ key ∈ keys, 10 ∉ key) (hlast : 10 ∉ last) :
    (lines keys ++ last).splitOn 10 = keys ++ [last] := by
  induction keys with
  | nil => exact List.splitOn_eq_singleton hlast
  | cons key keys ih =>
    obtain ⟨hkey, hkeys⟩ := List.forall_mem_cons.mp hkeys
    rw [lines_cons, List.splitOn_append_cons_self_of_not_mem hkey, ih hkeys]
    rfl

theorem fullLines_lines (hkeys : ∀ key ∈ keys, 10 ∉ key) (hlast : 10 ∉ last) :
    fullLines (lines keys ++ last) = keys := by
  rw [fullLines, splitOn_lines hkeys hlast, List.dropLast_concat]

/-- A file is made of the lines that end with a newline, and what is left. -/
theorem exists_lines (content : Bytes) : ∃ keys last, content = lines keys ++ last ∧
    (∀ key ∈ keys, 10 ∉ key) ∧ 10 ∉ last := by
  induction content with
  | nil => exact ⟨[], [], rfl, nofun, List.not_mem_nil⟩
  | cons c content ih =>
    obtain ⟨keys, last, rfl, hkeys, hlast⟩ := ih
    by_cases hc : c = 10
    · exact ⟨[] :: keys, last, by rw [hc]; rfl, List.forall_mem_cons.mpr ⟨List.not_mem_nil, hkeys⟩,
        hlast⟩
    · have hcons {key : Bytes} (hkey : 10 ∉ key) : 10 ∉ c :: key :=
        mt List.mem_cons.mp (not_or.mpr ⟨Ne.symm hc, hkey⟩)
      cases keys with
      | nil => exact ⟨[], c :: last, rfl, nofun, hcons hlast⟩
      | cons key keys =>
        obtain ⟨hkey, hkeys⟩ := List.forall_mem_cons.mp hkeys
        exact ⟨(c :: key) :: keys, last, rfl, List.forall_mem_cons.mpr ⟨hcons hkey, hkeys⟩, hlast⟩

theorem mem_of_mem_fullLines {key : Bytes} {c : UInt8} (hkey : key ∈ fullLines content)
    (hc : c ∈ key) : c ∈ content := by
  obtain ⟨keys, last, rfl, hkeys, hlast⟩ := exists_lines content
  rw [fullLines_lines hkeys hlast] at hkey
  exact List.mem_append_left _ (List.mem_flatMap.mpr ⟨key, hkey, List.mem_append_left _ hc⟩)

/-- The keys of a file are the lines that end with a newline. -/
theorem nlfileKeys_eq (h0 : 0 ∉ content) (hlen : ∀ key ∈ fullLines content, key.length < 2 ^ 31)
    (hcount : (fullLines content).length < 2 ^ 32) :
    nlfileKeys content = some (fullLines content) := by
  have hmem {key : Bytes} : key ∈ fullLines content → 0 ∉ key := fun hkey h =>
    h0 (mem_of_mem_fullLines hkey h)
  obtain ⟨keys, last, rfl, hkeys, hlast⟩ := exists_lines content
  rw [fullLines_lines hkeys hlast] at hlen hcount hmem ⊢
  exact nlfileKeys_lines (fun key hkey => ⟨⟨hkeys key hkey, hmem hkey⟩, hlen key hkey⟩)
    ⟨hlast, mt (List.mem_append_right _) h0⟩ hcount

end PerfectHash.Cmph
