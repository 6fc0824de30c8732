import PerfectHash.C.Compare
import PerfectHash.Lib.CSwitch

/-! # Nested switches (`Perfect::Hash::Switch`)

`save_c` writes a function that switches on the length of the string and then on the byte of the
keys of that length that tells most of them apart. Where more than three keys share that byte, it
closes the switch with a `default` that holds two switches, one for these keys and one for the
rest. What is printed is a list of C statements here; comments and blanks are left out, and a
literal is what it stands for. -/

namespace PerfectHash

/-! ## Generating the switches -/

/-- The object `[$dict, \%options]` for a dictionary whose values are integers, with or without sign.
The keys come in the order in which `keys %$dict` gives them. -/
structure Switch where
  dict : List (Bytes × Int)
  nodup : (dict.map Prod.fst).Nodup
  bounds : ∀ e ∈ dict, -2 ^ 63 ≤ e.2 ∧ e.2 < 2 ^ 64
  options : List String

namespace Switch

open C CValues CSwitch

/-- What a switch is about. -/
inductive Scrutinee where
  /-- `l` -/
  | length
  /-- `su[i]` -/
  | byte (i : Nat)
  deriving Repr

abbrev Stmt := CSwitch.Stmt Test Scrutinee Int

/-- `keys %$dict` -/
def keys (ph : Switch) : List Bytes := ph.dict.map Prod.fst

/-- `$dict->{$k}` -/
def get? (ph : Switch) (k : Bytes) : Option Int := (ph.dict.find? (·.1 = k)).map Prod.snd

/-- `$dict->{$k}` of a key. -/
def get (ph : Switch) (k : Bytes) : Int := (ph.get? k).getD 0

/-- `substr($k, $i, 1)` -/
def char (i : Nat) (k : Bytes) : UInt8 := k.getD i 0

/-- How often a character stands at position `i` of the keys: `$h{$c}`. -/
def count (i : Nat) (cand : List Bytes) (c : UInt8) : Nat := (cand.map (char i)).count c

/-- The search for the position where the keys have most different characters. The state is the
number of them and the position. -/
def findMaxkeys (cand : List Bytes) : Nat × Nat → List Nat → Nat × Nat
  | maxkeys, [] => maxkeys
  | maxkeys, i :: positions =>
    let keys := (cand.map (char i)).dedup.length
    let maxkeys := if keys > maxkeys.1 then (keys, i) else maxkeys
    if keys = cand.length then maxkeys else findMaxkeys cand maxkeys positions

/-- A string that Perl counts as true. -/
def truthy (k : Bytes) : Bool := k ≠ [] ∧ k ≠ [48]

/-- `grep { substr($_,$i,1) eq $c ? $_ : undef } @$cand` -/
def grepEq (i : Nat) (c : UInt8) (cand : List Bytes) : List Bytes :=
  cand.filter fun k => char i k = c ∧ truthy k

/-- `grep { substr($_,$i,1) ne $c ? $_ : undef } @$cand` -/
def grepNe (i : Nat) (c : UInt8) (cand : List Bytes) : List Bytes :=
  cand.filter fun k => char i k ≠ c ∧ truthy k

/-- The character `c` stands in more than three keys, but not in all. -/
def Excess (i : Nat) (cand : List Bytes) (c : UInt8) : Prop :=
  count i cand c > 3 ∧ (grepEq i c cand).length < cand.length

instance (i : Nat) (cand : List Bytes) (c : UInt8) : Decidable (Excess i cand c) :=
  inferInstanceAs (Decidable (_ ∧ _))

section
variable (dict : Bytes → Int)

/-- `if (..) return $v;` -/
def check (l : Nat) (s : Bytes) : Stmt := .ifReturn (memcmpConstStr s l) (dict s)

/-- `case $case` -/
def caseLabel (c : UInt8) : Stmt := .label (.case (charLit c).value)

/-- The loop over the sorted keys, with `$old_c` and `$new_case`: the cases, and the character that
ended the loop because more than three keys have it. -/
def cases (i l : Nat) (cand : List Bytes) :
    List Bytes → Option UInt8 → Bool → List Stmt × Option UInt8
  | [], _, _ => ([], none)
  | s :: sorted, oldC, newCase =>
    let c := char i s
    if Excess i cand c then ([], some c)
    else
      let brk := if newCase ∧ some c ≠ oldC then [.break] else []
      if count i cand c = 1 then
        let (body, excess) := cases i l cand sorted oldC true
        (brk ++ caseLabel c :: check dict l s :: body, excess)
      else if some c ≠ oldC then
        let (body, excess) := cases i l cand sorted (some c) true
        (brk ++ caseLabel c :: check dict l s :: body, excess)
      else
        let (body, excess) := cases i l cand sorted (some c) newCase
        (brk ++ check dict l s :: body, excess)

/-- The character that ended the loop is one of the sorted keys. -/
theorem exists_of_cases {sorted : List Bytes} {oldC : Option UInt8} {newCase : Bool}
    (h : cases dict i l cand sorted oldC newCase = (body, some c)) :
    (∃ s ∈ sorted, char i s = c) ∧ Excess i cand c := by
  induction sorted generalizing oldC newCase body with
  | nil => cases h
  | cons s sorted ih =>
    have next {oldC : Option UInt8} {newCase : Bool}
        (h : (cases dict i l cand sorted oldC newCase).2 = some c) :
        (∃ s' ∈ s :: sorted, char i s' = c) ∧ Excess i cand c := by
      obtain ⟨⟨s', hs', hc⟩, hexcess⟩ := ih (Prod.ext rfl h)
      exact ⟨⟨s', List.mem_cons_of_mem _ hs', hc⟩, hexcess⟩
    rw [cases] at h
    dsimp only at h
    split at h
    · cases h
      exact ⟨⟨s, List.mem_cons_self, rfl⟩, ‹_›⟩
    · split at h
      · exact next (congrArg Prod.snd h)
      · split at h
        · exact next (congrArg Prod.snd h)
        · exact next (congrArg Prod.snd h)

/-- Where a key has a byte, the keys with another byte are fewer. -/
theorem length_grepNe_lt {cand : List Bytes} {s : Bytes} (hs : s ∈ cand) (hc : char i s = c) :
    (grepNe i c cand).length < cand.length := by
  refine List.length_filter_lt_length_iff_exists.mpr ⟨s, hs, ?_⟩
  simp only [decide_eq_true_eq, not_and]
  exact fun hne => absurd hc hne

/-- `_do_switch($ph, $FH, $cand, $last, $indent)` -/
def doSwitch (cand : List Bytes) (last : Bool) (indent : Nat) : List Stmt :=
  let l := (cand.headD []).length
  let i := (findMaxkeys cand (0, 0) (List.range l)).2
  match h : cases dict i l cand (sortOn (fun k => (char i k).toNat) cand) none false with
  | (body, some c) =>
    .switch (.byte i) (body ++ .label .default ::
      (doSwitch (grepEq i c cand) false (indent + 1) ++
        doSwitch (grepNe i c cand) last (indent + 1))) ::
        if last then [.return (-1)] else []
  | (body, none) =>
    .switch (.byte i) (body ++ if last then [.label .default, .return (-1)] else []) ::
      if indent = 1 ∧ last then [.return (-1)] else []
termination_by cand.length
decreasing_by
  · exact (exists_of_cases dict h).2.2
  · obtain ⟨⟨s, hs, hc⟩, -⟩ := exists_of_cases dict h
    exact length_grepNe_lt ((sortOn_perm _ _).mem_iff.mp hs) hc

/-- `_do_cand($ph, $FH, $l, $cand)` -/
def doCand (l : Nat) (cand : List Bytes) : List Stmt :=
  .label (.case l) ::
    match cand with
    | [s0] => [.returnIf (memcmpConstStr s0 l) (dict s0) (-1)]
    | _ => doSwitch dict cand true 1

/-- The loop of `save_c` over the keys in the order of their lengths, with `$old` and `@cand`. -/
def dispatch : List Bytes → Option Nat → List Bytes → List Stmt
  | [], old, cand => if cand = [] then [] else doCand dict (old.getD 0) cand
  | s :: sorted, old, cand =>
    let l := s.length
    if l = 0 then dispatch sorted old cand
    else
      let old := old.getD l
      if l ≠ old ∧ cand ≠ [] then doCand dict old cand ++ dispatch sorted (some l) [s]
      else dispatch sorted (some l) (cand ++ [s])

end

/-- The generated C file. -/
structure CFile where
  nul : Bool
  body : List Stmt

/-- `save_c` -/
def saveC (ph : Switch) : CFile where
  nul := "-nul" ∈ ph.options
  body := [.switch .length (dispatch ph.get (sortOn List.length ph.keys) none []), .return (-1)]

/-! ## Running the generated code -/

/-- The numbers that the tests and switches of the generated function are about. -/
def env (su : Bytes) (l : Int) : Env Test Scrutinee where
  test t := t.eval su
  value
    | .length => some l
    | .byte i => su[i]?.map fun b => (b.toNat : Int)

/-- `<base>_lookup(s)`, or `<base>_lookup(s, l)` with `-nul`. The number behind a `return` is
converted to the type `long` of the function. -/
def CFile.lookup (c : CFile) (s : Bytes) (l : Nat) : Option Int := do
  let l ← if c.nul then some (int.conv l) else (strlen s).map fun l : Nat => unsignedInt.conv l
  match ← execList (env s l) c.body with
  | .return v => some (long.conv v)
  | _ => none

end Switch
end PerfectHash
