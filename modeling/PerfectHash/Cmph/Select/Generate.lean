import PerfectHash.Cmph.Select

/-! # What `select_generate` stores

The table of words holds the unary code of the numbers, and the select table the positions of every
128th one (`selectGenerate_holds`). -/

namespace PerfectHash.Cmph

open BitString RankSelect

variable {s s' : SelectLoop} {E l : List Bool} {bit : Bool} {n m k turns : Nat}
  {keysVec rest : List Nat} {bitsTable : Bytes}

/-! ## The buffer -/

theorem getLsbD_selectInsert (buffer : BitVec 32) (bit : Bool) (k : Nat) :
    (if bit then selectInsert1 buffer else selectInsert0 buffer).getLsbD k =
      if k = 31 then bit else buffer.getLsbD (k + 1) := by
  have htop : (0x80000000 : BitVec 32).getLsbD k = decide (k = 31) := by
    have h := getLsbD_bitmask32 k 31
    rw [show bitmask32 31 = 0x80000000 by decide] at h
    exact h.trans (decide_eq_decide.mpr (and_iff_left (by decide)))
  have hout : k = 31 → buffer.getLsbD (k + 1) = false := fun h =>
    BitVec.getLsbD_of_ge _ _ (by omega)
  cases bit with
  | false =>
    rw [if_neg Bool.false_ne_true, selectInsert0, BitVec.getLsbD_ushiftRight, Nat.add_comm]
    split
    · rename_i h
      exact hout h
    · rfl
  | true =>
    rw [if_pos rfl, selectInsert1, BitVec.getLsbD_or, BitVec.getLsbD_ushiftRight, Nat.add_comm,
      htop]
    split
    · rename_i h
      rw [decide_eq_true h, Bool.or_true]
    · rename_i h
      rw [decide_eq_false h, Bool.or_false]

/-- The bits `E` were inserted: the last ones are in the buffer, and the full words are stored. -/
structure SelectLoop.Emitted (s : SelectLoop) (E : List Bool) : Prop where
  idx : s.idx = E.length
  buffer : ∀ k < 32, k < E.length → s.buffer.getLsbD (31 - k) = E.getD (E.length - 1 - k) false
  stored : ∀ k < 32 * s.bitsVec.length,
    (bits s.bitsVec)[k]? = some (decide (k / 32 < E.length / 32) && E.getD k false)

theorem SelectLoop.Emitted.start (n : Nat) {i j : Nat} :
    SelectLoop.Emitted { buffer := 0, idx := 0, i, j, bitsVec := List.replicate n 0 } [] where
  idx := rfl
  buffer k _ h := absurd h (Nat.not_lt_zero k)
  stored k hk := by
    rw [List.length_replicate] at hk
    rw [bits_replicate_zero, List.getElem?_replicate, if_pos hk]
    simp

theorem SelectLoop.Emitted.insert (hs : s.Emitted E) (hvec : E.length < 32 * s.bitsVec.length)
    (hlen : E.length + 1 < 2 ^ 32) (bit : Bool) :
    ∃ s', s.insert bit = some s' ∧ s'.Emitted (E ++ [bit]) ∧ s'.i = s.i ∧ s'.j = s.j ∧
      s'.bitsVec.length = s.bitsVec.length := by
  have hidx : u32 (s.idx + 1) = E.length + 1 := by
    rw [hs.idx]
    exact u32_of_eq hlen (by push_cast; rfl)
  have hlength : (E ++ [bit]).length = E.length + 1 := List.length_append
  have hget {k : Nat} (hk : k < E.length) : (E ++ [bit]).getD k false = E.getD k false :=
    List.getD_append _ _ _ _ hk
  have hlast : (E ++ [bit]).getD E.length false = bit := by simp
  have hbuffer (k : Nat) (hk : k < 32) (hlt : k < (E ++ [bit]).length) :
      (if bit then selectInsert1 s.buffer else selectInsert0 s.buffer).getLsbD (31 - k) =
        (E ++ [bit]).getD ((E ++ [bit]).length - 1 - k) false := by
    rw [getLsbD_selectInsert, hlength, Nat.add_sub_cancel]
    cases k with
    | zero => rw [if_pos rfl, Nat.sub_zero, hlast]
    | succ k =>
      rw [hlength] at hlt
      rw [if_neg (by omega), show 31 - (k + 1) + 1 = 31 - k by omega,
        hs.buffer k (by omega) (by omega), hget (by omega), Nat.sub_sub, Nat.add_comm 1]
  simp only [SelectLoop.insert, hidx, and_thirtyOne, shiftRight_five]
  split
  · rename_i hfull
    have hdiv : (E.length + 1) / 32 - 1 = E.length / 32 := by omega
    have hlt : E.length / 32 < s.bitsVec.length := by omega
    rw [hdiv, write_of_lt hlt]
    refine ⟨_, rfl, ⟨hlength.symm, hbuffer, fun k hk => ?_⟩, rfl, rfl, List.length_set⟩
    dsimp only at hk ⊢
    rw [List.length_set] at hk
    rw [getElem?_bits_set (by decide) hlt, hlength]
    split
    · rename_i hk'
      have h := hbuffer (31 - k % 32) (by omega) (by rw [hlength]; omega)
      rw [hlength, show 31 - (31 - k % 32) = k % 32 by omega,
        show E.length + 1 - 1 - (31 - k % 32) = k by omega] at h
      rw [h, decide_eq_true (by omega), Bool.true_and]
    · rename_i hk'
      rw [hs.stored k hk]
      by_cases hlt' : k / 32 < E.length / 32
      · rw [decide_eq_true hlt', decide_eq_true (by omega), hget (by omega)]
      · rw [decide_eq_false hlt', decide_eq_false (by omega), Bool.false_and, Bool.false_and]
  · rename_i hfull
    refine ⟨_, rfl, ⟨hlength.symm, hbuffer, fun k hk => ?_⟩, rfl, rfl, rfl⟩
    rw [hlength, hs.stored k hk, show (E.length + 1) / 32 = E.length / 32 by omega]
    by_cases hlt : k / 32 < E.length / 32
    · rw [hget (by omega)]
    · rw [decide_eq_false hlt, Bool.false_and, Bool.false_and]

/-- Storing the last buffer. Then the table holds the bits, with zeros behind. -/
theorem SelectLoop.Emitted.finish (hs : s.Emitted E) (hvec : E.length ≤ 32 * s.bitsVec.length)
    (hlen : E.length < 2 ^ 32) :
    ∃ bitsVec, s.finish = some bitsVec ∧ bitsVec.length = s.bitsVec.length ∧ bits bitsVec =
      E ++ List.replicate (32 * s.bitsVec.length - E.length) false := by
  have hexact {bitsVec : List (BitVec 32)} (hlength : bitsVec.length = s.bitsVec.length)
      (h : ∀ k < 32 * s.bitsVec.length, (bits bitsVec)[k]? = some (E.getD k false)) :
      bits bitsVec = E ++ List.replicate (32 * s.bitsVec.length - E.length) false := by
    refine List.ext_getElem? fun k => ?_
    by_cases hk : k < 32 * s.bitsVec.length
    · rw [h k hk]
      by_cases hE : k < E.length
      · rw [List.getElem?_append_left hE, List.getD_eq_getElem _ _ hE, List.getElem?_eq_getElem hE]
      · rw [List.getElem?_append_right (Nat.le_of_not_lt hE), List.getElem?_replicate,
          if_pos (by omega), List.getD_eq_default _ _ (Nat.le_of_not_lt hE)]
    · rw [List.getElem?_eq_none (by rw [length_bits, hlength]; omega),
        List.getElem?_eq_none (by rw [List.length_append, List.length_replicate]; omega)]
  rw [SelectLoop.finish, hs.idx, and_thirtyOne, shiftRight_five]
  split
  · rename_i hrest
    have hidx : u32 ((E.length : Int) - 1) = E.length - 1 := u32_of_eq (by omega) (by omega)
    have hlt : (E.length - 1) / 32 < s.bitsVec.length := by omega
    rw [hidx, write_of_lt hlt]
    refine ⟨_, rfl, List.length_set, hexact List.length_set fun k hk => ?_⟩
    rw [getElem?_bits_set (by decide) hlt]
    split
    · rename_i hk'
      rw [BitVec.getLsbD_ushiftRight]
      by_cases hE : k < E.length
      · have h := hs.buffer (E.length - 1 - k) (by omega) (by omega)
        rw [show E.length - 1 - (E.length - 1 - k) = k by omega] at h
        rw [← h]
        congr 2
        omega
      · rw [BitVec.getLsbD_of_ge _ _ (by omega), List.getD_eq_default _ _ (Nat.le_of_not_lt hE)]
    · rename_i hk'
      rw [hs.stored k hk]
      by_cases hlt' : k / 32 < E.length / 32
      · rw [decide_eq_true hlt', Bool.true_and]
      · rw [decide_eq_false hlt', Bool.false_and, List.getD_eq_default _ _ (by omega)]
  · rename_i hrest
    refine ⟨_, rfl, rfl, hexact rfl fun k hk => ?_⟩
    rw [hs.stored k hk]
    by_cases hlt' : k / 32 < E.length / 32
    · rw [decide_eq_true hlt', Bool.true_and]
    · rw [decide_eq_false hlt', Bool.false_and, List.getD_eq_default _ _ (by omega)]

/-! ## The loop over the numbers -/

/-- The loops insert the unary code of the numbers that are left. Each bit takes at most two
turns. -/
theorem selectLoop_spec {phase : Bool} {key : Nat} (hrest : keysVec.drop s.j = key :: rest)
    (hn : keysVec.length = n) (hn32 : n < 2 ^ 32) (hm32 : m < 2 ^ 32)
    (hsorted : (s.i :: key :: rest).Pairwise (· ≤ ·)) (hm : ∀ k ∈ key :: rest, k ≤ m)
    (hs : s.Emitted E)
    (hvec : E.length + (unary s.i (key :: rest)).length ≤ 32 * s.bitsVec.length)
    (hlen : E.length + (unary s.i (key :: rest)).length < 2 ^ 32)
    (hturns : 2 * (unary s.i (key :: rest)).length ≤
      turns + if phase = decide (key = s.i) then 1 else 0) :
    ∃ s', selectLoop keysVec n m turns phase s = some s' ∧
      s'.Emitted (E ++ unary s.i (key :: rest)) ∧ s'.bitsVec.length = s.bitsVec.length := by
  induction turns generalizing phase s E key rest with
  | zero =>
    simp only [unary, List.length_append, List.length_cons] at hturns
    split at hturns <;> omega
  | succ turns ih =>
    have hj : s.j < keysVec.length := by
      by_contra hge
      rw [List.drop_eq_nil_of_le (Nat.le_of_not_lt hge)] at hrest
      cases hrest
    rw [List.drop_eq_getElem_cons hj] at hrest
    obtain ⟨hkey, hdrop⟩ := List.cons.inj hrest
    have hget : keysVec[s.j]? = some key := by rw [List.getElem?_eq_getElem hj, hkey]
    have hle : s.i ≤ key := (List.pairwise_cons.mp hsorted).1 key List.mem_cons_self
    have hkm := hm key List.mem_cons_self
    rcases Nat.eq_or_lt_of_le hle with hi | hi
    · cases phase with
      | false =>
        simp only [selectLoop, hget, Option.bind_eq_bind, Option.bind_some,
          if_neg (Nat.not_lt.mpr hi.ge)]
        refine ih (by rw [List.drop_eq_getElem_cons hj, hkey, hdrop]) hsorted hm hs hvec hlen ?_
        rw [decide_eq_true hi.symm] at hturns ⊢
        simpa using hturns
      | true =>
        -- a one is inserted
        have hunary : unary s.i (key :: rest) = true :: unary s.i rest := by
          rw [unary, ← hi, Nat.sub_self]
          rfl
        rw [hunary, List.length_cons] at hvec hlen hturns
        obtain ⟨s1, hinsert, hs1, hi1, hj1, hvec1⟩ := hs.insert (by omega) (by omega) true
        have hu : u32 (s1.j + 1) = s.j + 1 := by
          rw [hj1]
          exact u32_of_eq (by omega) (by push_cast; rfl)
        simp only [selectLoop, hget, Option.bind_eq_bind, Option.bind_some, if_pos hi.symm,
          hinsert, hu]
        rw [hunary]
        split
        · rename_i hend
          have hnil : rest = [] := by
            rw [← hdrop]
            exact List.drop_eq_nil_of_le (by omega)
          subst hnil
          exact ⟨_, rfl, ⟨hs1.idx, hs1.buffer, hs1.stored⟩, hvec1⟩
        · rename_i hend
          obtain ⟨key', rest', rfl⟩ : ∃ key' rest', rest = key' :: rest' := by
            refine List.exists_cons_of_ne_nil fun h => ?_
            rw [h, List.drop_eq_nil_iff] at hdrop
            omega
          have hE : E.length + 1 = (E ++ [true]).length := by rw [List.length_append]; rfl
          obtain ⟨s', hloop, hs', hvec'⟩ := @ih { s1 with j := s.j + 1 } _ _ true _ hdrop
            (by rw [hi1, hi]; exact (List.pairwise_cons.mp hsorted).2)
            (List.forall_mem_cons.mp hm).2 ⟨hs1.idx, hs1.buffer, hs1.stored⟩
            (by dsimp only; rw [← hE, hi1, hvec1]; omega) (by dsimp only; rw [← hE, hi1]; omega)
            (by dsimp only; rw [hi1]; split at hturns <;> split <;> omega)
          refine ⟨s', hloop, ?_, hvec'.trans hvec1⟩
          rwa [List.append_assoc, hi1] at hs'
    · cases phase with
      | true =>
        simp only [selectLoop, hget, Option.bind_eq_bind, Option.bind_some, if_neg hi.ne',
          if_neg (show s.i ≠ m by omega)]
        refine ih (by rw [List.drop_eq_getElem_cons hj, hkey, hdrop]) hsorted hm hs hvec hlen ?_
        rw [decide_eq_false hi.ne'] at hturns ⊢
        simpa using hturns
      | false =>
        -- a zero is inserted
        have hunary : unary s.i (key :: rest) = false :: unary (s.i + 1) (key :: rest) := by
          rw [unary, unary, show key - s.i = key - (s.i + 1) + 1 by omega, List.replicate_succ]
          rfl
        rw [hunary, List.length_cons] at hvec hlen hturns
        obtain ⟨s1, hinsert, hs1, hi1, hj1, hvec1⟩ := hs.insert (by omega) (by omega) false
        have hu : u32 (s1.i + 1) = s.i + 1 := by
          rw [hi1]
          exact u32_of_eq (by omega) (by push_cast; rfl)
        simp only [selectLoop, hget, Option.bind_eq_bind, Option.bind_some, if_pos hi, hinsert, hu]
        have hE : E.length + 1 = (E ++ [false]).length := by rw [List.length_append]; rfl
        have hsorted' : ((s.i + 1) :: key :: rest).Pairwise (· ≤ ·) := by
          obtain ⟨hrest', hsorted⟩ := List.pairwise_cons.mp (List.pairwise_cons.mp hsorted).2
          exact List.pairwise_cons.mpr ⟨List.forall_mem_cons.mpr
            ⟨hi, fun k hk => Nat.le_trans hi (hrest' k hk)⟩,
            List.pairwise_cons.mpr ⟨hrest', hsorted⟩⟩
        obtain ⟨s', hloop, hs', hvec'⟩ := @ih { s1 with i := s.i + 1 } _ _ false _
          (by rw [hj1, List.drop_eq_getElem_cons hj, hkey, hdrop]) hsorted' hm
          ⟨hs1.idx, hs1.buffer, hs1.stored⟩ (by dsimp only; rw [← hE, hvec1]; omega)
          (by dsimp only; rw [← hE]; omega)
          (by dsimp only; split at hturns <;> split <;> omega)
        refine ⟨s', hloop, ?_, hvec'.trans hvec1⟩
        rw [hunary]
        rwa [List.append_assoc] at hs'

/-! ## Counting ones byte by byte -/

/-- Counting from byte `v` on, with `old` ones before it, ends behind the byte of the one. -/
theorem scanOnes_spec {bs : Bytes} {j p v old : Nat} (hsel : select (byteBits bs) j = some p)
    (hold : old + j + 8 < 2 ^ 32) (hpos : 8 * v + p < 2 ^ 32) :
    scanOnes (old + j) bs v old =
      some (8 * v + p, v + p / 8 + 1, old + rank (byteBits bs) (8 * (p / 8 + 1))) := by
  induction bs generalizing j p v old with
  | nil => cases hsel
  | cons b bs ih =>
    have hle := ones_le_length (word 8 b.toBitVec)
    rw [length_word, ← rankLookup_eq] at hle
    rw [byteBits_cons, select_append, ← rankLookup_eq, length_word] at hsel
    have hsum : u32 ((old : Int) + rankLookup b) = old + rankLookup b :=
      u32_of_eq (by omega) (by push_cast; rfl)
    have hrank (k : Nat) : rank (byteBits (b :: bs)) (8 + k) =
        rankLookup b + rank (byteBits bs) k := by
      rw [rank_add, byteBits_cons, rank, List.take_left' (length_word _ _),
        List.drop_left' (length_word _ _), rankLookup_eq]
    simp only [scanOnes, hsum]
    split at hsel
    · rename_i hj
      have hp : p < 8 := by
        have hlt := lt_of_select hsel
        rwa [length_word] at hlt
      have hidx : u32 (((old + j : Nat) : Int) - old) = j := u32_of_eq (by omega) (by omega)
      rw [if_neg (by omega), hidx, selectLookup_eq hsel, Nat.div_eq_of_lt hp,
        show 8 * (0 + 1) = 8 + 0 from rfl, hrank]
      have hres : u32 ((p : Int) + v * 8) = 8 * v + p := u32_of_eq hpos (by omega)
      rw [Option.bind_eq_bind, Option.bind_some, hres]
      rfl
    · rename_i hj
      obtain ⟨p', hsel', rfl⟩ := Option.map_eq_some_iff.mp hsel
      rw [if_pos (by omega), show old + j = old + rankLookup b + (j - rankLookup b) by omega,
        ih hsel' (by omega) (by omega), show (p' + 8) / 8 = p' / 8 + 1 by omega,
        show 8 * (p' / 8 + 1 + 1) = 8 + 8 * (p' / 8 + 1) by omega, hrank]
      simp only [Option.some.injEq, Prod.mk.injEq]
      omega

/-- The same from the byte `v` of a table on, with all ones before it counted. -/
theorem scanOnes_drop {j p v : Nat} (hsel : select (byteBits bitsTable) j = some p)
    (hv : rank (byteBits bitsTable) (8 * v) ≤ j) (hj : j + 8 < 2 ^ 32) (hp : p < 2 ^ 32) :
    scanOnes j (bitsTable.drop v) v (rank (byteBits bitsTable) (8 * v)) =
      some (p, p / 8 + 1, rank (byteBits bitsTable) (8 * (p / 8 + 1))) := by
  obtain ⟨hle, hdrop⟩ := select_drop hsel hv
  rw [← byteBits_drop] at hdrop
  have h := @scanOnes_spec _ _ _ v (rank (byteBits bitsTable) (8 * v)) hdrop
    (by omega) (by omega)
  rw [Nat.add_sub_cancel' hv] at h
  rw [h, show v + (p - 8 * v) / 8 + 1 = p / 8 + 1 by omega, byteBits_drop, ← rank_add,
    show 8 * v + 8 * ((p - 8 * v) / 8 + 1) = 8 * (p / 8 + 1) by omega,
    show 8 * v + (p - 8 * v) = p by omega]

/-- The table has the positions of the ones `0`, `128`, .. up to the one number `128 * q`, which is
not noted any more. -/
def Noted (l : List Bool) (selectTable : List (BitVec 32)) (q : Nat) : Prop :=
  ∀ q' < q, ∃ p, select l (128 * q') = some p ∧ selectTable[q']? = some (BitVec.ofNat 32 p)

theorem selectGenerateSelTable_spec {selectTable : List (BitVec 32)} {v q : Nat}
    (hn : n ≤ ones (byteBits bitsTable)) (hlen : 8 * bitsTable.length ≤ 2 ^ 32)
    (hn32 : n + 128 ≤ 2 ^ 32) (hv : rank (byteBits bitsTable) (8 * v) ≤ 128 * q)
    (htable : (n + 127) / 128 ≤ selectTable.length) (hturns : (n + 127) / 128 ≤ turns + q)
    (hnoted : Noted (byteBits bitsTable) selectTable q) :
    ∃ t, selectGenerateSelTable bitsTable n turns v (rank (byteBits bitsTable) (8 * v)) (128 * q) q
        selectTable = some t ∧ t.length = selectTable.length ∧
      Noted (byteBits bitsTable) t ((n + 127) / 128) := by
  induction turns generalizing v q selectTable with
  | zero =>
    unfold selectGenerateSelTable
    rw [if_pos (by omega)]
    exact ⟨_, rfl, rfl, fun q' hq' => hnoted q' (by omega)⟩
  | succ turns ih =>
    unfold selectGenerateSelTable
    split
    · rename_i hend
      exact ⟨_, rfl, rfl, fun q' hq' => hnoted q' (by omega)⟩
    · rename_i hlt
      obtain ⟨p, hsel⟩ := Option.isSome_iff_exists.mp
        (select_isSome_iff.mpr (show 128 * q < ones (byteBits bitsTable) by omega))
      have hp := lt_of_select hsel
      rw [length_byteBits] at hp
      have hq : q < selectTable.length := by omega
      have hnext : u32 (((128 * q : Nat) : Int) + 128) = 128 * (q + 1) :=
        u32_of_eq (by omega) (by omega)
      simp only [Option.bind_eq_bind, scanOnes_drop hsel hv (by omega) (by omega),
        Option.bind_some, write_of_lt hq, hnext]
      have hbyte : rank (byteBits bitsTable) (8 * (p / 8 + 1)) ≤ 128 * (q + 1) := by
        have hsucc := rank_succ (byteBits bitsTable) p
        rw [(select_eq_some_iff.mp hsel).1, if_pos rfl, rank_of_select hsel] at hsucc
        have hadd := rank_add (byteBits bitsTable) (p + 1) (8 * (p / 8 + 1) - (p + 1))
        have hself := rank_le_self ((byteBits bitsTable).drop (p + 1)) (8 * (p / 8 + 1) - (p + 1))
        rw [show p + 1 + (8 * (p / 8 + 1) - (p + 1)) = 8 * (p / 8 + 1) by omega] at hadd
        omega
      obtain ⟨t, ht, hlength, hnoted'⟩ := @ih (selectTable.set q (BitVec.ofNat 32 p))
        _ _ hbyte (by rwa [List.length_set]) (by omega) fun q' hq' => by
          rcases Nat.lt_or_ge q' q with h | h
          · obtain ⟨p', hp', hget⟩ := hnoted q' h
            exact ⟨p', hp', by rw [List.getElem?_set_ne (by omega), hget]⟩
          · obtain rfl : q' = q := by omega
            exact ⟨p, hsel, List.getElem?_set_self hq⟩
      exact ⟨t, ht, hlength.trans List.length_set, hnoted'⟩

/-! ## The structure -/

/-- The structure stores the bit string `l`. -/
structure Select.Holds (s : Select) (l : List Bool) : Prop where
  bits : BitString.bits s.bitsVec = l
  ones : RankSelect.ones l = s.n
  noted : Noted l s.selectTable ((s.n + 127) / 128)
  length_bitsVec : s.bitsVec.length = (s.n + s.m + 31) / 32
  length_selectTable : s.selectTable.length = s.n / 128 + 1
  lt : s.n + s.m + 128 ≤ 2 ^ 32

/-- `select_generate` stores the unary code of an ascending list of numbers up to `m`. -/
theorem selectGenerate_holds (hne : keysVec ≠ []) (hsorted : keysVec.Pairwise (· ≤ ·))
    (hm : ∀ k ∈ keysVec, k ≤ m) (hlt : keysVec.length + m + 128 ≤ 2 ^ 32) :
    ∃ sel rest, selectGenerate keysVec keysVec.length m = some sel ∧ sel.n = keysVec.length ∧
      sel.m = m ∧ sel.Holds (unary 0 keysVec ++ List.replicate rest false) := by
  obtain ⟨key, keys, rfl⟩ := List.exists_cons_of_ne_nil hne
  generalize hn : (key :: keys).length = n at hlt ⊢
  have hpos : 0 < n := by rw [← hn]; exact Nat.succ_pos _
  have hbits : u32 ((n : Int) + m) = n + m := u32_of_eq (by omega) (by push_cast; rfl)
  have hsize : u32 (((n + m : Nat) : Int) + 31) = n + m + 31 :=
    u32_of_eq (by omega) (by push_cast; rfl)
  have hsorted' : (0 :: key :: keys).Pairwise (· ≤ ·) :=
    List.pairwise_cons.mpr ⟨fun k _ => Nat.zero_le k, hsorted⟩
  have hlen := length_unary (m := m) hsorted'
    (List.forall_mem_cons.mpr ⟨Nat.zero_le m, hm⟩)
  rw [hn, Nat.sub_zero] at hlen
  have hvec : (List.replicate ((n + m + 31) / 32) (0 : BitVec 32)).length = (n + m + 31) / 32 :=
    List.length_replicate
  obtain ⟨s, hloop, hs, hslen⟩ := @selectLoop_spec
    { buffer := 0, idx := 0, i := 0, j := 0, bitsVec := List.replicate ((n + m + 31) / 32) 0 } []
    n m (2 * (n + m) + 2) (key :: keys) keys true key rfl hn (by omega) (by omega) hsorted' hm
    (.start _)
    (by dsimp only; rw [hvec, List.length_nil]; omega)
    (by dsimp only; rw [List.length_nil]; omega) (by dsimp only; omega)
  rw [List.nil_append] at hs
  dsimp only at hs hslen
  rw [hvec] at hslen
  obtain ⟨bitsVec, hwrite, hveclen, hfinal⟩ := hs.finish (by omega) (by omega)
  rw [hslen] at hveclen hfinal
  have hones : ones (byteBits (bytes bitsVec)) = n := by
    rw [byteBits_bytes, hfinal, ones_append, ones_unary, hn, ones_replicate_false, Nat.add_zero]
  have hrank : rank (byteBits (bytes bitsVec)) (8 * 0) = 0 := rfl
  obtain ⟨t, htable, htlen, hnoted⟩ := @selectGenerateSelTable_spec n (n / 128 + 1)
    (bytes bitsVec) (List.replicate (n / 128 + 1) 0) 0 0 (Nat.le_of_eq hones.symm)
    (by rw [length_bytes, hveclen]; omega) (by omega) (Nat.zero_le _)
    (by rw [List.length_replicate]; omega) (by omega)
    (fun q' hq' => absurd hq' (Nat.not_lt_zero q'))
  rw [hrank] at htable
  rw [byteBits_bytes] at hnoted hones
  rw [List.length_replicate] at htlen
  refine ⟨{ n, m, bitsVec, selectTable := t }, _, ?_, rfl, rfl,
    ⟨hfinal, ?_, ?_, hveclen, htlen, hlt⟩⟩
  · simp only [selectGenerate, hbits, hsize, shiftRight_five, Nat.shiftRight_eq_div_pow n 7,
      Option.bind_eq_bind, hloop, Option.bind_some, hwrite]
    exact congrArg (Option.bind · _) htable
  · rw [← hfinal, hones]
  · rw [← hfinal]
    exact hnoted

end PerfectHash.Cmph
