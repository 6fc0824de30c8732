import PerfectHash.Switch

/-! # The cases of one switch

The loop of `_do_switch` over the keys that are sorted by one of their bytes. With the invariant
`Loop` of its state, the body that it writes has distinct labels (`labels_cases`); a string that
enters it is compared with all keys that have its byte, and if it is none of them it leaves the body
by a `break` or at the end (`enter_cases`). A byte without a label is the byte of no key, unless the
loop ended early. -/

namespace PerfectHash.Switch

open C CSwitch

variable {dict : Bytes → Int} {i l : Nat} {cand sorted : List Bytes} {oldC : Option UInt8}
  {newCase : Bool} {env : Env Test Scrutinee} {q s : Bytes}

/-- The state of the loop: the keys that are left, in ascending order of their byte, and the last
byte that has a label and more than one key. -/
structure Loop (i : Nat) (cand sorted : List Bytes) (oldC : Option UInt8) : Prop where
  mem : ∀ s ∈ sorted, s ∈ cand
  ascending : sorted.Pairwise fun a b => (char i a).toNat ≤ (char i b).toNat
  count_le : ∀ c, count i sorted c ≤ count i cand c
  old : ∀ c, oldC = some c → count i cand c ≠ 1 ∧ ∀ s ∈ sorted, c.toNat ≤ (char i s).toNat

theorem Loop.start (i : Nat) (cand : List Bytes) :
    Loop i cand (sortOn (fun k => (char i k).toNat) cand) none where
  mem _ hs := (sortOn_perm _ _).mem_iff.mp hs
  ascending := sortOn_pairwise _ _
  count_le c := Nat.le_of_eq (((sortOn_perm _ cand).map (char i)).count_eq c)
  old := nofun

theorem Loop.le (h : Loop i cand (s :: sorted) oldC) :
    ∀ s' ∈ sorted, (char i s).toNat ≤ (char i s').toNat :=
  (List.pairwise_cons.mp h.ascending).1

theorem Loop.tail (h : Loop i cand (s :: sorted) oldC) : Loop i cand sorted oldC where
  mem s' hs' := h.mem s' (List.mem_cons_of_mem _ hs')
  ascending := (List.pairwise_cons.mp h.ascending).2
  count_le c := (List.count_le_count_cons).trans (h.count_le c)
  old c hc := ⟨(h.old c hc).1, fun s' hs' => (h.old c hc).2 s' (List.mem_cons_of_mem _ hs')⟩

/-- A byte that only one key has does not come again. -/
theorem Loop.ne_of_count (h : Loop i cand (s :: sorted) oldC) (hone : count i cand (char i s) = 1) :
    ∀ s' ∈ sorted, char i s' ≠ char i s := by
  intro s' hs' heq
  have hle := h.count_le (char i s)
  have hpos : 0 < (sorted.map (char i)).count (char i s) :=
    List.count_pos_iff.mpr (List.mem_map.mpr ⟨s', hs', heq⟩)
  rw [count, List.map_cons, List.count_cons_self] at hle
  omega

/-- One turn of the loop: a key with the byte of the last label gets a check, any other key that
does not end the loop a label before it, and a `break` before that unless it is the first. -/
theorem Loop.cases_cons (h : Loop i cand (s :: sorted) oldC) (dict : Bytes → Int) (l : Nat)
    (newCase : Bool) (hexcess : ¬ Excess i cand (char i s)) : ∃ oldC', Loop i cand sorted oldC' ∧
      (oldC' = oldC ∨ oldC' = some (char i s)) ∧
      (∀ s' ∈ sorted, char i s' = char i s → oldC' = some (char i s)) ∧
      (oldC = some (char i s) ∧ cases dict i l cand (s :: sorted) oldC newCase =
          (check dict l s :: (cases dict i l cand sorted oldC' newCase).1,
            (cases dict i l cand sorted oldC' newCase).2) ∨
        oldC ≠ some (char i s) ∧ cases dict i l cand (s :: sorted) oldC newCase =
          ((if newCase then [.break] else []) ++ caseLabel (char i s) :: check dict l s ::
              (cases dict i l cand sorted oldC' true).1,
            (cases dict i l cand sorted oldC' true).2)) := by
  have hnew (hone : count i cand (char i s) ≠ 1) : Loop i cand sorted (some (char i s)) :=
    ⟨h.tail.mem, h.tail.ascending, h.tail.count_le, fun c hc => by
      cases hc
      exact ⟨hone, h.le⟩⟩
  by_cases hone : count i cand (char i s) = 1
  · have hne : oldC ≠ some (char i s) := fun hold => (h.old _ hold).1 hone
    refine ⟨oldC, h.tail, .inl rfl, fun s' hs' heq => absurd heq (h.ne_of_count hone s' hs'),
      .inr ⟨hne, ?_⟩⟩
    rw [cases]
    simp [hexcess, hone, hne.symm]
  · refine ⟨some (char i s), hnew hone, .inr rfl, fun _ _ _ => rfl, ?_⟩
    by_cases hold : oldC = some (char i s)
    · refine .inl ⟨hold, ?_⟩
      rw [cases]
      simp [hexcess, hone, hold]
    · refine .inr ⟨hold, ?_⟩
      rw [cases]
      have hold' : ¬ some (char i s) = oldC := fun heq => hold heq.symm
      simp [hexcess, hone, hold']

theorem cases_of_excess (hexcess : Excess i cand (char i s)) :
    cases dict i l cand (s :: sorted) oldC newCase = ([], some (char i s)) := by
  rw [cases]
  exact if_pos hexcess

/-! ## Labels -/

theorem caseLabel_eq (c : UInt8) : caseLabel c = .label (.case c.toNat) := by
  rw [caseLabel, value_charLit]

theorem labels_check (s : Bytes) (body : List Stmt) :
    Stmt.labels (check dict l s :: body) = Stmt.labels body := labels_cons_of_none rfl

theorem labels_break (newCase : Bool) :
    Stmt.labels (if newCase then [.break] else [] : List Stmt) = [] := by
  cases newCase <;> rfl

/-- The labels of the body are distinct. They are bytes of the keys that are left, without the byte
of the last label. -/
theorem labels_cases (dict : Bytes → Int) (l : Nat) (newCase : Bool)
    (h : Loop i cand sorted oldC) :
    (Stmt.labels (cases dict i l cand sorted oldC newCase).1).Nodup ∧
      ∀ lab ∈ Stmt.labels (cases dict i l cand sorted oldC newCase).1,
        ∃ s ∈ sorted, lab = .case (char i s).toNat ∧ oldC ≠ some (char i s) := by
  induction sorted generalizing oldC newCase with
  | nil => exact ⟨List.nodup_nil, nofun⟩
  | cons s sorted ih =>
    by_cases hexcess : Excess i cand (char i s)
    · rw [cases_of_excess hexcess]
      exact ⟨List.nodup_nil, nofun⟩
    · obtain ⟨oldC', htail, hkind, hsame, ⟨hold, heq⟩ | ⟨hold, heq⟩⟩ :=
        h.cases_cons dict l newCase hexcess
      · rw [heq, labels_check]
        refine ⟨(ih _ htail).1, fun lab hlab => ?_⟩
        obtain ⟨s', hs', hcase, hne⟩ := (ih _ htail).2 lab hlab
        have hkeep : oldC' = oldC := hkind.elim id fun hc => hc.trans hold.symm
        exact ⟨s', List.mem_cons_of_mem _ hs', hcase, hkeep ▸ hne⟩
      · rw [heq, labels_append, labels_break, List.nil_append, caseLabel_eq, labels_cons_label,
          labels_check]
        refine ⟨List.nodup_cons.mpr ⟨fun hmem => ?_, (ih _ htail).1⟩, fun lab hlab => ?_⟩
        · obtain ⟨s', hs', hcase, hne⟩ := (ih _ htail).2 _ hmem
          have hchar : char i s' = char i s := by
            rw [← UInt8.toNat_inj]
            simpa using hcase.symm
          exact hne (hchar ▸ hsame s' hs' hchar)
        · rcases List.mem_cons.mp hlab with rfl | hlab
          · exact ⟨s, List.mem_cons_self, rfl, hold⟩
          · obtain ⟨s', hs', hcase, -⟩ := (ih _ htail).2 _ hlab
            refine ⟨s', List.mem_cons_of_mem _ hs', hcase, fun hold' => hold ?_⟩
            -- the last label is at most the byte of `s`, which is at most the byte of `s'`
            have hle := (h.old _ hold').2 s List.mem_cons_self
            have hle' := h.le s' hs'
            rw [hold', Option.some_inj, ← UInt8.toNat_inj]
            omega

/-! ## Running the body -/

/-- The check of a key returns its value for this key and goes on for any other string. -/
def Checks (dict : Bytes → Int) (l : Nat) (env : Env Test Scrutinee) (q : Bytes)
    (cand : List Bytes) : Prop :=
  ∀ s ∈ cand, exec env (check dict l s) = some (if q = s then .return (dict s) else .next)

/-- The run returns the value of the string if it was found. Otherwise it ends at a `break` or at
the end of the body. -/
structure Checked (dict : Bytes → Int) (q : Bytes) (found : Prop) (o : Option (Outcome Int)) :
    Prop where
  value : found → o = some (.return (dict q))
  leaves : ¬ found → o = some .break ∨ o = some .next

/-- One check before others. -/
theorem Checked.cons {body : List Stmt} (hs : exec env (check dict l s) =
      some (if q = s then .return (dict s) else .next))
    (h : Checked dict q (q ∈ sorted) (execList env body)) :
    Checked dict q (q ∈ s :: sorted) (execList env (check dict l s :: body)) := by
  rw [execList_cons, hs]
  by_cases hq : q = s
  · rw [if_pos hq, hq]
    exact ⟨fun _ => rfl, fun hnot => absurd List.mem_cons_self hnot⟩
  · rw [if_neg hq, andThen_next]
    exact ⟨fun hmem => h.value ((List.mem_cons.mp hmem).resolve_left hq),
      fun hnot => h.leaves fun hmem => hnot (List.mem_cons_of_mem _ hmem)⟩

/-- Behind the label of its byte, a string is compared with the keys that are left and have its
byte. The next label comes after a `break`. -/
theorem exec_cases (h : Loop i cand sorted oldC) (hchecks : Checks dict l env q cand)
    (hle : ∀ s ∈ sorted, (char i q).toNat ≤ (char i s).toNat)
    (hin : ∀ s ∈ sorted, char i s = char i q → oldC = some (char i q))
    (hold : ∀ c, oldC = some c → c.toNat ≤ (char i q).toNat)
    (hexcess : ¬ Excess i cand (char i q)) :
    Checked dict q (q ∈ sorted) (execList env (cases dict i l cand sorted oldC true).1) := by
  induction sorted generalizing oldC with
  | nil => exact ⟨nofun, fun _ => .inr rfl⟩
  | cons s sorted ih =>
    by_cases hchar : char i s = char i q
    · obtain ⟨oldC', htail, hkind, hsame, ⟨-, heq⟩ | ⟨hne, -⟩⟩ :=
        h.cases_cons dict l true (hchar ▸ hexcess)
      · rw [heq]
        refine (ih htail (fun s' hs' => hle s' (List.mem_cons_of_mem _ hs'))
          (fun s' hs' hs'q => hchar ▸ hsame s' hs' (hs'q.trans hchar.symm)) fun c hc => ?_).cons
            (hchecks s (h.mem s List.mem_cons_self))
        rcases hkind with hkind | hkind
        · exact hold c (hkind ▸ hc)
        · rw [hkind] at hc
          cases hc
          rw [hchar]
      · exact absurd (hchar ▸ hin s List.mem_cons_self hchar) hne
    · have hlt : (char i q).toNat < (char i s).toNat := by
        have := hle s List.mem_cons_self
        have := mt UInt8.toNat_inj.mp hchar
        omega
      have hmem : q ∉ s :: sorted := by
        intro hmem
        rcases List.mem_cons.mp hmem with rfl | hmem
        · exact hchar rfl
        · have := h.le q hmem
          omega
      refine ⟨fun hfound => absurd hfound hmem, fun _ => ?_⟩
      by_cases hexcess' : Excess i cand (char i s)
      · rw [cases_of_excess hexcess']
        exact .inr rfl
      · obtain ⟨oldC', -, -, -, ⟨hold', -⟩ | ⟨-, heq⟩⟩ :=
          h.cases_cons dict l true hexcess'
        · have := hold _ hold'
          omega
        · rw [heq]
          exact .inl rfl

/-- Entering the body at the byte of a string. -/
theorem enter_cases (newCase : Bool) (h : Loop i cand sorted oldC)
    (hchecks : Checks dict l env q cand)
    (hold : oldC ≠ some (char i q)) :
    (∃ o, enter env (.case (char i q).toNat) (cases dict i l cand sorted oldC newCase).1 = some o ∧
        Checked dict q (q ∈ sorted) o) ∨
      .case (char i q).toNat ∉ Stmt.labels (cases dict i l cand sorted oldC newCase).1 ∧
        ((cases dict i l cand sorted oldC newCase).2 = none → q ∉ sorted) := by
  induction sorted generalizing oldC newCase with
  | nil => exact .inr ⟨nofun, fun _ => nofun⟩
  | cons s sorted ih =>
    by_cases hexcess : Excess i cand (char i s)
    · rw [cases_of_excess hexcess]
      exact .inr ⟨nofun, nofun⟩
    obtain ⟨oldC', htail, hkind, hsame, hstep⟩ :=
      h.cases_cons dict l newCase hexcess
    by_cases hchar : char i s = char i q
    · obtain ⟨hold', -⟩ | ⟨-, heq⟩ := hstep
      · exact absurd (hchar ▸ hold') hold
      · refine .inl ⟨execList env (check dict l s :: (cases dict i l cand sorted oldC' true).1),
          ?_, ?_⟩
        · rw [heq, enter_append_of_notMem (by rw [labels_break]; exact List.not_mem_nil), hchar,
            caseLabel_eq, enter_cons_label]
        · refine (exec_cases htail hchecks (hchar ▸ h.le)
            (fun s' hs' hs'q => hchar ▸ hsame s' hs' (hs'q.trans hchar.symm)) (fun c hc => ?_)
            (hchar ▸ hexcess)).cons (hchecks s (h.mem s List.mem_cons_self))
          rcases hkind with hkind | hkind
          · exact hchar ▸ (h.old c (hkind ▸ hc)).2 s List.mem_cons_self
          · rw [hkind] at hc
            cases hc
            rw [hchar]
    · have hold' : oldC' ≠ some (char i q) := by
        rcases hkind with rfl | rfl
        · exact hold
        · exact fun hc => hchar (Option.some.inj hc)
      have hmem : q ∈ s :: sorted ↔ q ∈ sorted :=
        ⟨fun hq => (List.mem_cons.mp hq).resolve_left fun hqs => hchar (by rw [hqs]),
          List.mem_cons_of_mem _⟩
      rw [hmem]
      -- neither a check nor the label of another byte is where the string enters
      obtain ⟨-, heq⟩ | ⟨-, heq⟩ := hstep
      · rw [heq, labels_check]
        have hfront : enter env (.case (char i q).toNat)
            ([check dict l s] ++ (cases dict i l cand sorted oldC' newCase).1) =
              enter env (.case (char i q).toNat) (cases dict i l cand sorted oldC' newCase).1 :=
          enter_append_of_notMem (a := [check dict l s]) nofun _
        rw [List.singleton_append] at hfront
        rw [hfront]
        exact ih newCase htail hold'
      · have hlabel : Label.case (char i q).toNat ≠ .case (char i s).toNat := by
          intro hcase
          refine hchar (UInt8.toNat_inj.mp ?_)
          simpa using hcase.symm
        have hlabels : Label.case (char i q).toNat ∉ Stmt.labels
            ((if newCase then [.break] else []) ++ [caseLabel (char i s), check dict l s]) := by
          rw [labels_append, labels_break, caseLabel_eq, List.nil_append, labels_cons_label,
            labels_check]
          simpa using hlabel
        have hfront : enter env (.case (char i q).toNat) _ = _ :=
          enter_append_of_notMem hlabels (cases dict i l cand sorted oldC' true).1
        rw [List.append_assoc, List.cons_append, List.singleton_append] at hfront
        rw [heq, hfront]
        rcases ih true htail hold' with henter | ⟨hnot, hnone⟩
        · exact .inl henter
        · refine .inr ⟨?_, hnone⟩
          rw [labels_append, labels_break, caseLabel_eq, List.nil_append, labels_cons_label,
            labels_check, List.mem_cons, not_or]
          exact ⟨hlabel, hnot⟩

end PerfectHash.Switch
