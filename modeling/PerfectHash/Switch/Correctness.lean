import PerfectHash.Switch.Cases
import PerfectHash.Dict

/-! # The generated switches find every key

A switch for keys of one length returns the value of a key (`exec_doSwitch`). For another string it
returns `-1`, or execution goes on behind it, which is what the first of the two switches of a split
has to do. Each length has a case of its own that always returns (`enter_dispatch`), so the
generated function returns the value of a nonempty key and `-1` for any other string
(`lookup_saveC`). -/

namespace PerfectHash.Switch

open C CValues CSwitch

variable {dict : Bytes → Int} {i l n : Nat} {cand sorted : List Bytes} {q s rest : Bytes}
  {last : Bool} {indent : Nat}

/-- Keys of one length, which is not zero. -/
structure Cand (cand : List Bytes) (l : Nat) : Prop where
  ne_nil : cand ≠ []
  pos : 1 ≤ l
  length : ∀ s ∈ cand, s.length = l
  nodup : cand.Nodup

theorem Cand.headD (h : Cand cand l) : (cand.headD []).length = l := by
  match cand, h with
  | s :: _, h => exact h.length s List.mem_cons_self

theorem Cand.exists_key (h : Cand cand l) : ∃ k ∈ cand, k ≠ [] ∧ k.length = l := by
  obtain ⟨k, hk⟩ := List.exists_mem_of_ne_nil _ h.ne_nil
  have hlength := h.length k hk
  have hpos := h.pos
  exact ⟨k, hk, List.ne_nil_of_length_pos (by omega), hlength⟩

theorem Cand.filter (h : Cand cand l) {p : Bytes → Bool} (hs : s ∈ cand) (hp : p s) :
    Cand (cand.filter p) l where
  ne_nil := List.ne_nil_of_mem (List.mem_filter.mpr ⟨hs, hp⟩)
  pos := h.pos
  length s' hs' := h.length s' (List.mem_of_mem_filter hs')
  nodup := h.nodup.filter _

/-- The position of the switch is in the keys. -/
theorem findMaxkeys_lt {maxkeys : Nat × Nat} {positions : List Nat} (hmax : maxkeys.2 < l)
    (hpositions : ∀ i ∈ positions, i < l) : (findMaxkeys cand maxkeys positions).2 < l := by
  induction positions generalizing maxkeys with
  | nil => exact hmax
  | cons i positions ih =>
    have hnext : (if (cand.map (char i)).dedup.length > maxkeys.1 then
        ((cand.map (char i)).dedup.length, i) else maxkeys).2 < l := by
      split
      · exact hpositions i List.mem_cons_self
      · exact hmax
    rw [findMaxkeys]
    split
    · exact hnext
    · exact ih hnext fun j hj => hpositions j (List.mem_cons_of_mem _ hj)

/-! ## The split into two switches -/

/-- Keys that share a byte with others have another byte, so Perl counts them as true. -/
theorem Cand.truthy (h : Cand cand l) (hi : i < l) {c : UInt8} (hcount : count i cand c > 3) :
    ∀ s ∈ cand, truthy s = true := by
  have hl : l ≠ 1 := by
    rintro rfl
    obtain rfl : i = 0 := by omega
    have hinj : (cand.map (char 0)).Nodup := by
      apply h.nodup.map_on
      intro a ha b hb hab
      obtain ⟨x, rfl⟩ := List.length_eq_one_iff.mp (h.length a ha)
      obtain ⟨y, rfl⟩ := List.length_eq_one_iff.mp (h.length b hb)
      exact congrArg (fun c => [c]) hab
    have := List.nodup_iff_count_le_one.mp hinj c
    rw [count] at hcount
    omega
  intro s hs
  have hlength := h.length s hs
  refine decide_eq_true ⟨fun hnil => ?_, fun hzero => ?_⟩
  · rw [hnil] at hlength
    exact absurd hlength (by have := h.pos; rw [List.length_nil]; omega)
  · rw [hzero] at hlength
    exact hl hlength.symm

theorem mem_grepEq {c : UInt8} (ht : ∀ s ∈ cand, truthy s = true) :
    s ∈ grepEq i c cand ↔ s ∈ cand ∧ char i s = c := by
  simp only [grepEq, List.mem_filter, decide_eq_true_eq]
  exact ⟨fun h => ⟨h.1, h.2.1⟩, fun h => ⟨h.1, h.2, ht s h.1⟩⟩

theorem mem_grepNe {c : UInt8} (ht : ∀ s ∈ cand, truthy s = true) :
    s ∈ grepNe i c cand ↔ s ∈ cand ∧ char i s ≠ c := by
  simp only [grepNe, List.mem_filter, decide_eq_true_eq]
  exact ⟨fun h => ⟨h.1, h.2.1⟩, fun h => ⟨h.1, h.2, ht s h.1⟩⟩

/-- Both halves of a split have keys. -/
theorem Cand.split (h : Cand cand l) (hi : i < l) {c : UInt8} (hexcess : Excess i cand c) :
    Cand (grepEq i c cand) l ∧ Cand (grepNe i c cand) l := by
  have ht := h.truthy hi hexcess.1
  constructor
  · have hpos : 0 < (cand.map (char i)).count c := Nat.lt_of_lt_of_le (by decide) hexcess.1
    obtain ⟨s, hs, hc⟩ := List.mem_map.mp (List.count_pos_iff.mp hpos)
    exact h.filter hs (decide_eq_true ⟨hc, ht s hs⟩)
  · obtain ⟨s, hs, hnot⟩ := List.length_filter_lt_length_iff_exists.mp hexcess.2
    simp only [decide_eq_true_eq, not_and] at hnot
    exact h.filter hs (decide_eq_true ⟨fun hc => hnot hc (ht s hs), ht s hs⟩)

/-! ## One switch -/

/-- How the statements of `_do_switch` end: with the value of a key, for another string with `-1` or
without an effect, and with `$last` at the outermost level always with a value. -/
structure Decides (dict : Bytes → Int) (q : Bytes) (cand : List Bytes) (last : Bool) (indent : Nat)
    (o : Option (Outcome Int)) : Prop where
  found : q ∈ cand → o = some (.return (dict q))
  other : q ∉ cand → o = some .next ∨ last = true ∧ o = some (.return (-1))
  final : q ∉ cand → last = true → indent = 1 → o = some (.return (-1))

theorem labels_doSwitch (cand : List Bytes) (last : Bool) (indent : Nat) :
    Stmt.labels (doSwitch dict cand last indent) = [] := by
  rw [doSwitch]
  split
  · rw [labels_cons_of_none rfl]
    cases last <;> rfl
  · rw [labels_cons_of_none rfl]
    split <;> rfl

/-- The byte that a switch is about. -/
theorem value_byte (hi : i < q.length) (rest : Bytes) (len : Int) :
    (env (q ++ rest) len).value (.byte i) = some ((char i q).toNat : Int) := by
  simp only [env, char]
  rw [List.getElem?_append_left hi, List.getD_eq_getElem?_getD, List.getElem?_eq_getElem hi]
  rfl

/-- The comparison with a key. -/
theorem Cand.test (h : Cand cand l) (hs : s ∈ cand) (hq : q.length = l) (rest : Bytes)
    (len : Int) :
    (env (q ++ rest) len).test (memcmpConstStr s l) = some (decide (q = s)) := by
  have hlength := h.length s hs
  rw [← hlength]
  exact eval_memcmpConstStr (hlength ▸ h.pos) (hq.trans hlength.symm) rest

theorem Cand.checks (h : Cand cand l) (dict : Bytes → Int) (hq : q.length = l) (rest : Bytes)
    (len : Int) :
    Checks dict l (env (q ++ rest) len) q cand := by
  intro s hs
  rw [check, exec, h.test hs hq, Option.map_some]
  by_cases hqs : q = s <;> simp [hqs]

/-- The labels of a switch are bytes, and there is at most one `default`, behind them. -/
theorem labelsOk_append {body tail : List Stmt} (hnodup : (Stmt.labels body).Nodup)
    (hbyte : ∀ lab ∈ Stmt.labels body, ∃ c : UInt8, lab = .case c.toNat)
    (htail : tail = [] ∨ ∃ after, tail = .label .default :: after ∧ Stmt.labels after = []) :
    Stmt.LabelsOk (body ++ tail) ∧ .default ∉ Stmt.labels body := by
  have hint : ∀ lab ∈ Stmt.labels body, lab.IsInt := by
    intro lab hlab
    obtain ⟨c, rfl⟩ := hbyte lab hlab
    have := c.toNat_lt
    exact ⟨by omega, by omega⟩
  have hdefault : .default ∉ Stmt.labels body := by
    intro hmem
    obtain ⟨_, heq⟩ := hbyte _ hmem
    cases heq
  refine ⟨?_, hdefault⟩
  rcases htail with rfl | ⟨after, rfl, hafter⟩
  · rw [List.append_nil]
    exact ⟨hnodup, hint⟩
  · constructor
    · rw [labels_append, labels_cons_label, hafter]
      exact hnodup.append (List.nodup_singleton _) (by simpa using hdefault)
    · rw [labels_append, labels_cons_label, hafter, List.forall_mem_append]
      exact ⟨hint, by simp [Label.IsInt]⟩

/-- The switch over the cases and what follows them. A key whose byte has no label has to be found
in what follows. -/
theorem exec_switch_cases {body tail : List Stmt} {excess : Option UInt8} (rest : Bytes)
    (len : Int) (h : Cand cand l) (hq : q.length = l) (hi : i < l)
    (hcases : cases dict i l cand (sortOn (fun k => (char i k).toNat) cand) none false =
      (body, excess))
    (htail : tail = [] ∨ ∃ after, tail = .label .default :: after ∧ Stmt.labels after = [])
    (hrest : excess ≠ none → q ∈ cand →
      execList (env (q ++ rest) len) tail = some (.return (dict q))) :
    (q ∈ cand → exec (env (q ++ rest) len) (.switch (.byte i) (body ++ tail)) =
        some (.return (dict q))) ∧
      (q ∉ cand → exec (env (q ++ rest) len) (.switch (.byte i) (body ++ tail)) = some .next ∨
        exec (env (q ++ rest) len) (.switch (.byte i) (body ++ tail)) =
          Outcome.leave (execList (env (q ++ rest) len) tail)) := by
  have hloop := Loop.start i cand
  have hmem : q ∈ sortOn (fun k => (char i k).toNat) cand ↔ q ∈ cand := (sortOn_perm _ _).mem_iff
  have hvalue := value_byte (q := q) (hq ▸ hi) rest len
  have hcase := labels_cases dict l false hloop
  have henter := enter_cases false hloop (h.checks dict hq rest len) nofun
  rw [hcases] at hcase henter
  dsimp only at hcase henter
  rw [hmem] at henter
  obtain ⟨hlabels, hdefault⟩ := labelsOk_append hcase.1
    (fun lab hlab => by
      obtain ⟨s, -, heq, -⟩ := hcase.2 lab hlab
      exact ⟨char i s, heq⟩) htail
  rcases henter with ⟨o, henter, hchecked⟩ | ⟨hnot, hnone⟩
  · have hexec := exec_switch_case hlabels hvalue (enter_append_of_some (b := tail) henter)
    rw [hexec]
    constructor
    · intro hq
      rw [hchecked.value hq]
      rfl
    · intro hq
      rcases hchecked.leaves hq with rfl | rfl
      · exact .inl rfl
      · exact .inr rfl
  · rcases htail with rfl | ⟨after, rfl, hafter⟩
    · have hexec := exec_switch_none hlabels hvalue
        (by rw [List.append_nil]; exact enter_eq_none hnot)
        (by rw [List.append_nil]; exact enter_eq_none hdefault)
      rw [hexec]
      refine ⟨fun hq => ?_, fun _ => .inl rfl⟩
      have := hrest (fun he => hnone he hq) hq
      rw [execList_nil] at this
      cases this
    · have hcaseNone : enter (env (q ++ rest) len) (.case (char i q).toNat)
          (body ++ .label .default :: after) = none := by
        apply enter_eq_none
        rw [labels_append, labels_cons_label, hafter]
        simpa using hnot
      have hexec := exec_switch_default hlabels hvalue hcaseNone
        ((enter_append_of_notMem hdefault _).trans (enter_cons_label _ _))
      rw [hexec, execList_cons_label]
      refine ⟨fun hq => ?_, fun _ => .inr rfl⟩
      have hreturn := hrest (fun he => hnone he hq) hq
      rw [execList_cons_label] at hreturn
      rw [hreturn]
      rfl

/-- A switch, and a `return -1` behind it where one is written. -/
theorem Decides.of_switch {env : Env Test Scrutinee} {switch : Stmt} {p : Prop} [Decidable p]
    (hp : p → last = true) (hfinal : last = true → indent = 1 → p)
    (hfound : q ∈ cand → exec env switch = some (.return (dict q)))
    (hother : q ∉ cand → exec env switch = some .next ∨
      last = true ∧ exec env switch = some (.return (-1))) :
    Decides dict q cand last indent
      (execList env (switch :: if p then [.return (-1)] else [])) := by
  have hreturn : execList env ([.return (-1)] : List Stmt) = some (.return (-1)) := by
    rw [execList_cons, exec, andThen_return]
  refine ⟨fun hq => ?_, fun hq => ?_, fun hq hlast hindent => ?_⟩
  · rw [execList_cons, hfound hq, andThen_return]
  · rw [execList_cons]
    rcases hother hq with hnext | ⟨hlast, hret⟩
    · rw [hnext, andThen_next]
      by_cases h : p
      · rw [if_pos h, hreturn]
        exact .inr ⟨hp h, rfl⟩
      · rw [if_neg h, execList_nil]
        exact .inl rfl
    · rw [hret, andThen_return]
      exact .inr ⟨hlast, rfl⟩
  · rw [execList_cons, if_pos (hfinal hlast hindent), hreturn]
    rcases hother hq with hnext | ⟨-, hret⟩
    · rw [hnext, andThen_next]
    · rw [hret, andThen_return]

/-- Two switches in a row, for the two halves of the keys. The first one never ends the search for a
key of the second. -/
theorem Decides.append {env : Env Test Scrutinee} {cand₁ cand₂ : List Bytes} {a b : List Stmt}
    (hsplit : q ∈ cand ↔ q ∈ cand₁ ∨ q ∈ cand₂)
    (ha : Decides dict q cand₁ false indent (execList env a))
    (hb : Decides dict q cand₂ last indent (execList env b)) :
    (q ∈ cand → execList env (a ++ b) = some (.return (dict q))) ∧
      (q ∉ cand → execList env (a ++ b) = some .next ∨
        last = true ∧ execList env (a ++ b) = some (.return (-1))) := by
  rw [execList_append]
  by_cases hin : q ∈ cand₁
  · rw [ha.found hin, andThen_return]
    exact ⟨fun _ => rfl, fun hnot => absurd (hsplit.mpr (.inl hin)) hnot⟩
  · have hnext : execList env a = some .next :=
      (ha.other hin).resolve_right fun hlast => Bool.false_ne_true hlast.1
    rw [hnext, andThen_next]
    exact ⟨fun hmem => hb.found ((hsplit.mp hmem).resolve_left hin),
      fun hnot => hb.other fun hmem => hnot (hsplit.mpr (.inr hmem))⟩

/-- The statements of `_do_switch` decide about every string of the length of the keys. -/
theorem exec_doSwitch (dict : Bytes → Int) (last : Bool) (indent : Nat) (h : Cand cand l)
    (hq : q.length = l) (rest : Bytes) (len : Int) :
    Decides dict q cand last indent
      (execList (env (q ++ rest) len) (doSwitch dict cand last indent)) := by
  induction hn : cand.length using Nat.strongRecOn generalizing cand last indent with
  | ind n ih =>
    have hi : (findMaxkeys cand (0, 0) (List.range l)).2 < l :=
      findMaxkeys_lt h.pos fun i hi => List.mem_range.mp hi
    rw [doSwitch]
    split
    · rename_i body c hcases
      rw [h.headD] at hcases ⊢
      generalize (findMaxkeys cand (0, 0) (List.range l)).2 = i at hi hcases ⊢
      obtain ⟨⟨s, hs, hc⟩, hexcess⟩ := exists_of_cases dict hcases
      have ht := h.truthy hi hexcess.1
      obtain ⟨heq, hne⟩ := h.split hi hexcess
      have hlt : (grepNe i c cand).length < n :=
        hn ▸ length_grepNe_lt ((sortOn_perm _ _).mem_iff.mp hs) hc
      have hfirst := ih _ (hn ▸ hexcess.2) false (indent + 1) heq rfl
      have hsecond := ih _ hlt last (indent + 1) hne rfl
      have hsplit : q ∈ cand ↔ q ∈ grepEq i c cand ∨ q ∈ grepNe i c cand := by
        rw [mem_grepEq ht, mem_grepNe ht]
        tauto
      have hboth := hfirst.append hsplit hsecond
      have hlabels : Stmt.labels (doSwitch dict (grepEq i c cand) false (indent + 1) ++
          doSwitch dict (grepNe i c cand) last (indent + 1)) = [] := by
        rw [labels_append, labels_doSwitch, labels_doSwitch]
        rfl
      have hswitch := exec_switch_cases rest len h hq hi hcases
        (.inr ⟨_, rfl, hlabels⟩) (fun _ hmem => (execList_cons_label _ _).trans (hboth.1 hmem))
      apply Decides.of_switch id (fun hlast _ => hlast) hswitch.1
      intro hnot
      rcases hswitch.2 hnot with hnext | hleave
      · exact .inl hnext
      · rw [execList_cons_label] at hleave
        rcases hboth.2 hnot with hnext | ⟨hlast, hret⟩
        · rw [hnext] at hleave
          exact .inl hleave
        · rw [hret] at hleave
          exact .inr ⟨hlast, hleave⟩
    · rename_i body hcases
      rw [h.headD] at hcases ⊢
      generalize (findMaxkeys cand (0, 0) (List.range l)).2 = i at hi hcases ⊢
      have htail : (if last then [.label .default, .return (-1)] else [] : List Stmt) = [] ∨
          ∃ after, (if last then [.label .default, .return (-1)] else [] : List Stmt) =
            .label .default :: after ∧ Stmt.labels after = [] := by
        cases last with
        | false => exact .inl rfl
        | true => exact .inr ⟨_, rfl, rfl⟩
      have hswitch := exec_switch_cases rest len h hq hi hcases htail
        (fun hne => absurd rfl hne)
      refine .of_switch And.right (fun hlast hindent => ⟨hindent, hlast⟩) hswitch.1 fun hnot => ?_
      rcases hswitch.2 hnot with hnext | hleave
      · exact .inl hnext
      · cases last with
        | false => exact .inl (by rw [hleave]; simp [Outcome.leave])
        | true => exact .inr ⟨rfl, by rw [hleave]; simp [execList_cons, exec, Outcome.leave]⟩

/-! ## The switch on the length -/

/-- The state of the loop over the keys in the order of their lengths: the group of keys of one
length that was collected so far, and the rest, which is not shorter. -/
structure Group (sorted : List Bytes) (old : Option Nat) (cand : List Bytes) : Prop where
  ascending : sorted.Pairwise fun a b => a.length ≤ b.length
  nodup : (cand ++ sorted).Nodup
  group : cand = [] ∧ old = none ∨ ∃ n, old = some n ∧ Cand cand n ∧ ∀ s ∈ sorted, n ≤ s.length

theorem Group.le {old : Option Nat} (h : Group (s :: sorted) old cand) :
    ∀ s' ∈ sorted, s.length ≤ s'.length := (List.pairwise_cons.mp h.ascending).1

/-- The calls of `_do_cand` in the loop over the keys. -/
def calls : List Bytes → Option Nat → List Bytes → List (Nat × List Bytes)
  | [], old, cand => if cand = [] then [] else [(old.getD 0, cand)]
  | s :: sorted, old, cand =>
    let l := s.length
    if l = 0 then calls sorted old cand
    else
      let old := old.getD l
      if l ≠ old ∧ cand ≠ [] then (old, cand) :: calls sorted (some l) [s]
      else calls sorted (some l) (cand ++ [s])

theorem dispatch_eq (dict : Bytes → Int) (sorted : List Bytes) (old : Option Nat)
    (cand : List Bytes) :
    dispatch dict sorted old cand =
      (calls sorted old cand).flatMap fun p => doCand dict p.1 p.2 := by
  induction sorted generalizing old cand with
  | nil =>
    rw [dispatch, calls]
    split
    · rfl
    · rw [List.flatMap_singleton]
  | cons s sorted ih =>
    rw [dispatch, calls]
    dsimp only
    split
    · exact ih ..
    · split
      · rw [List.flatMap_cons, ih]
      · exact ih ..

/-- One turn of the loop: the empty key is skipped, a key of the length of the group is added to
it, and a longer key closes the group. -/
theorem Group.calls_cons {old : Option Nat} (h : Group (s :: sorted) old cand) :
    s = [] ∧ Group sorted old cand ∧ calls (s :: sorted) old cand = calls sorted old cand ∨
      s ≠ [] ∧ Group sorted (some s.length) (cand ++ [s]) ∧
        calls (s :: sorted) old cand = calls sorted (some s.length) (cand ++ [s]) ∨
      ∃ n, Cand cand n ∧ n < s.length ∧ Group sorted (some s.length) [s] ∧
        calls (s :: sorted) old cand = (n, cand) :: calls sorted (some s.length) [s] := by
  have hascending := (List.pairwise_cons.mp h.ascending).2
  have hperm : (cand ++ s :: sorted).Perm (cand ++ [s] ++ sorted) := by
    rw [List.append_assoc, List.singleton_append]
  have hnodup := hperm.nodup_iff.mp h.nodup
  by_cases hs : s = []
  · refine .inl ⟨hs, ⟨hascending, ?_, ?_⟩, ?_⟩
    · exact h.nodup.sublist ((List.sublist_cons_self s sorted).append_left cand)
    · exact h.group.imp_right fun ⟨n, hold, hcand, hle⟩ =>
        ⟨n, hold, hcand, fun s' hs' => hle s' (List.mem_cons_of_mem _ hs')⟩
    · rw [calls]
      exact if_pos (by rw [hs, List.length_nil])
  · have hlength : s.length ≠ 0 := mt List.length_eq_zero_iff.mp hs
    have hone : Cand [s] s.length :=
      ⟨List.cons_ne_nil _ _, by omega, fun s' hs' => by rw [List.mem_singleton.mp hs'],
        List.nodup_singleton s⟩
    rcases h.group with ⟨rfl, rfl⟩ | ⟨n, rfl, hcand, hle⟩
    · refine .inr (.inl ⟨hs, ⟨hascending, hnodup, .inr ⟨_, rfl, hone, h.le⟩⟩, ?_⟩)
      rw [calls]
      simp [hs]
    · by_cases hn : s.length = n
      · refine .inr (.inl ⟨hs, ⟨hascending, hnodup, .inr ⟨_, rfl, ?_, h.le⟩⟩, ?_⟩)
        · refine ⟨by simp, by omega, fun s' hs' => ?_, (List.nodup_append.mp hnodup).1⟩
          rcases List.mem_append.mp hs' with hs' | hs'
          · rw [hcand.length s' hs', hn]
          · rw [List.mem_singleton.mp hs']
        · rw [calls]
          simp [hn, show n ≠ 0 by omega]
      · have hlt : n < s.length := by
          have := hle s List.mem_cons_self
          omega
        refine .inr (.inr ⟨n, hcand, hlt, ⟨hascending, ?_, .inr ⟨_, rfl, hone, h.le⟩⟩, ?_⟩)
        · exact (List.nodup_append.mp h.nodup).2.1
        · rw [calls]
          simp [hs, hn, hcand.ne_nil]

theorem Group.dispatch_cons {old : Option Nat} (h : Group (s :: sorted) old cand)
    (dict : Bytes → Int) :
    s = [] ∧ Group sorted old cand ∧
        dispatch dict (s :: sorted) old cand = dispatch dict sorted old cand ∨
      s ≠ [] ∧ Group sorted (some s.length) (cand ++ [s]) ∧
        dispatch dict (s :: sorted) old cand =
          dispatch dict sorted (some s.length) (cand ++ [s]) ∨
      ∃ n, Cand cand n ∧ n < s.length ∧ Group sorted (some s.length) [s] ∧
        dispatch dict (s :: sorted) old cand =
          doCand dict n cand ++ dispatch dict sorted (some s.length) [s] := by
  simp only [dispatch_eq]
  rcases h.calls_cons with ⟨hs, hnext, heq⟩ | ⟨hs, hnext, heq⟩ | ⟨n, hcand, hlt, hnext, heq⟩
  · exact .inl ⟨hs, hnext, by rw [heq]⟩
  · exact .inr (.inl ⟨hs, hnext, by rw [heq]⟩)
  · exact .inr (.inr ⟨n, hcand, hlt, hnext, by rw [heq, List.flatMap_cons]⟩)

theorem labels_doCand (l : Nat) (cand : List Bytes) :
    Stmt.labels (doCand dict l cand) = [.case l] := by
  unfold doCand
  rw [labels_cons_label]
  split
  · rfl
  · rw [labels_doSwitch]

/-- The case of a length returns for every string of that length. -/
theorem enter_doCand (dict : Bytes → Int) (h : Cand cand l) (hq : q.length = l) (rest : Bytes)
    (len : Int) :
    enter (env (q ++ rest) len) (.case l) (doCand dict l cand) =
      some (some (.return (if q ∈ cand then dict q else -1))) := by
  unfold doCand
  rw [enter_cons_label]
  split
  · rename_i s0
    rw [execList_cons, exec, h.test List.mem_cons_self hq]
    by_cases hqs : q = s0 <;> simp [hqs]
  · have hdecides := exec_doSwitch dict true 1 h hq rest len
    by_cases hmem : q ∈ cand
    · rw [hdecides.found hmem, if_pos hmem]
    · rw [hdecides.final hmem rfl rfl, if_neg hmem]

/-- The labels of the outer switch are the lengths of the keys, each once. -/
theorem labels_dispatch {old : Option Nat} (dict : Bytes → Int) (h : Group sorted old cand) :
    (Stmt.labels (dispatch dict sorted old cand)).Nodup ∧
      ∀ lab ∈ Stmt.labels (dispatch dict sorted old cand),
        ∃ k ∈ cand ++ sorted, k ≠ [] ∧ lab = .case k.length := by
  induction sorted generalizing old cand with
  | nil =>
    rw [dispatch]
    rcases h.group with ⟨rfl, rfl⟩ | ⟨n, rfl, hcand, -⟩
    · exact ⟨List.nodup_nil, nofun⟩
    · rw [if_neg hcand.ne_nil, labels_doCand]
      refine ⟨List.nodup_singleton _, fun lab hlab => ?_⟩
      obtain ⟨k, hk, hne, hlength⟩ := hcand.exists_key
      refine ⟨k, List.mem_append_left _ hk, hne, ?_⟩
      rw [List.mem_singleton.mp hlab, hlength]
      rfl
  | cons s sorted ih =>
    rcases h.dispatch_cons dict with ⟨-, hnext, heq⟩ | ⟨-, hnext, heq⟩ |
        ⟨n, hcand, hlt, hnext, heq⟩
    · rw [heq]
      refine ⟨(ih hnext).1, fun lab hlab => ?_⟩
      obtain ⟨k, hk, hcase⟩ := (ih hnext).2 lab hlab
      exact ⟨k, (((List.sublist_cons_self s sorted).append_left cand).subset hk), hcase⟩
    · rw [heq]
      refine ⟨(ih hnext).1, fun lab hlab => ?_⟩
      obtain ⟨k, hk, hcase⟩ := (ih hnext).2 lab hlab
      exact ⟨k, by simpa using hk, hcase⟩
    · rw [heq, labels_append, labels_doCand, List.singleton_append]
      refine ⟨List.nodup_cons.mpr ⟨fun hmem => ?_, (ih hnext).1⟩, fun lab hlab => ?_⟩
      · obtain ⟨k, hk, -, hcase⟩ := (ih hnext).2 _ hmem
        have hlength : n = k.length := by simpa using hcase
        rcases List.mem_cons.mp hk with rfl | hk
        · omega
        · have := h.le k hk
          omega
      · rcases List.mem_cons.mp hlab with rfl | hlab
        · obtain ⟨k, hk, hne, hlength⟩ := hcand.exists_key
          exact ⟨k, List.mem_append_left _ hk, hne, by rw [hlength]⟩
        · obtain ⟨k, hk, hcase⟩ := (ih hnext).2 lab hlab
          exact ⟨k, List.mem_append_right _ hk, hcase⟩

/-- A string enters the case of its length, which decides about it, or no key has its length. -/
theorem enter_dispatch {old : Option Nat} (dict : Bytes → Int) (h : Group sorted old cand)
    (hq : q ≠ []) (rest : Bytes) (len : Int) :
    enter (env (q ++ rest) len) (.case q.length) (dispatch dict sorted old cand) =
        some (some (.return (if q ∈ cand ++ sorted then dict q else -1))) ∨
      .case q.length ∉ Stmt.labels (dispatch dict sorted old cand) ∧ q ∉ cand ++ sorted := by
  induction sorted generalizing old cand with
  | nil =>
    rw [dispatch, List.append_nil]
    rcases h.group with ⟨rfl, rfl⟩ | ⟨n, rfl, hcand, -⟩
    · exact .inr ⟨nofun, nofun⟩
    · rw [if_neg hcand.ne_nil, Option.getD_some]
      by_cases hn : q.length = n
      · apply Or.inl
        rw [hn]
        exact enter_doCand dict hcand hn rest len
      · refine .inr ⟨?_, fun hmem => hn (hcand.length q hmem)⟩
        rw [labels_doCand]
        simpa using hn
  | cons s sorted ih =>
    rcases h.dispatch_cons dict with ⟨rfl, hnext, heq⟩ | ⟨-, hnext, heq⟩ |
        ⟨n, hcand, hlt, hnext, heq⟩
    · have hmem : q ∈ cand ++ [] :: sorted ↔ q ∈ cand ++ sorted := by simp [hq]
      simp only [heq, hmem]
      exact ih hnext
    · have hmem : q ∈ cand ++ s :: sorted ↔ q ∈ cand ++ [s] ++ sorted := by simp
      simp only [heq, hmem]
      exact ih hnext
    · rw [heq]
      by_cases hn : q.length = n
      · -- all keys behind the group are longer
        have hmem : q ∈ cand ++ s :: sorted ↔ q ∈ cand := by
          refine ⟨fun hmem => ?_, List.mem_append_left _⟩
          rcases List.mem_append.mp hmem with hmem | hmem
          · exact hmem
          · rcases List.mem_cons.mp hmem with rfl | hmem
            · omega
            · have := h.le q hmem
              omega
        apply Or.inl
        simp only [hmem]
        have henter := enter_doCand dict hcand hn rest len
        rw [hn, enter_append_of_some henter]
        rfl
      · have hnot : Label.case (q.length : Int) ∉ Stmt.labels (doCand dict n cand) := by
          rw [labels_doCand]
          simpa using hn
        have hmem : q ∈ cand ++ s :: sorted ↔ q ∈ [s] ++ sorted := by
          have : q ∉ cand := fun hmem => hn (hcand.length q hmem)
          simp [this]
        rw [enter_append_of_notMem hnot, labels_append]
        simp only [hmem]
        rcases ih hnext with henter | ⟨hlabel, hother⟩
        · exact .inl henter
        · exact .inr ⟨fun h => (List.mem_append.mp h).elim hnot hlabel, hother⟩

/-! ## The generated function -/

theorem get?_of_mem {ph : Switch} (h : q ∈ ph.keys) : ph.get? q = some (ph.get q) := by
  obtain ⟨⟨k, v⟩, hmem, rfl⟩ := List.mem_map.mp h
  have hfind : ph.dict.find? (·.1 = k) = some (k, v) := by
    cases hfind : ph.dict.find? (·.1 = k) with
    | none =>
      have := List.find?_eq_none.mp hfind _ hmem
      simp at this
    | some e =>
      have hk : e.1 = k := by simpa using List.find?_some hfind
      rw [List.inj_on_of_nodup_map ph.nodup (List.mem_of_find?_eq_some hfind) hmem hk]
  rw [get, get?, hfind]
  rfl

theorem get?_of_notMem {ph : Switch} (h : q ∉ ph.keys) : ph.get? q = none := by
  rw [get?, Option.map_eq_none_iff, List.find?_eq_none]
  intro e he hk
  exact h (List.mem_map.mpr ⟨e, he, by simpa using hk⟩)

/-- The loop starts with all keys. -/
theorem group_start (ph : Switch) : Group (sortOn List.length ph.keys) none [] where
  ascending := sortOn_pairwise _ _
  nodup := (sortOn_perm _ _).nodup_iff.mpr ph.nodup
  group := .inl ⟨rfl, rfl⟩

/-- The body of the generated function returns for every string. -/
theorem exec_saveC {ph : Switch} (hkeys : ∀ k ∈ ph.keys, k.length < 2 ^ 31) (q rest : Bytes) :
    execList (env (q ++ rest) q.length) (saveC ph).body =
      some (.return (if q = [] then -1 else (ph.get? q).getD (-1))) := by
  have hgroup := group_start ph
  have hmem : q ∈ [] ++ sortOn List.length ph.keys ↔ q ∈ ph.keys := (sortOn_perm _ _).mem_iff
  have hlabels := labels_dispatch ph.get hgroup
  have hok : Stmt.LabelsOk (dispatch ph.get (sortOn List.length ph.keys) none []) := by
    refine ⟨hlabels.1, fun lab hlab => ?_⟩
    obtain ⟨k, hk, -, rfl⟩ := hlabels.2 lab hlab
    have := hkeys k ((sortOn_perm _ _).mem_iff.mp hk)
    exact ⟨by omega, by omega⟩
  have hdefault : enter (env (q ++ rest) q.length) .default
      (dispatch ph.get (sortOn List.length ph.keys) none []) = none := by
    apply enter_eq_none
    intro hlab
    obtain ⟨_, _, _, heq⟩ := hlabels.2 _ hlab
    cases heq
  -- without a case for its length, the string gets to the last statement
  have hnone (hlab : .case q.length ∉ Stmt.labels
      (dispatch ph.get (sortOn List.length ph.keys) none [])) :
      execList (env (q ++ rest) q.length) (saveC ph).body = some (.return (-1)) := by
    rw [saveC, execList_cons, exec_switch_none hok rfl (enter_eq_none hlab) hdefault,
      andThen_next, execList_cons, exec, andThen_return]
  by_cases hq : q = []
  · rw [if_pos hq]
    apply hnone
    intro hlab
    obtain ⟨k, -, hk, hcase⟩ := hlabels.2 _ hlab
    rw [hq] at hcase
    have : (0 : Int) = k.length := by simpa using hcase
    exact hk (List.length_eq_zero_iff.mp (by omega))
  · rw [if_neg hq]
    rcases enter_dispatch ph.get hgroup hq rest q.length with henter | ⟨hlab, hnot⟩
    · rw [saveC, execList_cons, exec_switch_case hok rfl henter]
      simp only [hmem]
      change some (Outcome.return (if q ∈ ph.keys then ph.get q else -1)) = _
      by_cases hkey : q ∈ ph.keys
      · rw [if_pos hkey, get?_of_mem hkey, Option.getD_some]
      · rw [if_neg hkey, get?_of_notMem hkey, Option.getD_none]
    · rw [hnone hlab, get?_of_notMem (mt hmem.mpr hnot), Option.getD_none]

theorem bounds_of_get? {ph : Switch} {v : Int} (h : ph.get? q = some v) :
    -2 ^ 63 ≤ v ∧ v < 2 ^ 64 := by
  obtain ⟨e, he, rfl⟩ := Option.map_eq_some_iff.mp h
  exact ph.bounds e (List.mem_of_find?_eq_some he)

/-- A call of the generated function passes a string: with `-nul` its bytes and its length,
otherwise its bytes and a NUL. -/
inductive Passes (q : Bytes) : Bool → Bytes → Nat → Prop
  | nul (rest : Bytes) : Passes q true (q ++ rest) q.length
  | strlen (h : 0 ∉ q) (rest : Bytes) (l : Nat) : Passes q false (q ++ 0 :: rest) l

/-- The `long` that a value is returned as: the value itself unless it needs the 64th bit. -/
def asLong (v : Int) : Int := if v < 2 ^ 63 then v else v - 2 ^ 64

theorem long_conv_eq {v : Int} (hge : -2 ^ 63 ≤ v) (hlt : v < 2 ^ 64) : long.conv v = asLong v := by
  unfold asLong
  split
  · exact IntType.conv_of_fits ⟨by norm_num [long]; omega, by norm_num [long]; omega⟩
  · change v.bmod (2 ^ 64) = _
    rw [Int.bmod_def]
    omega

/-- What the body returns, as a `long`. -/
theorem long_conv_returned (ph : Switch) (q : Bytes) :
    long.conv (if q = [] then -1 else (ph.get? q).getD (-1)) =
      if q = [] then -1 else ((ph.get? q).map asLong).getD (-1) := by
  split
  · rfl
  · cases hv : ph.get? q with
    | none => rfl
    | some v =>
      obtain ⟨hge, hlt⟩ := bounds_of_get? hv
      exact long_conv_eq hge hlt

/-- The generated function returns the value of a nonempty key as a `long`, and `-1` for any other
string. -/
theorem lookup_saveC {ph : Switch} {q s : Bytes} {l : Nat}
    (hkeys : ∀ k ∈ ph.keys, k.length < 2 ^ 31) (hq : q.length < 2 ^ 31)
    (hcall : Passes q (saveC ph).nul s l) :
    (saveC ph).lookup s l = some (if q = [] then -1 else ((ph.get? q).map asLong).getD (-1)) := by
  have hl : unsignedInt.conv q.length = q.length ∧ int.conv q.length = q.length :=
    ⟨IntType.conv_of_fits ⟨by omega, by norm_num [unsignedInt]; omega⟩,
      IntType.conv_of_fits ⟨by norm_num [int]; omega, by norm_num [int]; omega⟩⟩
  unfold CFile.lookup
  generalize hnul : (saveC ph).nul = nul at hcall
  cases hcall with
  | nul rest => simpa [hl.2, exec_saveC hkeys] using long_conv_returned ph q
  | strlen h rest l =>
    simpa [strlen_append h, hl.1, exec_saveC hkeys] using long_conv_returned ph q

/-- Keys of three lengths. More than three of those with three bytes have the same last byte, and
one has a value of 64 bits. -/
def manyKeys (options : List String) : Switch where
  dict := [([97, 98], 5), ([97, 97, 99], 1), ([98, 98, 99], -3), ([99, 97, 99], 7), ([48], 2),
    ([100, 98, 99], 2 ^ 64 - 2), ([97, 97, 98], 6), ([], 8)]
  nodup := by decide
  bounds := by decide
  options

theorem lookup_saveC_manyKeys :
    (saveC (manyKeys [])).lookup [97, 97, 98, 0] 0 = some 6 ∧
      (saveC (manyKeys [])).lookup [100, 98, 99, 0] 0 = some (-2) ∧
      (saveC (manyKeys ["-nul"])).lookup [100, 0, 99] 3 = some (-1) :=
  ⟨lookup_saveC (q := [97, 97, 98]) (by decide) (by decide) (.strlen (by decide) [] 0),
    lookup_saveC (q := [100, 98, 99]) (by decide) (by decide) (.strlen (by decide) [] 0),
    lookup_saveC (q := [100, 0, 99]) (by decide) (by decide) (.nul [])⟩

/-- One key with the largest value. -/
def aMax : Switch where
  dict := [([97], 18446744073709551615)]
  nodup := by decide
  bounds := by decide
  options := []

/-- The largest value is returned as the `-1` that stands for an absent string. -/
theorem not_lookup_saveC : ¬ ∀ (ph : Switch) (q s : Bytes) (l : Nat),
    (∀ k ∈ ph.keys, k.length < 2 ^ 31) → q.length < 2 ^ 31 → Passes q (saveC ph).nul s l →
    (saveC ph).lookup s l = some (if q = [] then -1 else (ph.get? q).getD (-1)) := by
  intro h
  have hmax := h aMax [97] [97, 0] 0 (by decide) (by decide) (.strlen (by decide) [] 0)
  exact absurd hmax (by decide +kernel)

end PerfectHash.Switch
