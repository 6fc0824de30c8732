import PerfectHash.Urban.Packing
import PerfectHash.HanovPP.Lookup

/-! # Reading the packed tables

What `iv_perfecthash` reads of a string that holds two tables: it recovers their size, and where
every entry is read back (`ReadsBack`) it follows `G` to the entry of `V` that `HanovPP` reads. A
seed below `seedBound` keeps its sign and an index below `valueBound` is not cut. -/

namespace PerfectHash.Urban

open C CValues HanovPP

/-- The seeds below this bound are read as such. -/
def seedBound (w : Nat) : Int := if w = 4 then 2 ^ 31 - 1 else 2 ^ (8 * w - 1)

/-- The indexes below this bound are read as such. -/
def valueBound (w : Nat) : Nat := if w = 1 then 2 ^ 8 else 2 ^ (8 * w - 1)

variable {hash : Bytes → Nat → Nat} {w n i base : Nat} {g x v d : Int} {s key : Bytes}
  {t : Tables Int} {ph : Urban}

/-! ## Entries and indexes as they are read -/

/-- An entry of `G` as it is read: a seed that is too large looks like a slot. -/
theorem fixSign_decode (hw : Width w) (hlow : -2 ^ (8 * w - 1) ≤ g) (hhigh : g < 2 ^ (8 * w)) :
    ∃ d, fixSign (8 * w) (decode w g) = .ok d ∧ (g < seedBound w → d = g) ∧
      (seedBound w ≤ g → d < 0) := by
  rcases hw with rfl | rfl | rfl
  · refine ⟨_, rfl, ?_⟩
    norm_num [decode, seedBound] at hlow hhigh ⊢
    split <;> omega
  · refine ⟨_, rfl, ?_⟩
    norm_num [decode, seedBound, Int.bmod_def] at hlow hhigh ⊢
    split <;> split <;> omega
  · refine ⟨_, rfl, ?_⟩
    norm_num [decode, seedBound, Int.bmod_def] at hlow hhigh ⊢
    split <;> split <;> omega

theorem decode_of_lt (hw : Width w) (h0 : 0 ≤ x) (h : x < valueBound w) : decode w x = x := by
  rcases hw with rfl | rfl | rfl
  · norm_num [decode, valueBound] at h ⊢
    omega
  · norm_num [decode, valueBound, Int.bmod_def] at h ⊢
    omega
  · norm_num [decode, valueBound, Int.bmod_def] at h ⊢
    omega

/-- Entries that need no more bits than the width fit it, with a bit for the sign if there are
negative ones. -/
theorem bounds_of_neededBits {G : List Int} (hw : Width w) (h : neededBits G ≤ 8 * w)
    (hg : g ∈ G) : -2 ^ (8 * w - 1) ≤ g ∧ g < 2 ^ (8 * w) := by
  have hk : 2 ≤ 8 * w := by rcases hw with rfl | rfl | rfl <;> decide
  have hbound := (neededBits_le_iff hk).mp h g hg
  by_cases hneg : ∃ g ∈ G, g < 0
  · rw [signFactor, if_pos hneg] at hbound
    rcases hw with rfl | rfl | rfl <;> norm_num at hbound ⊢ <;> omega
  · have hg0 : ¬ g < 0 := fun hlt => hneg ⟨g, hg, hlt⟩
    rw [signFactor, if_neg hneg] at hbound
    rcases hw with rfl | rfl | rfl <;> norm_num at hbound ⊢ <;> omega

/-- A read that returns was inside the string. -/
theorem exists_of_inside {β : Type} {o : Option α} {f : α → β} {y : β}
    (h : (inside o >>= fun x => pure (f x)) = .ok y) : ∃ x, o = some x ∧ f x = y := by
  obtain ⟨x, hx, h⟩ := bind_eq_ok.mp h
  cases o with
  | none => cases hx
  | some x' =>
    cases hx
    exact ⟨x, rfl, Except.ok.inj h⟩

theorem vec_lt (hw : Width w) (h : vec s base i (8 * w) = .ok v) : v < valueBound w := by
  rcases hw with rfl | rfl | rfl
  · obtain ⟨x, -, rfl⟩ := exists_of_inside (f := fun x => signedChar.conv x % 256) h
    norm_num [valueBound]
    omega
  · obtain ⟨x, -, rfl⟩ := exists_of_inside (f := short.conv) h
    norm_num [valueBound, IntType.conv, short, Int.bmod_def]
    split <;> omega
  · obtain ⟨x, -, rfl⟩ := exists_of_inside (f := int.conv) h
    norm_num [valueBound, IntType.conv, int, Int.bmod_def]
    split <;> omega

/-! ## Packed tables -/

/-- The string holds the tables `t` of `n` slots each at the width of `w` bytes. -/
structure Stored (t : Tables Int) (n w : Nat) (ph : Urban) : Prop where
  width : Width w
  bits : ph.bits = 8 * w
  G : ph.G = Cells.encode w (t.G ++ t.V.map Scalar.number)
  length_G : t.G.length = n
  length_V : t.V.length = n

theorem stored_of_pack (hw : Width w) (hbits : ph.bits = 8 * w)
    (hpack : pack ph.bits n t = .ok ph.G) (hG : t.G.length = n) (hV : t.V.length = n) :
    Stored t n w ph := by
  rw [hbits, pack_eq hw hG hV] at hpack
  exact ⟨hw, hbits, (Except.ok.inj hpack).symm, hG, hV⟩

/-- `iv_perfecthash` recovers the size. -/
theorem Stored.size_eq (h : Stored t n w ph) : 4 * ph.G.length / ph.bits = n := by
  rw [h.bits, h.G, Cells.length_encode, List.length_append, List.length_map, h.length_G,
    h.length_V]
  rcases h.width with rfl | rfl | rfl <;> omega

/-- The offset of `V`. -/
theorem Stored.offset_eq (h : Stored t n w ph) : n * ph.bits / 8 = w * n := by
  rw [h.bits]
  rcases h.width with rfl | rfl | rfl <;> omega

theorem Stored.vec_G (h : Stored t n w ph) (hi : t.G[i]? = some g) :
    vec ph.G 0 i ph.bits = .ok (decode w g) := by
  rw [h.G, h.bits]
  apply vec_encode 0 h.width
  rw [Nat.zero_add, List.getElem?_append_left (List.getElem?_eq_some_iff.mp hi).1, hi]

theorem Stored.vec_V {v : Option Int} (h : Stored t n w ph) (hi : t.V[i]? = some v) :
    vec ph.G (w * n) i ph.bits = .ok (decode w (Scalar.number v)) := by
  rw [h.G, h.bits]
  apply vec_encode n h.width
  rw [List.getElem?_append_right (by rw [h.length_G]; omega), h.length_G,
    Nat.add_sub_cancel_left, List.getElem?_map, hi]
  rfl

/-! ## Tables that are read back -/

/-- `iv_perfecthash` reads each entry of `G` with its sign and each entry of `V` unchanged. -/
structure ReadsBack (ph : Urban) (t : Tables Int) : Prop where
  G : ∀ (i : Nat) g, t.G[i]? = some g → vec ph.G 0 i ph.bits >>= fixSign ph.bits = .ok g
  V : ∀ (i : Nat) v, t.V[i]? = some v →
    vec ph.G (4 * ph.G.length / ph.bits * ph.bits / 8) i ph.bits = .ok (Scalar.number v)

/-- The lookup reads an entry of `G` and then the entry of `V` to which that leads. -/
theorem ivLookup_eq (hn : 0 < n) (hsize : 4 * ph.G.length / ph.bits = n)
    (hd : vec ph.G 0 (hash key 0 % n) ph.bits >>= fixSign ph.bits = .ok d) :
    ivLookup hash ph key =
      vec ph.G (n * ph.bits / 8) (entrySlot hash n d key) ph.bits := by
  obtain ⟨g, hg, hfix⟩ := bind_eq_ok.mp hd
  simp only [ivLookup, hsize, if_neg hn.ne', hg, hfix, bind, Except.bind]
  unfold entrySlot
  split
  · rfl
  · split <;> rfl

/-- Where the tables are read back, the lookup is that of `HanovPP`. -/
theorem ReadsBack.ivLookup_eq (h : ReadsBack ph t) (hn : 0 < t.G.length)
    (hsize : 4 * ph.G.length / ph.bits = t.G.length)
    (hslot : slotOf hash t.G.length t.G key < t.V.length) :
    ivLookup hash ph key =
      .ok (Scalar.number (SlotTable.get t.V (slotOf hash t.G.length t.G key))) := by
  have hget := getElem?_eq_getD hslot none
  rw [Urban.ivLookup_eq hn hsize (h.G _ _ (getElem?_eq_getD (Nat.mod_lt _ hn) 0)), ← slotOf,
    ← hsize, h.V _ _ (hsize ▸ hget), SlotTable.get, hsize, hget]
  rfl

/-- Entries that fit the width are read back. -/
theorem Stored.readsBack (h : Stored t n w ph)
    (hG : ∀ g ∈ t.G, -2 ^ (8 * w - 1) ≤ g ∧ g < seedBound w)
    (hV : ∀ v ∈ t.V, 0 ≤ Scalar.number v ∧ Scalar.number v < valueBound w) : ReadsBack ph t where
  G i g hi := by
    obtain ⟨hlow, hhigh⟩ := hG g (List.mem_of_getElem? hi)
    have hbound : seedBound w ≤ 2 ^ (8 * w) := by
      rcases h.width with rfl | rfl | rfl <;> decide
    obtain ⟨d, hd, hseed, -⟩ := fixSign_decode h.width hlow (hhigh.trans_le hbound)
    rw [h.vec_G hi, h.bits]
    exact hseed hhigh ▸ hd
  V i v hi := by
    obtain ⟨h0, hlt⟩ := hV v (List.mem_of_getElem? hi)
    rw [h.size_eq, h.offset_eq, h.vec_V hi, decode_of_lt h.width h0 hlt]

end PerfectHash.Urban
