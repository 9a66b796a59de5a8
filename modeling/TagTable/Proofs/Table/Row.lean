import Mathlib.Data.List.Nodup
import TagTable.Proofs.Slots.Scan
import TagTable.Table.Basic

/-!
# Rows of groups

The buffer of a table as a map from slots to tags and stored entries.

* `tagIn`, `cellIn`, `stored`: what the slots hold; `Full`: a group without an empty slot;
* `positions`, `entriesIn`: the slots, and the entries in slot order;
* `countTags`, `liveCount`, `buriedCount`: counts of tags;
* `entriesIn_change`, `countTags_change`: a change of one slot;
* `tagIn_occupy`, `tagIn_bury`, `tagIn_overwrite` and the same for `cellIn` and `Table.size`;
* **`exists_not_full`**: a row with fewer used slots than slots has a group that is not full.
-/

namespace TagTable

/-- The tag of a slot. -/
def tagIn (groups : Array Group) (p : Position) : UInt8 :=
  (groups.getD p.group Group.empty).tags.bytes[p.slot]

/-- What a slot stores, whether it is live or not. -/
def cellIn (groups : Array Group) (p : Position) : Entry :=
  (groups.getD p.group Group.empty).cells[p.slot]

/-- The entry of a live slot. -/
def stored (groups : Array Group) (p : Position) : Option Entry :=
  if 2 ≤ tagIn groups p then some (cellIn groups p) else none

/-- A group without an empty slot. -/
def Full (groups : Array Group) (g : Nat) : Prop := ∀ i : SlotIndex, tagIn groups ⟨g, i⟩ ≠ Tag.empty

/-- The slots of `n` groups, in slot order. -/
def positions (n : Nat) : List Position :=
  (List.range n).flatMap fun g => (List.finRange 16).map (Position.mk g)

/-- The entries of a row, in slot order. -/
def entriesIn (groups : Array Group) : List Entry := groups.toList.flatMap Group.entries

/-- The number of slots whose tag passes a test. -/
def countTags (P : UInt8 → Bool) (groups : Array Group) : Nat :=
  (positions groups.size).countP fun p => P (tagIn groups p)

/-- The number of live slots. -/
def liveCount (groups : Array Group) : Nat := countTags (fun b => decide (2 ≤ b)) groups

/-- The number of tombstones. -/
def buriedCount (groups : Array Group) : Nat := countTags (fun b => decide (b = Tag.tombstone)) groups

variable {groups groups' : Array Group} {p q : Position}

theorem Table.entries_eq (t : Table) : t.entries = entriesIn t.groups := rfl

/-! ## Slots and positions -/

theorem mem_positions {n : Nat} : p ∈ positions n ↔ p.group < n := by
  obtain ⟨g, i⟩ := p
  simp [positions]

theorem nodup_positions (n : Nat) : (positions n).Nodup := by
  refine List.nodup_flatMap.2 ⟨fun g _ => ?_, List.nodup_range.imp fun {a b} hab => ?_⟩
  · exact (List.nodup_finRange 16).map fun i j h => (Position.mk.inj h).2
  · intro p ha hb
    simp only [List.mem_map] at ha hb
    obtain ⟨_, _, rfl⟩ := ha
    obtain ⟨_, _, he⟩ := hb
    exact hab (Position.mk.inj he).1.symm

theorem length_positions (n : Nat) : (positions n).length = 16 * n := by
  rw [positions, List.length_flatMap]
  simp [Nat.mul_comm]

theorem tagIn_of_size_le (h : groups.size ≤ p.group) : tagIn groups p = Tag.empty := by
  rw [tagIn, Array.getD_eq_getD_getElem?, Array.getElem?_eq_none h]
  simp [Group.empty, TagRow.empty]

theorem group_lt_of_tag_ne_empty (h : tagIn groups p ≠ Tag.empty) : p.group < groups.size := by
  by_contra hp
  exact h (tagIn_of_size_le (Nat.le_of_not_lt hp))

theorem group_lt_of_two_le (h : 2 ≤ tagIn groups p) : p.group < groups.size :=
  group_lt_of_tag_ne_empty ((TagRow.two_le_iff _).1 h).1

theorem stored_eq_some {e : Entry} :
    stored groups p = some e ↔ 2 ≤ tagIn groups p ∧ cellIn groups p = e := by
  unfold stored
  split_ifs with h <;> simp [h]

theorem stored_eq_none : stored groups p = none ↔ ¬ 2 ≤ tagIn groups p := by
  unfold stored
  split_ifs with h <;> simp [h]

theorem stored_congr (ht : tagIn groups' q = tagIn groups q)
    (hc : cellIn groups' q = cellIn groups q) : stored groups' q = stored groups q := by
  rw [stored, stored, ht, hc]

theorem toList_eq_map_getD (groups : Array Group) :
    groups.toList = (List.range groups.size).map fun g => groups.getD g Group.empty := by
  apply List.ext_getElem
  · simp
  · intro i h₁ h₂
    simp [Array.getElem?_eq_getElem (show i < groups.size by simpa using h₁)]

theorem Group.entries_eq_filterMap (g : Group) :
    g.entries = (List.finRange 16).filterMap fun i : SlotIndex =>
      if 2 ≤ g.tags.bytes[i] then some g.cells[i] else none := by
  rw [entries, live_eq_filter]
  induction List.finRange 16 with
  | nil => rfl
  | cons i l ih =>
    rw [List.filter_cons, List.filterMap_cons]
    by_cases hi : 2 ≤ g.tags.bytes[i]
    · rw [if_pos (decide_eq_true hi), if_pos hi, List.map_cons, ih]
    · rw [if_neg (by simpa using hi), if_neg hi, ih]

/-- **The entries of a row are those of its live slots, in slot order.** -/
theorem entriesIn_eq_filterMap (groups : Array Group) :
    entriesIn groups = (positions groups.size).filterMap (stored groups) := by
  rw [entriesIn, toList_eq_map_getD, List.flatMap_map, positions, List.filterMap_flatMap]
  congr 1
  funext g
  rw [Group.entries_eq_filterMap, List.filterMap_map]
  rfl

theorem mem_entriesIn {e : Entry} : e ∈ entriesIn groups ↔ ∃ p, stored groups p = some e := by
  rw [entriesIn_eq_filterMap, List.mem_filterMap]
  constructor
  · rintro ⟨p, _, hp⟩
    exact ⟨p, hp⟩
  · rintro ⟨p, hp⟩
    exact ⟨p, mem_positions.2 (group_lt_of_two_le (stored_eq_some.1 hp).1), hp⟩

theorem length_entriesIn (groups : Array Group) :
    (entriesIn groups).length = liveCount groups := by
  rw [entriesIn_eq_filterMap, List.length_filterMap_eq_countP, liveCount, countTags]
  refine List.countP_congr fun p _ => ?_
  unfold stored
  split_ifs with h <;> simp [h]

/-! ## Counts of tags -/

theorem countTags_used (groups : Array Group) :
    countTags (fun b => decide (b ≠ Tag.empty)) groups = liveCount groups + buriedCount groups := by
  have hone : ∀ b : UInt8, (if b ≠ Tag.empty then 1 else 0) =
      (if 2 ≤ b then 1 else 0) + if b = Tag.tombstone then 1 else 0 := fun b => by
    have hne := TagRow.tombstone_ne_empty
    simp only [TagRow.two_le_iff]
    split_ifs <;> simp_all
  unfold liveCount buriedCount countTags
  induction positions groups.size with
  | nil => rfl
  | cons p l ih =>
    have hp := hone (tagIn groups p)
    rw [List.countP_cons, List.countP_cons, List.countP_cons, ih]
    simp only [decide_eq_true_eq]
    omega

/-- **A row with fewer used slots than slots has a group that is not full.** -/
theorem exists_not_full (h : liveCount groups + buriedCount groups < 16 * groups.size) :
    ∃ g < groups.size, ¬ Full groups g := by
  by_contra hfull
  push Not at hfull
  have hall : countTags (fun b => decide (b ≠ Tag.empty)) groups = 16 * groups.size := by
    rw [countTags, ← length_positions, List.countP_eq_length]
    intro p hp
    exact decide_eq_true (hfull p.group (mem_positions.1 hp) p.slot)
  rw [countTags_used] at hall
  omega

/-! ## A change of one slot -/

/-- When only slot `p` changes, the other entries stay and keep their order. -/
theorem entriesIn_change (hs : groups'.size = groups.size) (hp : p.group < groups.size)
    (h : ∀ q, q ≠ p → stored groups' q = stored groups q) :
    ∃ l₁ l₂, entriesIn groups = l₁ ++ (stored groups p).toList ++ l₂ ∧
      entriesIn groups' = l₁ ++ (stored groups' p).toList ++ l₂ := by
  obtain ⟨as, bs, hl⟩ := List.append_of_mem (mem_positions.2 hp)
  have hnd := nodup_positions groups.size
  rw [hl, List.nodup_append, List.nodup_cons] at hnd
  have ha : as.filterMap (stored groups') = as.filterMap (stored groups) :=
    List.filterMap_congr fun q hq => h q fun e => hnd.2.2 q hq p (List.mem_cons_self ..) e
  have hb : bs.filterMap (stored groups') = bs.filterMap (stored groups) :=
    List.filterMap_congr fun q hq => h q fun e => hnd.2.1.1 (e ▸ hq)
  refine ⟨as.filterMap (stored groups), bs.filterMap (stored groups), ?_, ?_⟩
  · rw [entriesIn_eq_filterMap, hl, List.filterMap_append, List.filterMap_cons, List.append_assoc]
    cases stored groups p <;> rfl
  · rw [entriesIn_eq_filterMap, hs, hl, List.filterMap_append, List.filterMap_cons, ha, hb,
      List.append_assoc]
    cases stored groups' p <;> rfl

theorem countTags_change (P : UInt8 → Bool) (hs : groups'.size = groups.size)
    (hp : p.group < groups.size) (h : ∀ q, q ≠ p → tagIn groups' q = tagIn groups q) :
    countTags P groups' + (P (tagIn groups p)).toNat =
      countTags P groups + (P (tagIn groups' p)).toNat := by
  obtain ⟨as, bs, hl⟩ := List.append_of_mem (mem_positions.2 hp)
  have hnd := nodup_positions groups.size
  rw [hl, List.nodup_append, List.nodup_cons] at hnd
  have ha : as.countP (fun q => P (tagIn groups' q)) = as.countP fun q => P (tagIn groups q) :=
    List.countP_congr fun q hq => by
      rw [h q fun e => hnd.2.2 q hq p (List.mem_cons_self ..) e]
  have hb : bs.countP (fun q => P (tagIn groups' q)) = bs.countP fun q => P (tagIn groups q) :=
    List.countP_congr fun q hq => by rw [h q fun e => hnd.2.1.1 (e ▸ hq)]
  rw [countTags, countTags, hs, hl, List.countP_append, List.countP_append, List.countP_cons,
    List.countP_cons, ha, hb]
  cases P (tagIn groups p) <;> cases P (tagIn groups' p) <;> simp <;> omega

/-! ## The four changes of a group -/

theorem getD_modify (hp : p.group < groups.size) (f : Group → Group) (g : Nat) :
    (groups.modify p.group f).getD g Group.empty =
      if g = p.group then f (groups.getD g Group.empty) else groups.getD g Group.empty := by
  rw [Array.getD_eq_getD_getElem?, Array.getD_eq_getD_getElem?, Array.getElem?_modify]
  by_cases hg : g = p.group
  · subst hg
    simp [Array.getElem?_eq_getElem hp]
  · simp [hg, Ne.symm hg]

theorem tagIn_occupy (hp : p.group < groups.size) (tag : UInt8) (e : Entry) (q : Position) :
    tagIn (groups.modify p.group (·.occupy p.slot tag e)) q =
      if q = p then tag else tagIn groups q := by
  obtain ⟨g, i⟩ := p
  obtain ⟨g', j⟩ := q
  rw [tagIn, getD_modify hp]
  by_cases hg : g' = g
  · simp [hg, Group.occupy, TagRow.set, putSlot, Vector.getElem_set, Fin.ext_iff, eq_comm, tagIn]
  · simp [hg, tagIn]

theorem cellIn_occupy (hp : p.group < groups.size) (tag : UInt8) (e : Entry) (q : Position) :
    cellIn (groups.modify p.group (·.occupy p.slot tag e)) q =
      if q = p then e else cellIn groups q := by
  obtain ⟨g, i⟩ := p
  obtain ⟨g', j⟩ := q
  rw [cellIn, getD_modify hp]
  by_cases hg : g' = g
  · simp [hg, Group.occupy, putSlot, Vector.getElem_set, Fin.ext_iff, eq_comm, cellIn]
  · simp [hg, cellIn]

theorem tagIn_bury (hp : p.group < groups.size) (q : Position) :
    tagIn (groups.modify p.group (·.bury p.slot)) q =
      if q = p then Tag.tombstone else tagIn groups q := by
  obtain ⟨g, i⟩ := p
  obtain ⟨g', j⟩ := q
  rw [tagIn, getD_modify hp]
  by_cases hg : g' = g
  · simp [hg, Group.bury, TagRow.set, putSlot, Vector.getElem_set, Fin.ext_iff, eq_comm, tagIn]
  · simp [hg, tagIn]

theorem cellIn_bury (hp : p.group < groups.size) (q : Position) :
    cellIn (groups.modify p.group (·.bury p.slot)) q = cellIn groups q := by
  rw [cellIn, getD_modify hp]
  split_ifs <;> rfl

theorem tagIn_overwrite (hp : p.group < groups.size) (value : Bytes) (q : Position) :
    tagIn (groups.modify p.group (·.overwrite p.slot value)) q = tagIn groups q := by
  rw [tagIn, getD_modify hp]
  split_ifs <;> rfl

theorem cellIn_overwrite (hp : p.group < groups.size) (value : Bytes) (q : Position) :
    cellIn (groups.modify p.group (·.overwrite p.slot value)) q =
      if q = p then { cellIn groups p with value := Bytes.writeOver (cellIn groups p).value value }
      else cellIn groups q := by
  obtain ⟨g, i⟩ := p
  obtain ⟨g', j⟩ := q
  rw [cellIn, getD_modify hp]
  by_cases hg : g' = g
  · simp [hg, Group.overwrite, putSlot, Vector.getElem_set, Fin.ext_iff, eq_comm, cellIn]
  · simp [hg, cellIn]

/-! ## No change of a table moves its end -/

namespace Table

variable (t : Table)

theorem size_occupy (p : Position) (tag : UInt8) (e : Entry) :
    (t.occupy p tag e).groups.size = t.groups.size :=
  Array.size_modify

theorem size_bury (p : Position) : (t.bury p).groups.size = t.groups.size :=
  Array.size_modify

theorem size_overwrite (p : Position) (value : Bytes) :
    (t.overwrite p value).groups.size = t.groups.size :=
  Array.size_modify

theorem size_clear : t.clear.groups.size = t.groups.size :=
  Array.size_map

end Table

end TagTable
