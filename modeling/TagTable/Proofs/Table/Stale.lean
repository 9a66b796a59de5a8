import TagTable.Proofs.Table.Update
import TagTable.Proofs.Table.Cursor

/-!
# Stale bytes

Two buffers with the same tags and the same entries behind the tags of keys, whatever their other slots
store, cannot be told apart.

* `Group.Agree`, `RowsAgree`: the same tags and the same entries behind them;
* `Group.Agree.occupy`, `bury`, `overwrite`, `each`, `filter`: changes of a group that keep this;
* `RowsAgree.modify`, `RowsAgree.each`, `RowsAgree.filter`: changes of a row;
* `RowsAgree.entriesIn_eq`, **`walkFrom_congr`**, `RowsAgree.walkFrom_eq`: what is read of a row.
-/

namespace TagTable

/-! ## Groups -/

namespace Group

/-- The same tags, and the same entries behind the tags of keys. -/
structure Agree (g h : Group) : Prop where
  tags : h.tags = g.tags
  cell : ∀ i : SlotIndex, 2 ≤ g.tags.bytes[i] → h.cells[i] = g.cells[i]

namespace Agree

variable {g h : Group} {i : SlotIndex}

theorem refl (g : Group) : Agree g g := ⟨rfl, fun _ _ => rfl⟩

theorem live_eq (hgh : Agree g h) : h.live = g.live := by rw [live, live, hgh.tags]

theorem entries_eq (hgh : Agree g h) : h.entries = g.entries := by
  rw [entries, entries, hgh.live_eq]
  exact List.map_congr_left fun i hi => hgh.cell i (mem_live.1 hi)

theorem wipe (g h : Group) : Agree g.wipe h.wipe :=
  ⟨rfl, fun i hi => absurd hi (by simp [Group.wipe, TagRow.empty, TagRow.not_two_le_empty])⟩

theorem occupy (hgh : Agree g h) (i : SlotIndex) (tag : UInt8) (e : Entry) :
    Agree (g.occupy i tag e) (h.occupy i tag e) := by
  refine ⟨congrArg (TagRow.set · i tag) hgh.tags, fun j hj => ?_⟩
  have htag : (g.occupy i tag e).tags.bytes[j] = if j = i then tag else g.tags.bytes[j] :=
    getElem_putSlot g.tags.bytes i j tag
  rw [Group.occupy, getElem_putSlot, Group.occupy, getElem_putSlot]
  split_ifs at htag ⊢
  · rfl
  · exact hgh.cell j (htag ▸ hj)

theorem bury (hgh : Agree g h) (i : SlotIndex) : Agree (g.bury i) (h.bury i) := by
  refine ⟨congrArg (TagRow.set · i Tag.tombstone) hgh.tags, fun j hj => hgh.cell j ?_⟩
  rw [tags_bury] at hj
  split_ifs at hj
  · exact absurd hj TagRow.not_two_le_tombstone
  · exact hj

theorem overwrite (hgh : Agree g h) (hi : 2 ≤ g.tags.bytes[i]) (value : Bytes) :
    Agree (g.overwrite i value) (h.overwrite i value) := by
  refine ⟨hgh.tags, fun j hj => ?_⟩
  rw [cells_overwrite, cells_overwrite, hgh.cell i hi]
  split_ifs
  · rfl
  · exact hgh.cell j hj

section

variable {τ : Type} {l : List SlotIndex}

theorem each (hgh : Agree g h) (visitor : τ → Bytes → Bytes → Visit τ)
    (hl : ∀ i ∈ l, 2 ≤ g.tags.bytes[i]) (state : τ) :
    (h.each visitor l state).state = (g.each visitor l state).state ∧
      (h.each visitor l state).stopped = (g.each visitor l state).stopped ∧
      Agree (g.each visitor l state).after (h.each visitor l state).after := by
  induction l generalizing g h state with
  | nil => exact ⟨rfl, rfl, hgh⟩
  | cons i l ih =>
    have hi := hl i (List.mem_cons_self ..)
    rw [Group.each, Group.each, hgh.cell i hi]
    have hnext := hgh.overwrite hi (visitor state g.cells[i].key g.cells[i].value).value
    split_ifs
    · exact ⟨rfl, rfl, hnext⟩
    · exact ih hnext (fun j hj => hl j (List.mem_cons_of_mem i hj)) _

theorem filter (hgh : Agree g h) (keep : τ → Bytes → Bytes → Bool × τ) (hnd : l.Nodup)
    (hl : ∀ i ∈ l, 2 ≤ g.tags.bytes[i]) (state : τ) :
    (h.filter keep l state).state = (g.filter keep l state).state ∧
      (h.filter keep l state).removed = (g.filter keep l state).removed ∧
      Agree (g.filter keep l state).after (h.filter keep l state).after := by
  induction l generalizing g h state with
  | nil => exact ⟨rfl, rfl, hgh⟩
  | cons i l ih =>
    obtain ⟨hi, hnd⟩ := List.nodup_cons.1 hnd
    have hrest : ∀ j ∈ l, 2 ≤ g.tags.bytes[j] := fun j hj => hl j (List.mem_cons_of_mem i hj)
    rw [Group.filter, Group.filter, hgh.cell i (hl i (List.mem_cons_self ..))]
    rcases keep state g.cells[i].key g.cells[i].value with ⟨_ | _, state'⟩
    · -- The slots that are left are other ones, so they are still live.
      obtain ⟨hstate, hremoved, hafter⟩ := ih (hgh.bury i) hnd (fun j hj => by
        rw [tags_bury, if_neg fun e : j = i => hi (e ▸ hj)]
        exact hrest j hj) state'
      exact ⟨hstate, congrArg (· + 1) hremoved, hafter⟩
    · exact ih hgh hnd hrest state'

end

end Agree

end Group

/-! ## Rows -/

/-- Rows whose groups agree one by one. -/
def RowsAgree (groups groups' : Array Group) : Prop :=
  List.Forall₂ Group.Agree groups.toList groups'.toList

namespace RowsAgree

variable {groups groups' : Array Group}

theorem refl (groups : Array Group) : RowsAgree groups groups :=
  List.forall₂_same.2 fun g _ => Group.Agree.refl g

theorem size_eq (h : RowsAgree groups groups') : groups'.size = groups.size :=
  List.Forall₂.length_eq h |>.symm

theorem getD (h : RowsAgree groups groups') (g : Nat) :
    Group.Agree (groups.getD g Group.empty) (groups'.getD g Group.empty) :=
  getD_of_forall₂ (Group.Agree.refl _) h g

theorem tagIn_eq (h : RowsAgree groups groups') (p : Position) : tagIn groups' p = tagIn groups p := by
  rw [tagIn, (h.getD p.group).tags, tagIn]

theorem cellIn_eq (h : RowsAgree groups groups') {p : Position} (hp : 2 ≤ tagIn groups p) :
    cellIn groups' p = cellIn groups p := (h.getD p.group).cell p.slot hp

theorem stored_eq (h : RowsAgree groups groups') : stored groups' = stored groups := by
  funext p
  rw [stored, stored, h.tagIn_eq]
  split_ifs with hp
  · rw [h.cellIn_eq hp]
  · rfl

theorem entriesIn_eq (h : RowsAgree groups groups') : entriesIn groups' = entriesIn groups := by
  rw [entriesIn_eq_filterMap, entriesIn_eq_filterMap, h.size_eq, h.stored_eq]

theorem wipe (h : groups'.size = groups.size) :
    RowsAgree (groups.map Group.wipe) (groups'.map Group.wipe) := by
  rw [RowsAgree, Array.toList_map, Array.toList_map, List.forall₂_map_left_iff,
    List.forall₂_map_right_iff]
  refine List.forall₂_iff_get.2 ⟨by simpa using h.symm, fun i h₁ h₂ => Group.Agree.wipe _ _⟩

theorem modify (h : RowsAgree groups groups') {f : Group → Group} {i : Nat}
    (hf : ∀ g', (groups.getD i Group.empty).Agree g' →
      (f (groups.getD i Group.empty)).Agree (f g')) :
    RowsAgree (groups.modify i f) (groups'.modify i f) := by
  rw [RowsAgree, Array.toList_modify, Array.toList_modify]
  rw [Array.getD_eq_getD_getElem?, ← Array.getElem?_toList] at hf
  rw [RowsAgree] at h
  generalize groups.toList = l, groups'.toList = l' at *
  induction h generalizing i with
  | nil => cases i <;> exact .nil
  | cons hgh htail ih =>
    cases i with
    | zero => exact .cons (hf _ hgh) htail
    | succ i => exact .cons hgh (ih hf)

section

variable {τ : Type}

theorem each (h : RowsAgree groups groups') (visitor : τ → Bytes → Bytes → Visit τ) (state : τ) :
    (eachGroup visitor groups'.toList state).state = (eachGroup visitor groups.toList state).state ∧
      (eachGroup visitor groups'.toList state).stopped =
        (eachGroup visitor groups.toList state).stopped ∧
      RowsAgree (eachGroup visitor groups.toList state).after.toArray
        (eachGroup visitor groups'.toList state).after.toArray := by
  rw [RowsAgree] at h ⊢
  generalize groups.toList = gs, groups'.toList = gs' at h ⊢
  induction h generalizing state with
  | nil => exact ⟨rfl, rfl, .nil⟩
  | cons hgh htail ih =>
    obtain ⟨hstate, hstopped, hafter⟩ := hgh.each visitor (fun i => Group.mem_live.1) state
    rw [eachGroup, eachGroup, hgh.live_eq, hstopped]
    split_ifs
    · exact ⟨hstate, rfl, .cons hafter htail⟩
    · rw [hstate]
      obtain ⟨hstates, hstops, hafters⟩ := ih (Group.each visitor _ _ _).state
      exact ⟨hstates, hstops, .cons hafter hafters⟩

theorem filter (h : RowsAgree groups groups') (keep : τ → Bytes → Bytes → Bool × τ) (state : τ) :
    (filterGroups keep groups'.toList state).state = (filterGroups keep groups.toList state).state ∧
      (filterGroups keep groups'.toList state).removed =
        (filterGroups keep groups.toList state).removed ∧
      RowsAgree (filterGroups keep groups.toList state).after.toArray
        (filterGroups keep groups'.toList state).after.toArray := by
  rw [RowsAgree] at h ⊢
  generalize groups.toList = gs, groups'.toList = gs' at h ⊢
  induction h generalizing state with
  | nil => exact ⟨rfl, rfl, .nil⟩
  | @cons g _ _ _ hgh htail ih =>
    obtain ⟨hstate, hremoved, hafter⟩ :=
      hgh.filter keep g.nodup_live (fun i => Group.mem_live.1) state
    rw [filterGroups, filterGroups, hgh.live_eq, hstate, hremoved]
    obtain ⟨hstates, hremoveds, hafters⟩ := ih (g.filter keep g.live state).state
    exact ⟨hstates, congrArg ((g.filter keep g.live state).removed + ·) hremoveds,
      .cons hafter hafters⟩

end

end RowsAgree

/-! ## Walks -/

theorem searchSlots_congr {test test' : SlotIndex → Bool} {l : List SlotIndex}
    (h : ∀ i ∈ l, test' i = test i) : searchSlots test' l = searchSlots test l := by
  induction l with
  | nil => rfl
  | cons i l ih =>
    rw [searchSlots, searchSlots, h i (List.mem_cons_self ..),
      ih fun j hj => h j (List.mem_cons_of_mem i hj)]

section

variable {groups groups' : Array Group} {tag : UInt8} {test : Bytes → Bool}

/-- **A walk reads the tags, and the stored keys behind its own tag.** -/
theorem walkFrom_congr (hs : groups'.size = groups.size)
    (htags : ∀ g, (groups'.getD g Group.empty).tags = (groups.getD g Group.empty).tags)
    (hkeys : ∀ p, tagIn groups p = tag → (cellIn groups' p).key = (cellIn groups p).key)
    (visits g : Nat) : walkFrom groups' tag test visits g = walkFrom groups tag test visits g := by
  induction visits generalizing g with
  | zero => rfl
  | succ visits ih =>
    have htest : ∀ i ∈ ((groups.getD g Group.empty).tags.slotsWith tag).toList,
        test (groups'.getD g Group.empty).cells[i].key =
          test (groups.getD g Group.empty).cells[i].key := fun i hi =>
      congrArg test (hkeys ⟨g, i⟩ (TagRow.mem_slotsWith.1 hi))
    rw [walkFrom, walkFrom, htags, hs, ih, searchSlots_congr htest]

theorem RowsAgree.walkFrom_eq (h : RowsAgree groups groups') (htag : 2 ≤ tag) (visits g : Nat) :
    walkFrom groups' tag test visits g = walkFrom groups tag test visits g :=
  walkFrom_congr h.size_eq (fun g => (h.getD g).tags)
    (fun _ hp => congrArg Entry.key (h.cellIn_eq (hp.symm ▸ htag))) visits g

end

end TagTable
