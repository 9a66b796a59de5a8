import Mathlib.Logic.Relation
import TagTable.Proofs.Table.Cursor
import TagTable.Proofs.Table.InPlace

/-!
# The life of a slot

As long as a table keeps its buffer, a slot is empty at first, then holds one key, then a tombstone, and
nothing after that.

* `Slot`, `slotIn`; `Slot.Step`: what an operation may do to a slot; `Slot.Later`: what many may;
* **`Slot.Later.eq_of_tombstone`**, `Slot.Later.of_live`: a slot after any number of operations;
* `Steady`: what an operation may do to all slots; `steady_occupy`, `steady_overwrite`, `steady_bury`,
  **`steady_each`**, `steady_filter`;
* `rollIn`, `map_snd_rollIn`: the keys with their slots, in the order of an iteration;
* **`Table.InPlace.rollIn_sublist`**, `Steady.inPlace`, `Steady.inPlace_left`: the keys that are left keep
  their order.
-/

namespace TagTable

/-- What a slot holds: a tag, and an entry that means something only behind the tag of a key. -/
structure Slot where
  tag : UInt8
  entry : Entry

/-- What a slot of a group holds. -/
def Group.slot (g : Group) (i : SlotIndex) : Slot := ⟨g.tags.bytes[i], g.cells[i]⟩

/-- What a slot of a row holds. -/
def slotIn (groups : Array Group) (p : Position) : Slot :=
  (groups.getD p.group Group.empty).slot p.slot

theorem slotIn_eq (groups : Array Group) (p : Position) :
    slotIn groups p = ⟨tagIn groups p, cellIn groups p⟩ := rfl

namespace Slot

/-! ## One slot -/

/-- **What an operation may do to a slot**, by whether it may add and whether it may remove entries. -/
inductive Step (adds removes : Bool) (s : Slot) : Slot → Prop
  | kept : Step adds removes s s
  /-- An empty slot gets a key. -/
  | claimed {s' : Slot} (hadds : adds = true) (hs : s.tag = Tag.empty) (hs' : 2 ≤ s'.tag) :
    Step adds removes s s'
  /-- Another value is written to a live slot. -/
  | edited {s' : Slot} (hs : 2 ≤ s.tag) (htag : s'.tag = s.tag)
    (hkey : s'.entry.key = s.entry.key) : Step adds removes s s'
  /-- A live slot gets a tombstone, which leaves the stored bytes where they are. -/
  | buried (hremoves : removes = true) (hs : 2 ≤ s.tag) :
    Step adds removes s ⟨Tag.tombstone, s.entry⟩

variable {adds removes : Bool} {s s' : Slot}

theorem Step.mono {adds' removes' : Bool} (hadds : adds = true → adds' = true)
    (hremoves : removes = true → removes' = true) (h : Step adds removes s s') :
    Step adds' removes' s s' := by
  cases h with
  | kept => exact .kept
  | claimed h hs hs' => exact .claimed (hadds h) hs hs'
  | edited hs htag hkey => exact .edited hs htag hkey
  | buried h hs => exact .buried (hremoves h) hs

theorem Step.eq_of_tombstone (h : Step adds removes s s') (hs : s.tag = Tag.tombstone) : s' = s := by
  cases h with
  | kept => rfl
  | claimed _ hempty => exact absurd (hs.symm.trans hempty) TagRow.tombstone_ne_empty
  | edited hlive => exact absurd (hs ▸ hlive) TagRow.not_two_le_tombstone
  | buried _ hlive => exact absurd (hs ▸ hlive) TagRow.not_two_le_tombstone

theorem Step.of_live (h : Step adds removes s s') (hs : 2 ≤ s.tag) :
    s'.tag = s.tag ∧ s'.entry.key = s.entry.key ∨
      removes = true ∧ s'.tag = Tag.tombstone ∧ s'.entry = s.entry := by
  cases h with
  | kept => exact .inl ⟨rfl, rfl⟩
  | claimed _ hempty => exact absurd (hempty ▸ hs) TagRow.not_two_le_empty
  | edited _ htag hkey => exact .inl ⟨htag, hkey⟩
  | buried hremoves => exact .inr ⟨hremoves, rfl, rfl⟩

theorem Step.of_live_after (h : Step adds removes s s') (hs' : 2 ≤ s'.tag) :
    s'.tag = s.tag ∧ s'.entry.key = s.entry.key ∨ adds = true ∧ s.tag = Tag.empty := by
  cases h with
  | kept => exact .inl ⟨rfl, rfl⟩
  | claimed hadds hempty => exact .inr ⟨hadds, hempty⟩
  | edited _ htag hkey => exact .inl ⟨htag, hkey⟩
  | buried => exact absurd hs' TagRow.not_two_le_tombstone

/-- What any number of operations may do to a slot. -/
def Later : Slot → Slot → Prop := Relation.ReflTransGen (Step true true)

/-- **A slot with a tombstone is never written again.** -/
theorem Later.eq_of_tombstone (h : Later s s') (hs : s.tag = Tag.tombstone) : s' = s := by
  induction h with
  | refl => rfl
  | tail _ hstep ih =>
    subst ih
    exact hstep.eq_of_tombstone hs

/-- **A live slot holds the same key behind the same tag, or a tombstone and the same key.** -/
theorem Later.of_live (h : Later s s') (hs : 2 ≤ s.tag) :
    (s'.tag = s.tag ∨ s'.tag = Tag.tombstone) ∧ s'.entry.key = s.entry.key := by
  induction h with
  | refl => exact ⟨.inl rfl, rfl⟩
  | tail _ hstep ih =>
    obtain ⟨htag | htag, hkey⟩ := ih
    · rcases hstep.of_live (htag ▸ hs) with ⟨htag', hkey'⟩ | ⟨-, htag', hentry⟩
      · exact ⟨.inl (htag'.trans htag), hkey'.trans hkey⟩
      · exact ⟨.inr htag', (congrArg Entry.key hentry).trans hkey⟩
    · rw [hstep.eq_of_tombstone htag]
      exact ⟨.inr htag, hkey⟩

end Slot

/-! ## All slots -/

/-- **What an operation may do to all slots**: a step at each of them, and at most one of them gets a
key. -/
structure Steady (adds removes : Bool) (before after : Position → Slot) : Prop where
  step : ∀ p, Slot.Step adds removes (before p) (after p)
  once : ∀ p q, (before p).tag = Tag.empty → 2 ≤ (after p).tag →
    (before q).tag = Tag.empty → 2 ≤ (after q).tag → p = q

variable {adds removes : Bool} {before after : Position → Slot}

theorem Steady.of_unclaimed (h : ∀ p, Slot.Step false removes (before p) (after p)) :
    Steady adds removes before after := by
  refine ⟨fun p => (h p).mono (absurd · Bool.false_ne_true) id, fun p _ hempty hlive => ?_⟩
  rcases (h p).of_live_after hlive with ⟨htag, -⟩ | ⟨hadds, -⟩
  · rw [htag, hempty] at hlive
    exact absurd hlive TagRow.not_two_le_empty
  · exact absurd hadds Bool.false_ne_true

theorem Steady.refl (slots : Position → Slot) : Steady adds removes slots slots :=
  .of_unclaimed fun _ => .kept

theorem Steady.of_one {p : Position} (hothers : ∀ q, q ≠ p → after q = before q)
    (hp : Slot.Step adds removes (before p) (after p)) : Steady adds removes before after := by
  have hclaim : ∀ q, (before q).tag = Tag.empty → 2 ≤ (after q).tag → q = p := by
    intro q hempty hlive
    by_contra hq
    rw [hothers q hq, hempty] at hlive
    exact TagRow.not_two_le_empty hlive
  refine ⟨fun q => ?_, fun q q' hq hq' hr hr' => (hclaim q hq hq').trans (hclaim q' hr hr').symm⟩
  by_cases hq : q = p
  · exact hq ▸ hp
  · rw [hothers q hq]
    exact .kept

variable {t : Table} {p : Position}

theorem steady_occupy {home : Nat} (hv : FirstVacancy t.groups home p) (h : UInt64) (e : Entry) :
    Steady true removes (slotIn t.groups) (slotIn (t.occupy p (Tag.ofHash h) e).groups) := by
  have htag := tagIn_occupy hv.group_lt (Tag.ofHash h) e
  have hcell := cellIn_occupy hv.group_lt (Tag.ofHash h) e
  have hclaimed : (slotIn (t.occupy p (Tag.ofHash h) e).groups p).tag = Tag.ofHash h :=
    (htag p).trans (if_pos rfl)
  refine .of_one (p := p) (fun q hq => ?_) (.claimed rfl hv.tag_eq ?_)
  · exact congrArg₂ Slot.mk ((htag q).trans (if_neg hq)) ((hcell q).trans (if_neg hq))
  · rw [hclaimed]
    exact Tag.two_le_ofHash h

theorem steady_overwrite (hp : 2 ≤ tagIn t.groups p) (value : Bytes) :
    Steady adds removes (slotIn t.groups) (slotIn (t.overwrite p value).groups) := by
  have hg := group_lt_of_two_le hp
  have htag := tagIn_overwrite hg value
  have hcell := cellIn_overwrite hg value
  refine .of_one (p := p) (fun q hq => ?_) (.edited hp (htag p) ?_)
  · exact congrArg₂ Slot.mk (htag q) ((hcell q).trans (if_neg hq))
  · have hkey := congrArg Entry.key ((hcell p).trans (if_pos rfl))
    exact hkey

theorem steady_bury (hp : 2 ≤ tagIn t.groups p) :
    Steady adds true (slotIn t.groups) (slotIn (t.bury p).groups) := by
  have hg := group_lt_of_two_le hp
  have htag := tagIn_bury hg
  have hcell := cellIn_bury hg
  have hburied : slotIn (t.bury p).groups p = ⟨Tag.tombstone, (slotIn t.groups p).entry⟩ :=
    congrArg₂ Slot.mk ((htag p).trans (if_pos rfl)) (hcell p)
  refine .of_one (p := p) (fun q hq => ?_) (hburied ▸ .buried rfl hp)
  exact congrArg₂ Slot.mk ((htag q).trans (if_neg hq)) (hcell q)

theorem steady_of_forall₂ {gs : List Group} (h : List.Forall₂
    (fun g g' => ∀ i, Slot.Step false removes (g.slot i) (g'.slot i)) t.groups.toList gs) :
    Steady adds removes (slotIn t.groups) (slotIn gs.toArray) :=
  .of_unclaimed fun q =>
    getD_of_forall₂ (R := fun g g' => ∀ i, Slot.Step false removes (g.slot i) (g'.slot i))
      (fun _ => .kept) h q.group q.slot

section

variable {τ : Type}

theorem Group.step_each (visitor : τ → Bytes → Bytes → Visit τ) (state : τ) (g : Group)
    (i : SlotIndex) :
    Slot.Step false false (g.slot i) ((g.each visitor g.live state).after.slot i) := by
  have hrew := rewritten_each visitor g.live state g
  have htag : ((g.each visitor g.live state).after.slot i).tag = (g.slot i).tag := by
    rw [slot, slot, hrew.tags]
  by_cases hi : i ∈ g.live
  · exact .edited (mem_live.1 hi) htag (hrew.key i)
  · -- The visitor is not shown what a dead slot stores, and leaves it alone.
    have hcell : (g.each visitor g.live state).after.cells[i] = g.cells[i] :=
      cells_each_of_notMem hi state g
    rw [show (g.each visitor g.live state).after.slot i = g.slot i from congrArg₂ Slot.mk htag hcell]
    exact .kept

theorem forall₂_each (visitor : τ → Bytes → Bytes → Visit τ) (gs : List Group) (state : τ) :
    List.Forall₂ (fun g g' => ∀ i, Slot.Step false false (g.slot i) (g'.slot i)) gs
      (eachGroup visitor gs state).after := by
  induction gs generalizing state with
  | nil => exact .nil
  | cons g gs ih =>
    have hfirst := Group.step_each visitor state g
    rw [eachGroup]
    by_cases hs : (g.each visitor g.live state).stopped = true
    · simp only [hs, if_true]
      exact .cons hfirst (List.forall₂_same.2 fun _ _ _ => .kept)
    · simp only [hs, Bool.false_eq_true, if_false]
      exact .cons hfirst (ih _)

theorem steady_each (t : Table) (visitor : τ → Bytes → Bytes → Visit τ) (state : τ) :
    Steady adds false (slotIn t.groups) (slotIn (t.each visitor state).after.groups) :=
  steady_of_forall₂ (forall₂_each visitor t.groups.toList state)

theorem Group.Trimmed.step {g g' : Group} (h : Trimmed g g') (i : SlotIndex) :
    Slot.Step false true (g.slot i) (g'.slot i) := by
  have hcell : g'.cells[i] = g.cells[i] := by rw [h.cells]
  rcases h.tags i with htag | ⟨hlive, htag⟩
  · rw [show g'.slot i = g.slot i from congrArg₂ Slot.mk htag hcell]
    exact .kept
  · rw [show g'.slot i = ⟨Tag.tombstone, (g.slot i).entry⟩ from congrArg₂ Slot.mk htag hcell]
    exact .buried rfl hlive

theorem steady_filter (t : Table) (keep : τ → Bytes → Bytes → Bool × τ) (state : τ) :
    Steady adds true (slotIn t.groups) (slotIn (t.filter keep state).after.groups) :=
  steady_of_forall₂ ((filterGroups_spec keep t.groups.toList state).1.imp fun _ _ h => h.step)

end

/-! ## The order of the entries -/

/-- The key of a live slot, with the slot. -/
def rollAt (groups : Array Group) (p : Position) : Option (Position × Bytes) :=
  (stored groups p).map fun e => (p, e.key)

/-- The keys of a row with their slots, in slot order. -/
def rollIn (groups : Array Group) : List (Position × Bytes) :=
  (positions groups.size).filterMap (rollAt groups)

/-- **The keys are in the order of an iteration.** -/
theorem map_snd_rollIn (h : t.count = t.entries.length) :
    (rollIn t.groups).map Prod.snd = t.cursor.drain.map Entry.key := by
  rw [t.drain_cursor h, Table.entries_eq, entriesIn_eq_filterMap, rollIn, List.map_filterMap,
    List.map_filterMap]
  refine List.filterMap_congr fun p _ => ?_
  rw [rollAt, Option.map_map]
  rfl

variable {groups : Array Group}

theorem rollIn_eq_filterMap {n : Nat} (h : groups.size ≤ n) :
    rollIn groups = (positions n).filterMap (rollAt groups) := by
  obtain ⟨k, rfl⟩ := Nat.exists_eq_add_of_le h
  have hbehind : ∀ p ∈ ((List.range k).map (groups.size + ·)).flatMap
      (fun g => (List.finRange 16).map (Position.mk g)), rollAt groups p = none := by
    intro p hp
    have hle : groups.size ≤ p.group := by
      simp only [List.mem_flatMap, List.mem_map] at hp
      obtain ⟨_, ⟨_, -, rfl⟩, _, -, rfl⟩ := hp
      exact Nat.le_add_right ..
    rw [rollAt, stored_eq_none.2 (tagIn_of_size_le hle ▸ TagRow.not_two_le_empty)]
    rfl
  rw [rollIn, positions, positions, List.range_add, List.flatMap_append, List.filterMap_append,
    List.filterMap_eq_nil_iff.2 hbehind, List.append_nil]

theorem filterMap_sublist_filterMap {α β : Type} {f g : α → Option β} (l : List α)
    (h : ∀ a, f a = none ∨ f a = g a) : (l.filterMap f).Sublist (l.filterMap g) := by
  induction l with
  | nil => exact List.Sublist.slnil
  | cons a l ih =>
    rw [List.filterMap_cons, List.filterMap_cons]
    rcases h a with ha | ha
    · rw [ha]
      cases g a with
      | none => exact ih
      | some b => exact ih.cons b
    · rw [ha]
      cases g a with
      | none => exact ih
      | some b => exact ih.cons_cons b

/-- **Entries that stay in their slots stay in their order.** -/
theorem Table.InPlace.rollIn_sublist {u : Table} (h : t.InPlace u) :
    (rollIn t.groups).Sublist (rollIn u.groups) := by
  rw [rollIn_eq_filterMap (Nat.le_max_left t.groups.size u.groups.size),
    rollIn_eq_filterMap (Nat.le_max_right t.groups.size u.groups.size)]
  refine filterMap_sublist_filterMap _ fun p => ?_
  by_cases hp : 2 ≤ tagIn t.groups p
  · obtain ⟨htag, hkey⟩ := h p hp
    have hlive : 2 ≤ u.tagAt p := by
      rw [htag]
      exact hp
    right
    rw [rollAt, rollAt, stored_eq_some.2 ⟨hp, rfl⟩, stored_eq_some.2 ⟨hlive, rfl⟩]
    exact congrArg (fun key => some (p, key)) hkey.symm
  · exact .inl (by rw [rollAt, stored_eq_none.2 hp]; rfl)

/-- **What removes nothing leaves all entries in their slots.** -/
theorem Steady.inPlace {u : Table} (h : Steady adds false (slotIn t.groups) (slotIn u.groups)) :
    t.InPlace u := by
  intro p hp
  rcases (h.step p).of_live hp with hkept | ⟨hremoves, -⟩
  · exact hkept
  · exact absurd hremoves Bool.false_ne_true

theorem Steady.inPlace_left {u : Table} (h : Steady false removes (slotIn t.groups) (slotIn u.groups)) :
    u.InPlace t := by
  intro p hp
  rcases (h.step p).of_live_after hp with ⟨htag, hkey⟩ | ⟨hadds, -⟩
  · exact ⟨htag.symm, hkey.symm⟩
  · exact absurd hadds Bool.false_ne_true

end TagTable
