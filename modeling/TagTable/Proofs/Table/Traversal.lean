import TagTable.Proofs.Table.Row
import TagTable.Table.Visit

/-!
# Traversals of the entries

A traversal of a row of groups is a traversal of the list of its entries.

* `visitEntries`, `selectEntries`: a visitor and a predicate at the entries of a list;
* `Group.Rewritten`, `Group.Trimmed`: what a traversal may do to a group;
* **`eachGroup_spec`**, **`filterGroups_spec`**: the traversals of a row;
* `Table.visitEntries_entries`, `Table.selectEntries_entries`: and those of a table.
-/

namespace TagTable

section

variable {τ : Type}

/-- The entry with bytes written over its value. -/
def Entry.write (e : Entry) (value : Bytes) : Entry :=
  { e with value := Bytes.writeOver e.value value }

/-- The visitor at the entries of a list, until it stops. -/
def visitEntries (visitor : τ → Bytes → Bytes → Visit τ) : List Entry → τ → Sweep τ (List Entry)
  | [], state => ⟨state, [], false⟩
  | e :: rest, state =>
    let visit := visitor state e.key e.value
    if visit.stop then ⟨visit.state, e.write visit.value :: rest, true⟩
    else
      let others := visitEntries visitor rest visit.state
      { others with after := e.write visit.value :: others.after }

/-- The entries of a list that the predicate keeps. -/
def selectEntries (keep : τ → Bytes → Bytes → Bool × τ) :
    List Entry → τ → Selection τ (List Entry)
  | [], state => ⟨state, [], 0⟩
  | e :: rest, state =>
    match keep state e.key e.value with
    | (true, state) =>
      let others := selectEntries keep rest state
      { others with after := e :: others.after }
    | (false, state) =>
      let others := selectEntries keep rest state
      { others with removed := others.removed + 1 }

variable {visitor : τ → Bytes → Bytes → Visit τ} {keep : τ → Bytes → Bytes → Bool × τ}

theorem visitEntries_append (l₁ l₂ : List Entry) (state : τ) :
    visitEntries visitor (l₁ ++ l₂) state =
      let first := visitEntries visitor l₁ state
      if first.stopped then ⟨first.state, first.after ++ l₂, true⟩
      else
        let others := visitEntries visitor l₂ first.state
        ⟨others.state, first.after ++ others.after, others.stopped⟩ := by
  induction l₁ generalizing state with
  | nil => rfl
  | cons e l₁ ih =>
    rw [List.cons_append, visitEntries, visitEntries]
    by_cases hs : (visitor state e.key e.value).stop = true
    · simp [hs]
    · simp only [hs, Bool.false_eq_true, if_false, ih]
      split_ifs <;> rfl

theorem selectEntries_append (l₁ l₂ : List Entry) (state : τ) :
    selectEntries keep (l₁ ++ l₂) state =
      let first := selectEntries keep l₁ state
      let others := selectEntries keep l₂ first.state
      ⟨others.state, first.after ++ others.after, first.removed + others.removed⟩ := by
  induction l₁ generalizing state with
  | nil => simp [selectEntries]
  | cons e l₁ ih =>
    rw [List.cons_append, selectEntries, selectEntries]
    rcases keep state e.key e.value with ⟨_ | _, state'⟩
    · simp only [ih]
      rw [Nat.add_right_comm]
    · simp only [ih]
      rfl

variable (keep) in
theorem length_selectEntries (l : List Entry) (state : τ) :
    (selectEntries keep l state).after.length + (selectEntries keep l state).removed = l.length := by
  induction l generalizing state with
  | nil => rfl
  | cons e l ih =>
    rw [selectEntries]
    rcases keep state e.key e.value with ⟨_ | _, state'⟩
    · have := ih state'
      simp only [List.length_cons]
      omega
    · have := ih state'
      simp only [List.length_cons]
      omega

variable (visitor) in
theorem keys_visitEntries (l : List Entry) (state : τ) :
    (visitEntries visitor l state).after.map Entry.key = l.map Entry.key := by
  induction l generalizing state with
  | nil => rfl
  | cons e l ih =>
    rw [visitEntries]
    dsimp only
    split_ifs
    · rfl
    · exact congrArg (e.key :: ·) (ih _)

variable (keep) in
theorem sublist_selectEntries (l : List Entry) (state : τ) :
    (selectEntries keep l state).after.Sublist l := by
  induction l generalizing state with
  | nil => exact List.Sublist.slnil
  | cons e l ih =>
    rw [selectEntries]
    rcases keep state e.key e.value with ⟨_ | _, state'⟩
    · exact (ih state').cons e
    · exact (ih state').cons_cons e

/-! ## One group -/

namespace Group

variable {g g' g'' : Group}

/-- Values may have been written over; nothing else has changed. -/
structure Rewritten (g g' : Group) : Prop where
  tags : g'.tags = g.tags
  key : ∀ i : SlotIndex, g'.cells[i].key = g.cells[i].key
  length : ∀ i : SlotIndex, g'.cells[i].value.length = g.cells[i].value.length

/-- Entries may have been removed; nothing else has changed. -/
structure Trimmed (g g' : Group) : Prop where
  cells : g'.cells = g.cells
  tags : ∀ i : SlotIndex, g'.tags.bytes[i] = g.tags.bytes[i] ∨
    2 ≤ g.tags.bytes[i] ∧ g'.tags.bytes[i] = Tag.tombstone

theorem Rewritten.refl (g : Group) : Rewritten g g := ⟨rfl, fun _ => rfl, fun _ => rfl⟩

theorem Rewritten.trans (h : Rewritten g g') (h' : Rewritten g' g'') : Rewritten g g'' :=
  ⟨h'.tags.trans h.tags, fun i => (h'.key i).trans (h.key i),
    fun i => (h'.length i).trans (h.length i)⟩

theorem Trimmed.refl (g : Group) : Trimmed g g := ⟨rfl, fun _ => .inl rfl⟩

theorem Trimmed.trans (h : Trimmed g g') (h' : Trimmed g' g'') : Trimmed g g'' := by
  refine ⟨h'.cells.trans h.cells, fun i => ?_⟩
  rcases h'.tags i with h₂ | ⟨h₂, ht⟩
  · rw [h₂]
    exact h.tags i
  · rcases h.tags i with h₁ | ⟨h₁, -⟩
    · exact .inr ⟨h₁ ▸ h₂, ht⟩
    · exact .inr ⟨h₁, ht⟩

theorem cells_overwrite (g : Group) (i j : SlotIndex) (value : Bytes) :
    (g.overwrite i value).cells[j] = if j = i then g.cells[i].write value else g.cells[j] :=
  getElem_putSlot g.cells i j (g.cells[i].write value)

theorem tags_bury (g : Group) (i j : SlotIndex) :
    (g.bury i).tags.bytes[j] = if j = i then Tag.tombstone else g.tags.bytes[j] :=
  getElem_putSlot g.tags.bytes i j Tag.tombstone

theorem rewritten_overwrite (g : Group) (i : SlotIndex) (value : Bytes) :
    Rewritten g (g.overwrite i value) := by
  refine ⟨rfl, fun j => ?_, fun j => ?_⟩
  · rw [cells_overwrite]
    split_ifs with h
    · rw [h]
      rfl
    · rfl
  · rw [cells_overwrite]
    split_ifs with h
    · rw [h]
      exact Bytes.length_writeOver _ _
    · rfl

theorem trimmed_bury {i : SlotIndex} (hi : 2 ≤ g.tags.bytes[i]) : Trimmed g (g.bury i) := by
  refine ⟨rfl, fun j => ?_⟩
  rw [tags_bury]
  split_ifs with h
  · exact .inr ⟨h ▸ hi, rfl⟩
  · exact .inl rfl

variable (visitor) in
theorem rewritten_each (l : List SlotIndex) (state : τ) (g : Group) :
    Rewritten g (g.each visitor l state).after := by
  induction l generalizing state g with
  | nil => exact Rewritten.refl g
  | cons i l ih =>
    rw [each]
    split_ifs
    · exact rewritten_overwrite g i _
    · exact (rewritten_overwrite g i _).trans (ih _ _)

theorem cells_each_of_notMem {l : List SlotIndex} {i : SlotIndex} (hi : i ∉ l) (state : τ)
    (g : Group) : (g.each visitor l state).after.cells[i] = g.cells[i] := by
  induction l generalizing state g with
  | nil => rfl
  | cons j l ih =>
    rw [List.mem_cons, not_or] at hi
    rw [each]
    split_ifs
    · rw [cells_overwrite, if_neg hi.1]
    · rw [ih hi.2, cells_overwrite, if_neg hi.1]

variable (visitor) in
theorem each_eq_visitEntries {l : List SlotIndex} (hl : l.Nodup) (state : τ) (g : Group) :
    visitEntries visitor (l.map fun i => g.cells[i]) state =
      ⟨(g.each visitor l state).state, l.map fun i => (g.each visitor l state).after.cells[i],
        (g.each visitor l state).stopped⟩ := by
  induction l generalizing state g with
  | nil => rfl
  | cons i l ih =>
    obtain ⟨hi, hl⟩ := List.nodup_cons.1 hl
    have hrest : ∀ value, (l.map fun j => (g.overwrite i value).cells[j]) =
        l.map fun j => g.cells[j] := fun value =>
      List.map_congr_left fun j hj => by
        rw [cells_overwrite, if_neg fun e : j = i => hi (e ▸ hj)]
    rw [List.map_cons, visitEntries, each, List.map_cons]
    by_cases hs : (visitor state g.cells[i].key g.cells[i].value).stop = true
    · simp only [hs, if_true, hrest]
      rw [cells_overwrite, if_pos rfl]
    · simp only [hs, Bool.false_eq_true, if_false]
      rw [← hrest (visitor state g.cells[i].key g.cells[i].value).value, ih hl,
        cells_each_of_notMem hi, cells_overwrite, if_pos rfl]

theorem trimmed_filter {l : List SlotIndex} (hl : l.Nodup) (state : τ) (g : Group)
    (hlive : ∀ i ∈ l, 2 ≤ g.tags.bytes[i]) : Trimmed g (g.filter keep l state).after := by
  induction l generalizing state g with
  | nil => exact Trimmed.refl g
  | cons i l ih =>
    obtain ⟨hi, hl⟩ := List.nodup_cons.1 hl
    have hrest : ∀ j ∈ l, 2 ≤ g.tags.bytes[j] := fun j hj => hlive j (List.mem_cons_of_mem i hj)
    rw [filter]
    rcases keep state g.cells[i].key g.cells[i].value with ⟨_ | _, state'⟩
    · refine (trimmed_bury (hlive i (List.mem_cons_self ..))).trans (ih hl state' _ fun j hj => ?_)
      rw [tags_bury, if_neg fun e : j = i => hi (e ▸ hj)]
      exact hrest j hj
    · exact ih hl state' g hrest

theorem tags_filter_of_notMem {l : List SlotIndex} {i : SlotIndex} (hi : i ∉ l) (state : τ)
    (g : Group) : (g.filter keep l state).after.tags.bytes[i] = g.tags.bytes[i] := by
  induction l generalizing state g with
  | nil => rfl
  | cons j l ih =>
    rw [List.mem_cons, not_or] at hi
    rw [filter]
    rcases keep state g.cells[j].key g.cells[j].value with ⟨_ | _, state'⟩
    · exact (ih hi.2 state' _).trans (by rw [tags_bury, if_neg hi.1])
    · exact ih hi.2 state' g

variable (keep) in
theorem filter_eq_selectEntries {l : List SlotIndex} (hl : l.Nodup) (state : τ) (g : Group)
    (hlive : ∀ i ∈ l, 2 ≤ g.tags.bytes[i]) :
    selectEntries keep (l.map fun i => g.cells[i]) state =
      ⟨(g.filter keep l state).state,
        (l.filter fun i : SlotIndex =>
          decide (2 ≤ (g.filter keep l state).after.tags.bytes[i])).map fun i => g.cells[i],
        (g.filter keep l state).removed⟩ := by
  induction l generalizing state g with
  | nil => rfl
  | cons i l ih =>
    obtain ⟨hi, hl⟩ := List.nodup_cons.1 hl
    have hrest : ∀ j ∈ l, 2 ≤ g.tags.bytes[j] := fun j hj => hlive j (List.mem_cons_of_mem i hj)
    rw [List.map_cons, selectEntries, filter]
    rcases keep state g.cells[i].key g.cells[i].value with ⟨_ | _, state'⟩
    · have hbury : ∀ j ∈ l, 2 ≤ (g.bury i).tags.bytes[j] := fun j hj => by
        rw [tags_bury, if_neg fun e : j = i => hi (e ▸ hj)]
        exact hrest j hj
      -- The other slots are not slot `i`, so its tombstone is still there in the end.
      have hgone : ¬ decide (2 ≤ ((g.bury i).filter keep l state').after.tags.bytes[i]) = true := by
        rw [tags_filter_of_notMem hi, tags_bury, if_pos rfl, decide_eq_true_iff]
        exact TagRow.not_two_le_tombstone
      have h := ih hl state' (g.bury i) hbury
      simp only [show (g.bury i).cells = g.cells from rfl] at h
      simp only [h]
      rw [List.filter_cons, if_neg hgone]
    · have hkept : decide (2 ≤ (g.filter keep l state').after.tags.bytes[i]) = true := by
        rw [tags_filter_of_notMem hi, decide_eq_true_iff]
        exact hlive i (List.mem_cons_self ..)
      simp only [ih hl state' g hrest]
      rw [List.filter_cons, if_pos hkept, List.map_cons]

theorem Rewritten.live_eq (h : Rewritten g g') : g'.live = g.live := by
  rw [live, live, h.tags]

theorem Trimmed.entries_eq (h : Trimmed g g') :
    g'.entries = (g.live.filter fun i : SlotIndex => decide (2 ≤ g'.tags.bytes[i])).map
      fun i => g.cells[i] := by
  have hlive : g'.live = g.live.filter fun i : SlotIndex => decide (2 ≤ g'.tags.bytes[i]) := by
    rw [live_eq_filter, live_eq_filter, List.filter_filter]
    refine List.filter_congr fun i _ => ?_
    rcases h.tags i with hi | ⟨-, hi⟩
    · rw [hi, Bool.and_self]
    · rw [hi, decide_eq_false TagRow.not_two_le_tombstone, Bool.false_and]
  rw [entries, hlive, h.cells]

theorem entries_each (state : τ) (g : Group) :
    visitEntries visitor g.entries state =
      ⟨(g.each visitor g.live state).state, (g.each visitor g.live state).after.entries,
        (g.each visitor g.live state).stopped⟩ := by
  have h := each_eq_visitEntries visitor g.nodup_live state g
  rw [← entries] at h
  rw [h, entries, (rewritten_each visitor g.live state g).live_eq]

theorem trimmed_filter_live (state : τ) (g : Group) :
    Trimmed g (g.filter keep g.live state).after :=
  trimmed_filter g.nodup_live state g fun _ => mem_live.1

theorem entries_filter (state : τ) (g : Group) :
    selectEntries keep g.entries state =
      ⟨(g.filter keep g.live state).state, (g.filter keep g.live state).after.entries,
        (g.filter keep g.live state).removed⟩ := by
  have h := filter_eq_selectEntries keep g.nodup_live state g fun _ => mem_live.1
  rw [← entries] at h
  rw [h, (trimmed_filter_live state g).entries_eq]

end Group

/-! ## A row of groups -/

variable (visitor) in
/-- **A visitor at a row of groups rewrites values and is the visitor at the entries of the row.** -/
theorem eachGroup_spec (gs : List Group) (state : τ) :
    List.Forall₂ Group.Rewritten gs (eachGroup visitor gs state).after ∧
      visitEntries visitor (gs.flatMap Group.entries) state =
        ⟨(eachGroup visitor gs state).state,
          (eachGroup visitor gs state).after.flatMap Group.entries,
          (eachGroup visitor gs state).stopped⟩ := by
  induction gs generalizing state with
  | nil => exact ⟨.nil, rfl⟩
  | cons g gs ih =>
    have hfirst := Group.rewritten_each visitor g.live state g
    rw [List.flatMap_cons, visitEntries_append, Group.entries_each, eachGroup]
    by_cases hs : (g.each visitor g.live state).stopped = true
    · simp only [hs, if_true]
      refine ⟨.cons hfirst ?_, rfl⟩
      exact List.forall₂_same.2 fun g _ => Group.Rewritten.refl g
    · obtain ⟨hothers, heq⟩ := ih (g.each visitor g.live state).state
      simp only [hs, Bool.false_eq_true, if_false, heq]
      exact ⟨.cons hfirst hothers, rfl⟩

variable (keep) in
/-- **A predicate at a row of groups removes entries and is the predicate at the entries of the
row.** -/
theorem filterGroups_spec (gs : List Group) (state : τ) :
    List.Forall₂ Group.Trimmed gs (filterGroups keep gs state).after ∧
      selectEntries keep (gs.flatMap Group.entries) state =
        ⟨(filterGroups keep gs state).state,
          (filterGroups keep gs state).after.flatMap Group.entries,
          (filterGroups keep gs state).removed⟩ := by
  induction gs generalizing state with
  | nil => exact ⟨.nil, rfl⟩
  | cons g gs ih =>
    obtain ⟨hothers, heq⟩ := ih (g.filter keep g.live state).state
    rw [List.flatMap_cons, selectEntries_append, Group.entries_filter, filterGroups]
    simp only [heq]
    exact ⟨.cons (Group.trimmed_filter_live state g) hothers, rfl⟩

theorem Table.visitEntries_entries (t : Table) (visitor : τ → Bytes → Bytes → Visit τ) (state : τ) :
    visitEntries visitor t.entries state =
      ⟨(t.each visitor state).state, (t.each visitor state).after.entries,
        (t.each visitor state).stopped⟩ :=
  (eachGroup_spec visitor t.groups.toList state).2

theorem Table.selectEntries_entries (t : Table) (keep : τ → Bytes → Bytes → Bool × τ) (state : τ) :
    selectEntries keep t.entries state =
      ⟨(t.filter keep state).state, (t.filter keep state).after.entries,
        (t.filter keep state).removed⟩ :=
  (filterGroups_spec keep t.groups.toList state).2

theorem Table.size_each (t : Table) (visitor : τ → Bytes → Bytes → Visit τ) (state : τ) :
    (t.each visitor state).after.groups.size = t.groups.size :=
  List.size_toArray.trans
    ((eachGroup_spec visitor t.groups.toList state).1.length_eq.symm.trans Array.length_toList)

theorem Table.size_filter (t : Table) (keep : τ → Bytes → Bytes → Bool × τ) (state : τ) :
    (t.filter keep state).after.groups.size = t.groups.size :=
  List.size_toArray.trans
    ((filterGroups_spec keep t.groups.toList state).1.length_eq.symm.trans Array.length_toList)

theorem getD_of_forall₂ {R : Group → Group → Prop} (hR : R Group.empty Group.empty)
    {gs gs' : List Group} (h : List.Forall₂ R gs gs') (g : Nat) :
    R (gs.toArray.getD g Group.empty) (gs'.toArray.getD g Group.empty) := by
  rw [Array.getD_eq_getD_getElem?, Array.getD_eq_getD_getElem?, List.getElem?_toArray,
    List.getElem?_toArray]
  induction h generalizing g with
  | nil => exact hR
  | cons hhead _ ih =>
    cases g with
    | zero => exact hhead
    | succ g => exact ih g

end

end TagTable
