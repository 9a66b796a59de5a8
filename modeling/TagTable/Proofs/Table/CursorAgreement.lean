import TagTable.Proofs.Table.Stale
import TagTable.Table.Debug

/-!
# Cursors over rows that differ in stale bytes

* `Cursor.Move`, `Cursor.move`, `Cursor.watch`: the uses of a cursor and what they show;
* `Cursor.Live`, `Cursor.Agree`: the slots that are left hold entries; the same cursor over another row;
* `Cursor.Agree.next`, `nth`, `readValue`, **`Cursor.Agree.watch_eq`**: both cursors show the same.
-/

namespace TagTable

namespace Cursor

/-- A use of a cursor. -/
inductive Move where
  | next
  | nth (n : Nat)
  | readValue (buffer : Bytes) (skip : Nat)

/-- What a use of a cursor gives. -/
inductive Find where
  | entry (entry : Option Entry)
  | value (result : Except Error Unit) (buffer : Bytes)

/-- A use of a cursor, and the cursor after it. -/
def move (c : Cursor) : Move → Find × Cursor
  | .next => (.entry c.next.1, c.next.2)
  | .nth n => (.entry (c.nth n).1, (c.nth n).2)
  | .readValue buffer skip =>
    (.value (c.readValue buffer skip).1 (c.readValue buffer skip).2.1,
      (c.readValue buffer skip).2.2)

/-- What uses of a cursor one after the other give, each with the number of entries left and the debug
text of the cursor. -/
def watch : List Move → Cursor → List (Find × Nat × (Style → String))
  | [], _ => []
  | m :: rest, c =>
    ((c.move m).1, (c.move m).2.remaining, fun style => (c.move m).2.debugText style) ::
      watch rest (c.move m).2

/-- The slots of the present group that are left hold entries. -/
def Live (c : Cursor) : Prop := ∀ i ∈ c.current.toList, 2 ≤ tagIn c.groups ⟨c.group, i⟩

/-- The same cursor over a row that agrees with its own. A cursor at its end may have slots left in a
group that it has gone past. -/
inductive Agree (c : Cursor) : Cursor → Prop
  | intro {groups : Array Group} (h : RowsAgree c.groups groups) (hlive : c.remaining ≠ 0 → c.Live) :
    Agree c { c with groups := groups }

variable {c d : Cursor} {groups : Array Group}

theorem step?_agree (h : RowsAgree c.groups groups) (hlive : c.Live) :
    c.step? = none ∧ step? { c with groups := groups } = none ∨
      ∃ e c' d', c.step? = some (e, c') ∧ step? { c with groups := groups } = some (e, d') ∧
        c'.Agree d' := by
  rw [step?, step?]
  cases hnext : c.current.next with
  | none => exact .inl ⟨rfl, rfl⟩
  | some step =>
    obtain ⟨i, rest⟩ := step
    rw [Live, SlotSet.toList_of_next hnext] at hlive
    have hcell := h.cellIn_eq (hlive i (List.mem_cons_self ..))
    refine .inr ⟨_, _, _, rfl, ?_, .intro h fun _ j hj => hlive j (List.mem_cons_of_mem i hj)⟩
    exact congrArg (fun e => some (e, _)) hcell

theorem advance_agree (h : RowsAgree c.groups groups) (visits : Nat) :
    advance visits { c with groups := groups } =
        ((c.advance visits).1, { (c.advance visits).2 with groups := groups }) ∧
      (c.advance visits).2.groups = c.groups ∧
      ((c.advance visits).1 = true → (c.advance visits).2.Live) := by
  induction visits generalizing c with
  | zero => exact ⟨rfl, rfl, fun h0 => absurd h0 Bool.false_ne_true⟩
  | succ visits ih =>
    rw [advance, advance]
    dsimp only
    rw [h.size_eq, (h.getD c.upcoming).tags]
    by_cases hlt : c.upcoming < c.groups.size
    · rw [if_pos hlt, if_pos hlt]
      by_cases hany : (c.groups.getD c.upcoming Group.empty).tags.live.any = true
      · rw [if_pos hany, if_pos hany]
        exact ⟨rfl, rfl, fun _ i hi => Group.mem_live.1 hi⟩
      · rw [if_neg hany, if_neg hany]
        exact ih (c := { c with group := c.upcoming, upcoming := c.upcoming + 1 }) h
    · rw [if_neg hlt, if_neg hlt]
      exact ⟨rfl, rfl, fun h0 => absurd h0 Bool.false_ne_true⟩

theorem enterNext_agree (h : RowsAgree c.groups groups) :
    enterNext { c with groups := groups } =
        (c.enterNext.1, { c.enterNext.2 with groups := groups }) ∧
      c.enterNext.2.groups = c.groups ∧ (c.enterNext.1 = true → c.enterNext.2.Live) := by
  have hadvance := advance_agree h (c.groups.size - c.upcoming)
  rw [enterNext, enterNext]
  dsimp only
  rw [h.size_eq]
  exact hadvance

theorem dropCurrent_agree (n : Nat) (c : Cursor) (groups : Array Group) :
    dropCurrent n { c with groups := groups } = { c.dropCurrent n with groups := groups } := by
  induction n generalizing c with
  | zero => rfl
  | succ n ih => exact ih { c with current := c.current.clearLowest }

theorem Live.dropCurrent (hlive : c.Live) (n : Nat) :
    (c.dropCurrent n).Live ∧ (c.dropCurrent n).groups = c.groups := by
  induction n generalizing c with
  | zero => exact ⟨hlive, rfl⟩
  | succ n ih =>
    have hclear : Live { c with current := c.current.clearLowest } := by
      intro i hi
      rw [SlotSet.toList_clearLowest] at hi
      exact hlive i (List.mem_of_mem_tail hi)
    exact ih hclear

/-- Steps of two cursors that give the same and leave cursors that agree. -/
def StepsAgree (step step' : Option Entry × Cursor) : Prop :=
  step'.1 = step.1 ∧ step.2.Agree step'.2

namespace Agree

theorem next (h : c.Agree d) : StepsAgree c.next d.next := by
  obtain @⟨groups, h, hlive⟩ := h
  rw [Cursor.next, Cursor.next]
  dsimp only
  split_ifs with h0
  · exact ⟨rfl, .intro h hlive⟩
  · rcases step?_agree h (hlive h0) with ⟨hstep, hstep'⟩ | ⟨e, c', d', hstep, hstep', hagree⟩
    · obtain ⟨henter, hgroups, hentered⟩ := enterNext_agree h
      rw [hstep, hstep', henter]
      dsimp only
      generalize c.enterNext = entered at hgroups hentered ⊢
      obtain ⟨found, c'⟩ := entered
      dsimp only at hgroups hentered ⊢
      have hend : StepsAgree (none, { c' with remaining := 0 })
          (none, { c' with groups := groups, remaining := 0 }) :=
        ⟨rfl, .intro (c := { c' with remaining := 0 }) (hgroups.symm ▸ h) fun h0 => absurd rfl h0⟩
      cases found with
      | false => exact hend
      | true =>
        rcases step?_agree (hgroups.symm ▸ h) (hentered rfl) with
          ⟨hstep, hstep'⟩ | ⟨e, c'', d'', hstep, hstep', hagree⟩
        · rw [hstep, hstep']
          exact hend
        · rw [hstep, hstep']
          exact ⟨rfl, hagree⟩
    · rw [hstep, hstep']
      exact ⟨rfl, hagree⟩

theorem next_dropCurrent (h : RowsAgree c.groups groups) (hlive : c.Live) (n : Nat) :
    StepsAgree
      (Cursor.next { c.dropCurrent n with remaining := (c.dropCurrent n).remaining - n })
      (Cursor.next { dropCurrent n { c with groups := groups } with
        remaining := (dropCurrent n { c with groups := groups }).remaining - n }) := by
  obtain ⟨hlive', hgroups⟩ := hlive.dropCurrent n
  rw [dropCurrent_agree n c groups]
  exact next (.intro (c := { c.dropCurrent n with remaining := (c.dropCurrent n).remaining - n })
    (hgroups.symm ▸ h) fun _ => hlive')

theorem skip (h : RowsAgree c.groups groups) (hlive : c.Live) (visits n : Nat) :
    StepsAgree (c.skip visits n) (Cursor.skip visits n { c with groups := groups }) := by
  induction visits generalizing c n with
  | zero =>
    rw [Cursor.skip, Cursor.skip]
    dsimp only
    by_cases hn : n < c.current.count
    · rw [if_pos hn, if_pos hn]
      exact next_dropCurrent h hlive n
    · rw [if_neg hn, if_neg hn]
      exact ⟨rfl, .intro (c := { c with remaining := 0 }) h fun h0 => absurd rfl h0⟩
  | succ visits ih =>
    rw [Cursor.skip, Cursor.skip]
    dsimp only
    by_cases hn : n < c.current.count
    · rw [if_pos hn, if_pos hn]
      exact next_dropCurrent h hlive n
    · obtain ⟨henter, hgroups, hentered⟩ :=
        enterNext_agree (c := { c with remaining := c.remaining - c.current.count }) h
      rw [if_neg hn, if_neg hn, henter]
      generalize enterNext { c with remaining := c.remaining - c.current.count } = entered
        at hgroups hentered ⊢
      obtain ⟨found, c'⟩ := entered
      dsimp only at hgroups hentered ⊢
      cases found with
      | true => exact ih (hgroups.symm ▸ h) (hentered rfl) _
      | false =>
        exact ⟨rfl, .intro (c := { c' with remaining := 0 }) (hgroups.symm ▸ h) fun h0 =>
          absurd rfl h0⟩

theorem nth (h : c.Agree d) (n : Nat) : StepsAgree (c.nth n) (d.nth n) := by
  obtain ⟨h, hlive⟩ := h
  rw [Cursor.nth, Cursor.nth]
  dsimp only
  rw [h.size_eq]
  split_ifs with hle
  · exact ⟨rfl, .intro (c := { c with
      remaining := 0, current := SlotSet.none, upcoming := c.groups.size }) h
      fun h0 => absurd rfl h0⟩
  · exact skip h (hlive (by omega)) _ n

theorem remaining_eq (h : c.Agree d) : d.remaining = c.remaining := by
  obtain ⟨h⟩ := h
  rfl

theorem debugText_eq (h : c.Agree d) :
    (fun style => d.debugText style) = fun style => c.debugText style := by
  obtain ⟨h⟩ := h
  rfl

theorem move (h : c.Agree d) (m : Move) :
    (d.move m).1 = (c.move m).1 ∧ (c.move m).2.Agree (d.move m).2 := by
  cases m with
  | next => exact ⟨congrArg Find.entry h.next.1, h.next.2⟩
  | nth n => exact ⟨congrArg Find.entry (h.nth n).1, (h.nth n).2⟩
  | readValue buffer skip =>
    obtain ⟨hentry, hagree⟩ := h.nth skip
    have hsize : d.valueSize = c.valueSize := by
      obtain ⟨h⟩ := h
      rfl
    rw [Cursor.move, Cursor.move, readValue, readValue, hsize]
    split_ifs
    · generalize c.nth skip = step, d.nth skip = step' at hentry hagree ⊢
      obtain ⟨entry, c'⟩ := step
      obtain ⟨entry', d'⟩ := step'
      obtain rfl : entry' = entry := hentry
      cases entry' <;> exact ⟨rfl, hagree⟩
    · exact ⟨rfl, h⟩

/-- **All uses of the cursors show the same.** -/
theorem watch_eq (h : c.Agree d) (ms : List Move) : d.watch ms = c.watch ms := by
  induction ms generalizing c d with
  | nil => rfl
  | cons m ms ih =>
    obtain ⟨hfind, hagree⟩ := h.move m
    rw [watch, watch, hfind, ih hagree, hagree.remaining_eq, hagree.debugText_eq]

end Agree

end Cursor

end TagTable
