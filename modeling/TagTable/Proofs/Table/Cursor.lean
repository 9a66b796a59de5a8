import TagTable.Proofs.Table.Row
import TagTable.Table.Cursor

/-!
# Cursors against lists of entries

* `Cursor.pending`: the entries that a cursor has yet to pass;
* `Cursor.source`, `Cursor.advance_keeps`: what a cursor reads, which no step changes;
* `Cursor.step?_eq_some`, `Cursor.advance_spec`: a step inside a group, and the way to the next;
* **`Cursor.next_spec`**: the next entry is the first pending one; **`Table.drain_cursor`**.
-/

namespace TagTable

namespace Cursor

/-- The entries of the groups from an index on. -/
def later (c : Cursor) : List Entry := (c.groups.toList.drop c.upcoming).flatMap Group.entries

/-- The entries of the present group that are left. -/
def here (c : Cursor) : List Entry :=
  c.current.toList.map fun i => (c.groups.getD c.group Group.empty).cells[i]

/-- The entries that are left. -/
def pending (c : Cursor) : List Entry := c.here ++ c.later

variable {c : Cursor}

/-! ## What a step keeps -/

/-- What a cursor reads: the groups of a table, and the size of its values. -/
def source (c : Cursor) : Array Group × Nat := (c.groups, c.valueSize)

theorem step?_source {e : Entry} {c' : Cursor} (h : c.step? = some (e, c')) :
    c'.source = c.source := by
  rw [step?, Option.map_eq_some_iff] at h
  obtain ⟨_, -, he⟩ := h
  rw [← (Prod.mk.inj he).2]
  rfl

/-- The way to the next group takes no entry. -/
theorem advance_keeps (visits : Nat) (c : Cursor) :
    (c.advance visits).2.source = c.source ∧ (c.advance visits).2.remaining = c.remaining := by
  induction visits generalizing c with
  | zero => exact ⟨rfl, rfl⟩
  | succ visits ih =>
    rw [advance]
    dsimp only
    split_ifs
    · exact ⟨rfl, rfl⟩
    · exact ih _
    · exact ⟨rfl, rfl⟩

theorem enterNext_source (c : Cursor) : c.enterNext.2.source = c.source := (advance_keeps _ c).1

theorem enterNext_remaining (c : Cursor) : c.enterNext.2.remaining = c.remaining :=
  (advance_keeps _ c).2

/-! ## Steps in the list of entries -/

theorem step?_eq_none (h : c.here = []) : c.step? = none := by
  rw [step?, SlotSet.next_eq_none.2 (List.map_eq_nil_iff.1 h)]
  rfl

theorem step?_eq_some {e : Entry} {rest : List Entry} (h : c.here = e :: rest) :
    ∃ c', c.step? = some (e, c') ∧ c'.here = rest ∧ c'.later = c.later ∧
      c'.remaining = c.remaining - 1 := by
  cases hnext : c.current.next with
  | none => simp [here, SlotSet.next_eq_none.1 hnext] at h
  | some step =>
    obtain ⟨i, current⟩ := step
    rw [here, SlotSet.toList_of_next hnext, List.map_cons] at h
    obtain ⟨rfl, rfl⟩ := List.cons.inj h
    rw [step?, hnext]
    exact ⟨_, rfl, rfl, rfl, rfl⟩

theorem later_eq_nil (h : c.groups.size ≤ c.upcoming) : c.later = [] := by
  rw [later, List.drop_of_length_le (by rwa [Array.length_toList]), List.flatMap_nil]

theorem advance_spec (visits : Nat) (c : Cursor) (hv : c.groups.size - c.upcoming ≤ visits) :
    (c.later = [] ∧ (c.advance visits).1 = false) ∨
      ((c.advance visits).1 = true ∧ (c.advance visits).2.here ≠ [] ∧
        (c.advance visits).2.pending = c.later) := by
  induction visits generalizing c with
  | zero => exact .inl ⟨later_eq_nil (by omega), rfl⟩
  | succ visits ih =>
    rw [advance]
    by_cases hlt : c.upcoming < c.groups.size
    · have hlater : c.later = (c.groups.getD c.upcoming Group.empty).entries ++
          (c.groups.toList.drop (c.upcoming + 1)).flatMap Group.entries := by
        rw [later, List.drop_eq_getElem_cons (by rwa [Array.length_toList]), List.flatMap_cons]
        simp [Array.getElem?_eq_getElem hlt]
      rw [if_pos hlt]
      by_cases hany : (c.groups.getD c.upcoming Group.empty).tags.live.any = true
      · dsimp only
        rw [if_pos hany]
        refine .inr ⟨rfl, fun hnil => ?_, hlater.symm⟩
        rw [SlotSet.any_eq_false.2 (List.map_eq_nil_iff.1 hnil)] at hany
        exact absurd hany Bool.false_ne_true
      · have hnil : (c.groups.getD c.upcoming Group.empty).entries = [] := by
          rw [Group.entries, Group.live, SlotSet.any_eq_false.1 (Bool.eq_false_iff.2 hany),
            List.map_nil]
        dsimp only
        rw [if_neg hany, hlater, hnil, List.nil_append]
        exact ih { c with group := c.upcoming, upcoming := c.upcoming + 1 } (by dsimp only; omega)
    · rw [if_neg hlt]
      exact .inl ⟨later_eq_nil (by omega), rfl⟩

theorem next_of_pending_eq_nil (hr : c.remaining = c.pending.length) (h : c.pending = []) :
    c.next = (none, c) := by
  rw [next, if_pos (by rw [hr, h, List.length_nil])]

/-- **The next entry is the first one that is left.** -/
theorem next_spec {e : Entry} {rest : List Entry} (hr : c.remaining = c.pending.length)
    (h : c.pending = e :: rest) :
    ∃ c', c.next = (some e, c') ∧ c'.pending = rest ∧ c'.remaining = rest.length := by
  rw [h, List.length_cons] at hr
  rw [next, if_neg (by omega)]
  cases hhere : c.here with
  | cons e' rest' =>
    obtain ⟨c', hstep, hhere', hlater, hrem⟩ := step?_eq_some hhere
    rw [pending, hhere, List.cons_append] at h
    obtain ⟨rfl, rfl⟩ := List.cons.inj h
    exact ⟨c', by rw [hstep], by rw [pending, hhere', hlater], by omega⟩
  | nil =>
    rw [pending, hhere, List.nil_append] at h
    have hrem := c.enterNext_remaining
    rw [step?_eq_none hhere]
    rcases advance_spec (c.groups.size - c.upcoming) c le_rfl with ⟨hnil, -⟩ | ⟨hfound, hne, hpending⟩
    · simp [hnil] at h
    · rw [enterNext] at hrem ⊢
      generalize c.advance (c.groups.size - c.upcoming) = found at *
      obtain ⟨found, c'⟩ := found
      dsimp only at *
      obtain ⟨e', rest', hhere'⟩ := List.exists_cons_of_ne_nil hne
      obtain ⟨c'', hstep, hhere'', hlater, hrem'⟩ := step?_eq_some hhere'
      rw [pending, hhere', h, List.cons_append] at hpending
      obtain ⟨rfl, rfl⟩ := List.cons.inj hpending
      simp only [hfound, hstep]
      exact ⟨c'', rfl, by rw [pending, hhere'', hlater], by omega⟩

theorem takeNext_eq_pending (steps : Nat) (c : Cursor) (hr : c.remaining = c.pending.length)
    (hs : c.pending.length = steps) : c.takeNext steps = c.pending := by
  induction steps generalizing c with
  | zero => rw [List.length_eq_zero_iff.1 hs, takeNext]
  | succ steps ih =>
    obtain ⟨e, rest, h⟩ := List.exists_cons_of_length_eq_add_one hs
    obtain ⟨c', hnext, hpending, hrem⟩ := next_spec hr h
    rw [h, List.length_cons] at hs
    have hrest := ih c' (by rw [hrem, hpending]) (by rw [hpending]; omega)
    rw [takeNext, hnext, h, ← hpending, ← hrest]

end Cursor

theorem Table.pending_cursor (t : Table) : t.cursor.pending = t.entries := by
  have hhere : t.cursor.here = [] := by
    have hnil : SlotSet.none.toList = [] := SlotSet.any_eq_false.1 rfl
    rw [Cursor.here, cursor, hnil, List.map_nil]
  rw [Cursor.pending, hhere, List.nil_append]
  rfl

/-- **A cursor yields all entries in slot order when the counter is right.** -/
theorem Table.drain_cursor (t : Table) (h : t.count = t.entries.length) :
    t.cursor.drain = t.entries := by
  have hp := t.pending_cursor
  rw [Cursor.drain, Cursor.takeNext_eq_pending _ _ (hp ▸ h) (hp ▸ h.symm), hp]

end TagTable
