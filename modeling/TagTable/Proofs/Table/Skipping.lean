import TagTable.Proofs.Table.Cursor
import TagTable.Proofs.Table.Invariant
import TagTable.Proofs.Table.Iteration

/-!
# Skips of a cursor

A skip goes past entries of the present group slot by slot, and past a whole group by the number of its
slots that are left. Either way it is a step in the list of entries.

* `Cursor.next_source`, `Cursor.nth_source`: steps and skips keep what the cursor reads;
* `Cursor.enterNext_of_later_ne_nil`, `Cursor.dropCurrent_eq`: the way to the next group, and in a group;
* `Cursor.Before`: a cursor before the entries of a list; `Table.Invariant.before_cursor`;
* `Cursor.Before.next`, `Cursor.Before.enter`, `Cursor.Before.skip`, **`Cursor.Before.nth`**: steps and
  skips pass over entries of the list; `Cursor.Before.iterates`.
-/

namespace TagTable

namespace Cursor

/-- A cursor that has the entries of a list yet to pass, and counts them. -/
structure Before (size : Nat) (c : Cursor) (l : List Entry) : Prop where
  entries : c.pending = l
  counted : c.remaining = l.length
  sized : c.valueSize = size
  sizes : ∀ e ∈ l, e.value.length = size

variable {c : Cursor} {size n : Nat} {l : List Entry}

/-! ## Groups -/

theorem next_source (c : Cursor) : c.next.2.source = c.source := by
  rw [next]
  split_ifs
  · rfl
  · cases hstep : c.step? with
    | some step => exact step?_source hstep
    | none =>
      have hadvance := c.enterNext_source
      generalize c.enterNext = entered at hadvance ⊢
      obtain ⟨found, c'⟩ := entered
      cases found with
      | false => exact hadvance
      | true =>
        cases hstep' : c'.step? with
        | some step => simpa [hstep'] using (step?_source hstep').trans hadvance
        | none =>
          simp only [hstep']
          exact hadvance

theorem upcoming_lt_advance (visits : Nat) (c : Cursor) (h : (c.advance visits).1 = true) :
    c.upcoming < (c.advance visits).2.upcoming := by
  induction visits generalizing c with
  | zero => exact absurd h Bool.false_ne_true
  | succ visits ih =>
    rw [advance] at h ⊢
    dsimp only at h ⊢
    split_ifs at h ⊢
    · exact Nat.lt_succ_self _
    · exact (Nat.lt_succ_self _).trans (ih _ h)

theorem enterNext_of_later_ne_nil (h : c.later ≠ []) :
    ∃ d, c.enterNext = (true, d) ∧ d.pending = c.later ∧ d.groups = c.groups ∧
      d.remaining = c.remaining ∧ d.valueSize = c.valueSize ∧ c.upcoming < d.upcoming := by
  obtain ⟨hgroups, hsize⟩ := Prod.mk.inj c.enterNext_source
  rcases advance_spec (c.groups.size - c.upcoming) c le_rfl with ⟨hnil, -⟩ | ⟨hfound, -, hpending⟩
  · exact absurd hnil h
  · exact ⟨_, Prod.ext hfound rfl, hpending, hgroups, c.enterNext_remaining, hsize,
      upcoming_lt_advance _ c hfound⟩

theorem dropCurrent_eq (n : Nat) (c : Cursor) :
    ∃ s : SlotSet, c.dropCurrent n = { c with current := s } ∧
      s.toList = c.current.toList.drop n := by
  induction n generalizing c with
  | zero => exact ⟨c.current, rfl, rfl⟩
  | succ n ih =>
    obtain ⟨s, hdrop, hs⟩ := ih { c with current := c.current.clearLowest }
    refine ⟨s, hdrop, hs.trans ?_⟩
    rw [SlotSet.toList_clearLowest, List.drop_tail]

theorem dropCurrent_source (n : Nat) (c : Cursor) : (c.dropCurrent n).source = c.source := by
  obtain ⟨s, hdrop, -⟩ := c.dropCurrent_eq n
  rw [hdrop]
  rfl

theorem skip_source (visits n : Nat) (c : Cursor) : (c.skip visits n).2.source = c.source := by
  induction visits generalizing c n with
  | zero =>
    rw [Cursor.skip]
    split_ifs
    · exact (next_source _).trans (c.dropCurrent_source n)
    · rfl
  | succ visits ih =>
    rw [Cursor.skip]
    split_ifs
    · exact (next_source _).trans (c.dropCurrent_source n)
    · have hadvance := enterNext_source { c with remaining := c.remaining - c.current.count }
      dsimp only
      generalize enterNext { c with remaining := c.remaining - c.current.count } = entered
        at hadvance ⊢
      obtain ⟨found, d⟩ := entered
      cases found with
      | true => exact (ih (n - c.current.count) d).trans hadvance
      | false => exact hadvance

theorem nth_source (n : Nat) (c : Cursor) : (c.nth n).2.source = c.source := by
  rw [Cursor.nth]
  split_ifs
  · rfl
  · exact c.skip_source _ n

/-! ## Steps in the list of entries -/

theorem length_here (c : Cursor) : c.here.length = c.current.count := by
  rw [here, List.length_map, SlotSet.count_eq_length]

namespace Before

theorem of_drop {d : Cursor} (h : c.Before size l) (hpending : d.pending = l.drop n)
    (hcounted : d.remaining = l.length - n) (hsize : d.valueSize = c.valueSize) :
    d.Before size (l.drop n) :=
  ⟨hpending, hcounted.trans List.length_drop.symm, hsize.trans h.sized,
    fun e he => h.sizes e (List.mem_of_mem_drop he)⟩

/-- **The next entry is the first of the list.** -/
theorem next (h : c.Before size l) : Passes (Before size) l 0 c.next := by
  have hr : c.remaining = c.pending.length := h.counted.trans (congrArg _ h.entries.symm)
  cases l with
  | nil =>
    rw [next_of_pending_eq_nil hr h.entries]
    exact ⟨rfl, h⟩
  | cons e rest =>
    obtain ⟨c', hnext, hpending, hrem⟩ := next_spec hr h.entries
    have hsource := c.next_source
    rw [hnext] at hsource ⊢
    exact ⟨rfl, h.of_drop hpending hrem (Prod.mk.inj hsource).2⟩

theorem next_dropCurrent (h : c.Before size l) (hn : n < c.current.count) :
    Passes (Before size) l n
      (Cursor.next { c.dropCurrent n with remaining := (c.dropCurrent n).remaining - n }) := by
  obtain ⟨s, hdrop, hs⟩ := c.dropCurrent_eq n
  rw [hdrop]
  dsimp only
  have hhere : here { c with current := s, remaining := c.remaining - n } = c.here.drop n := by
    rw [here, here, hs, List.map_drop]
  have hpending : pending { c with current := s, remaining := c.remaining - n } = l.drop n := by
    rw [← h.entries, pending, pending, hhere,
      List.drop_append_of_le_length (by rw [length_here]; omega)]
    rfl
  have hbefore := h.of_drop (d := { c with current := s, remaining := c.remaining - n }) hpending
    (congrArg (· - n) h.counted) rfl
  exact hbefore.next.of_drop

theorem enter (h : c.Before size l) (hlt : c.current.count < l.length) :
    ∃ d, enterNext { c with remaining := c.remaining - c.current.count } = (true, d) ∧
      d.Before size (l.drop c.current.count) ∧ d.groups = c.groups ∧ c.upcoming < d.upcoming := by
  have hlater : later { c with remaining := c.remaining - c.current.count } =
      l.drop c.current.count := by
    rw [← h.entries, pending, ← length_here, List.drop_left]
    rfl
  obtain ⟨d, henter, hpending, hgroups, hrem, hsize, hupcoming⟩ :=
    enterNext_of_later_ne_nil (c := { c with remaining := c.remaining - c.current.count })
      (by rwa [hlater, Ne, List.drop_eq_nil_iff, not_le])
  have hcounted : d.remaining = l.length - c.current.count :=
    hrem.trans (congrArg (· - c.current.count) h.counted)
  exact ⟨d, henter, h.of_drop (hpending.trans hlater) hcounted hsize, hgroups, hupcoming⟩

theorem skip (visits : Nat) (h : c.Before size l) (hn : n < l.length)
    (hv : c.groups.size - c.upcoming ≤ visits) : Passes (Before size) l n (c.skip visits n) := by
  -- A group that is entered is one upcoming group less, so the visits do not run out.
  induction visits generalizing c l n with
  | zero =>
    have hhere : c.current.count = l.length := by
      rw [← h.entries, pending, later_eq_nil (by omega), List.append_nil, length_here]
    rw [Cursor.skip, if_pos (by omega)]
    exact h.next_dropCurrent (by omega)
  | succ visits ih =>
    rw [Cursor.skip]
    by_cases hlt : n < c.current.count
    · rw [if_pos hlt]
      exact h.next_dropCurrent hlt
    · obtain ⟨d, henter, hbefore, hgroups, hupcoming⟩ := h.enter (by omega)
      rw [if_neg hlt]
      dsimp only
      rw [henter]
      have hlength : n - c.current.count < (l.drop c.current.count).length := by
        rw [List.length_drop]
        omega
      have hpasses := (ih hbefore hlength (by rw [hgroups]; omega)).of_drop
      rwa [Nat.add_sub_cancel' (Nat.le_of_not_lt hlt)] at hpasses

/-- **The entry after `n` others is at place `n` of the list.** -/
theorem nth (h : c.Before size l) (n : Nat) : Passes (Before size) l n (c.nth n) := by
  have hcounted := h.counted
  rw [Cursor.nth]
  split_ifs with hle
  · have hnil : l.drop (n + 1) = [] := List.drop_of_length_le (by omega)
    refine ⟨(List.getElem?_eq_none (by omega)).symm, h.of_drop ?_ (by dsimp only; omega) rfl⟩
    rw [hnil, pending, later_eq_nil le_rfl, List.append_nil, here,
      SlotSet.any_eq_false.1 rfl, List.map_nil]
  · exact h.skip _ (by omega) le_rfl

theorem iterates : Iterates Cursor.next Cursor.nth Cursor.remaining (Before size) :=
  ⟨fun h => h.next, fun h n => h.nth n, fun h => h.counted⟩

end Before

end Cursor

theorem Table.Invariant.before_cursor {t : Table} (hi : t.Invariant) :
    t.cursor.Before t.geometry.valueSize t.entries :=
  ⟨t.pending_cursor, hi.count_eq_length, rfl, fun _ he => (hi.entry_sizes he).2⟩

end TagTable
