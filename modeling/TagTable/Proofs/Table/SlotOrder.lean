import TagTable.Proofs.Table.Row

/-!
# Live slots in order

* `Position.Precedes`: slot order, by group and then by slot; `positions_precede`;
* `Table.slots`: the live slots of a table; `Table.mem_slots`, `Table.slots_precede`;
* **`Table.entries_eq_map_slots`**: the entries of a table are those of its live slots.
-/

namespace TagTable

/-- Slot order: an earlier group, or an earlier slot of the same group. -/
def Position.Precedes (p q : Position) : Prop :=
  p.group < q.group ∨ p.group = q.group ∧ p.slot < q.slot

theorem positions_precede (n : Nat) : (positions n).Pairwise Position.Precedes := by
  rw [positions, List.pairwise_flatMap]
  refine ⟨fun g _ => List.pairwise_map.2 ?_, List.pairwise_lt_range.imp fun {a b} hab p hp q hq => ?_⟩
  · exact (List.pairwise_lt_finRange 16).imp fun hij => .inr ⟨rfl, hij⟩
  · obtain ⟨_, -, rfl⟩ := List.mem_map.1 hp
    obtain ⟨_, -, rfl⟩ := List.mem_map.1 hq
    exact .inl hab

namespace Table

variable (t : Table)

/-- The live slots, in slot order. -/
def slots : List Position := (positions t.groups.size).filter fun p => decide (2 ≤ t.tagAt p)

theorem slots_precede : t.slots.Pairwise Position.Precedes := (positions_precede _).filter _

theorem mem_slots (p : Position) : p ∈ t.slots ↔ 2 ≤ t.tagAt p := by
  rw [slots, List.mem_filter, mem_positions, decide_eq_true_iff]
  exact ⟨And.right, fun h => ⟨group_lt_of_two_le h, h⟩⟩

/-- **The entries of a table are those of its live slots, in slot order.** -/
theorem entries_eq_map_slots : t.entries = t.slots.map t.entryAt := by
  rw [entries_eq, entriesIn_eq_filterMap, slots, ← List.filterMap_eq_map, List.filterMap_filter]
  refine List.filterMap_congr fun p _ => ?_
  change (if 2 ≤ t.tagAt p then some (t.entryAt p) else none) = _
  by_cases h : 2 ≤ t.tagAt p
  · rw [if_pos h, if_pos (decide_eq_true h)]
    rfl
  · rw [if_neg h, if_neg (by simpa using h)]

end Table

end TagTable
