import TagTable.Proofs.Table.Update

/-!
# Burials

Entries are removed one after the other, and each removal finds an entry in its slot.

* `Table.Buried`: a number of removals, each of a live slot while the counter is not zero;
* `Table.Buried.eq`, `Table.Buried.invariant`, `Table.Buried.trans`: what they leave;
* **`Table.buried_filter`**, **`Table.buried_take`**: a selection and a removal are such.
-/

namespace TagTable

namespace Table

/-- A number of removals one after the other, each from a slot that holds an entry and with at least
one entry counted. -/
inductive Buried : Nat → Table → Table → Prop
  | done (t : Table) : Buried 0 t t
  | bury {n : Nat} {t u : Table} {p : Position} (hlive : 2 ≤ t.tagAt p) (hcount : 0 < t.count)
    (hrest : Buried n (t.bury p) u) : Buried (n + 1) t u

variable {m n : Nat} {t u v : Table} {p : Position}

theorem Invariant.count_pos (hi : t.Invariant) (hp : 2 ≤ tagIn t.groups p) : 0 < t.count := by
  rw [hi.count_eq_length]
  exact List.length_pos_of_mem (mem_entriesIn.2 ⟨p, stored_eq_some.2 ⟨hp, rfl⟩⟩)

namespace Buried

theorem trans (h : Buried m t u) (h' : Buried n u v) : Buried (m + n) t v := by
  induction h with
  | done => rwa [Nat.zero_add]
  | bury hlive hcount _ ih =>
    rw [Nat.succ_add]
    exact .bury hlive hcount (ih h')

theorem invariant (h : Buried n t u) (hi : t.Invariant) : u.Invariant := by
  induction h with
  | done => exact hi
  | bury hlive _ _ ih => exact ih (hi.bury hlive)

theorem eq (h : Buried n t u) :
    u = { t with groups := u.groups, count := t.count - n, tombstones := t.tombstones + n } := by
  induction h with
  | done => rfl
  | @bury n t u p _ _ _ ih =>
    have hcount : t.count - (n + 1) = (t.bury p).count - n := by
      rw [Nat.add_comm, Nat.sub_add_eq]
      rfl
    have htombstones : t.tombstones + (n + 1) = (t.bury p).tombstones + n := by
      rw [Nat.add_comm n, ← Nat.add_assoc]
      rfl
    rw [hcount, htombstones]
    exact ih

theorem count_add (h : Buried n t u) : u.count + n = t.count := by
  induction h with
  | done => rfl
  | @bury n t u p _ hcount _ ih =>
    have hless : (t.bury p).count = t.count - 1 := rfl
    omega

end Buried

/-! ## Selections -/

section

variable {τ : Type} (keep : τ → Bytes → Bytes → Bool × τ) {before after : List Group} {g : Group}

theorem toList_bury (h : t.groups.toList = before ++ g :: after) (i : SlotIndex) :
    (t.bury ⟨before.length, i⟩).groups.toList = before ++ g.bury i :: after := by
  rw [Table.bury, modifyGroup]
  simp [h, List.modify_eq_take_drop]

theorem buried_group (hi : t.Invariant) {slots : List SlotIndex} (hnodup : slots.Nodup)
    (hlive : ∀ i ∈ slots, 2 ≤ g.tags.bytes[i]) (hgroups : t.groups.toList = before ++ g :: after)
    (state : τ) : ∃ u, Buried (g.filter keep slots state).removed t u ∧
      u.groups.toList = before ++ (g.filter keep slots state).after :: after := by
  induction slots generalizing t g state with
  | nil => exact ⟨t, .done t, hgroups⟩
  | cons i slots ih =>
    obtain ⟨hnotin, hnodup⟩ := List.nodup_cons.1 hnodup
    have hothers : ∀ j ∈ slots, 2 ≤ g.tags.bytes[j] := fun j hj =>
      hlive j (List.mem_cons_of_mem i hj)
    rw [Group.filter]
    split
    · exact ih hi hnodup hothers hgroups _
    · have hhere : t.groups.getD before.length Group.empty = g := by
        rw [Array.getD_eq_getD_getElem?, ← Array.getElem?_toList, hgroups]
        simp
      have hp : 2 ≤ tagIn t.groups ⟨before.length, i⟩ := by
        rw [tagIn, hhere]
        exact hlive i (List.mem_cons_self ..)
      have hothers' : ∀ j ∈ slots, 2 ≤ (g.bury i).tags.bytes[j] := fun j hj => by
        have hne : j ≠ i := fun e => hnotin (e ▸ hj)
        rw [Group.bury, TagRow.set, getElem_putSlot, if_neg hne]
        exact hothers j hj
      obtain ⟨u, hburied, hu⟩ := ih (hi.bury hp) hnodup hothers' (toList_bury hgroups i) _
      exact ⟨u, .bury hp (hi.count_pos hp) hburied, hu⟩

theorem buried_groups (hi : t.Invariant) (hgroups : t.groups.toList = before ++ after) (state : τ) :
    ∃ u, Buried (filterGroups keep after state).removed t u ∧
      u.groups.toList = before ++ (filterGroups keep after state).after := by
  induction after generalizing t before state with
  | nil => exact ⟨t, .done t, hgroups⟩
  | cons g after ih =>
    obtain ⟨u, hfirst, hu⟩ := buried_group keep hi g.nodup_live (fun i => Group.mem_live.1) hgroups
      state
    have hsplit : u.groups.toList = (before ++ [(g.filter keep g.live state).after]) ++ after := by
      rw [hu, List.append_assoc]
      rfl
    obtain ⟨v, hrest, hv⟩ := ih (hfirst.invariant hi) hsplit (g.filter keep g.live state).state
    exact ⟨v, hfirst.trans hrest, by rw [hv, List.append_assoc]; rfl⟩

/-- **A selection removes its rejected entries one after the other, each from its slot.** -/
theorem buried_filter (hi : t.Invariant) (state : τ) :
    Buried (t.filter keep state).removed t (t.filter keep state).after := by
  obtain ⟨u, hburied, hu⟩ := buried_groups keep hi (List.nil_append _).symm state
  have hgroups : u.groups = (filterGroups keep t.groups.toList state).after.toArray :=
    Array.ext' hu
  have heq : u = (t.filter keep state).after := by
    rw [hburied.eq, hgroups]
    rfl
  exact heq ▸ hburied

end

/-- **A removal takes one entry out of its slot, or it fails.** -/
theorem buried_take (hi : t.Invariant) (key : Bytes) :
    Buried (t.take key).answer.1.isOk.toNat t (t.take key).answer.2 := by
  rw [take]
  by_cases hsize : key.length = t.geometry.keySize
  · rw [if_pos hsize]
    dsimp only
    cases hfound : (t.probe key).found with
    | none => exact .done t
    | some p =>
      have hlive := (found_eq_some hi hfound).1
      exact .bury hlive (hi.count_pos hlive) (.done _)
  · rw [if_neg hsize]
    exact .done t

end Table

end TagTable
