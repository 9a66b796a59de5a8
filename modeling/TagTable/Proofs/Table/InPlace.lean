import TagTable.Proofs.Table.Invariant

/-!
# Entries that stay in their slots

* `Table.InPlace`: all entries of a table are in the same slots of another;
* `Table.inPlace_occupy`, `inPlace_overwrite`: a new entry and a new value leave all entries where they
  are;
* `Table.inPlace_bury`, `inPlace_each`, `inPlace_filter`, `inPlace_clear`: what is left of a table is
  where it was.
-/

namespace TagTable

namespace Table

/-- Every entry of the first table is in the same slot of the second; its value may have changed. -/
def InPlace (t u : Table) : Prop :=
  ∀ p, 2 ≤ t.tagAt p → u.tagAt p = t.tagAt p ∧ (u.entryAt p).key = (t.entryAt p).key

variable {t : Table}

theorem InPlace.refl (t : Table) : t.InPlace t := fun _ _ => ⟨rfl, rfl⟩

theorem inPlace_occupy {home : Nat} {p : Position} (hv : FirstVacancy t.groups home p) (tag : UInt8)
    (e : Entry) : t.InPlace (t.occupy p tag e) := by
  intro q hq
  have hqp : q ≠ p := by
    rintro rfl
    exact TagRow.not_two_le_empty (hv.tag_eq ▸ hq)
  refine ⟨(tagIn_occupy hv.group_lt tag e q).trans (if_neg hqp), congrArg Entry.key ?_⟩
  exact (cellIn_occupy hv.group_lt tag e q).trans (if_neg hqp)

theorem inPlace_overwrite {p : Position} (hp : p.group < t.groups.size) (value : Bytes) :
    t.InPlace (t.overwrite p value) ∧ (t.overwrite p value).InPlace t := by
  have htag : ∀ q, (t.overwrite p value).tagAt q = t.tagAt q := tagIn_overwrite hp value
  have hkey : ∀ q, ((t.overwrite p value).entryAt q).key = (t.entryAt q).key := by
    intro q
    have hcell := congrArg Entry.key (cellIn_overwrite hp value q)
    split_ifs at hcell with hqp
    · rw [hqp] at hcell ⊢
      exact hcell
    · exact hcell
  exact ⟨fun q _ => ⟨htag q, hkey q⟩, fun q _ => ⟨(htag q).symm, (hkey q).symm⟩⟩

theorem inPlace_bury {p : Position} (hp : p.group < t.groups.size) : (t.bury p).InPlace t := by
  intro q hq
  have htag : (t.bury p).tagAt q = if q = p then Tag.tombstone else t.tagAt q := tagIn_bury hp q
  rw [htag] at hq ⊢
  split_ifs at hq ⊢
  · exact absurd hq TagRow.not_two_le_tombstone
  · exact ⟨rfl, congrArg Entry.key (cellIn_bury hp q).symm⟩

section

variable {τ : Type}

theorem inPlace_each (t : Table) (visitor : τ → Bytes → Bytes → Visit τ) (state : τ) :
    (t.each visitor state).after.InPlace t := by
  obtain ⟨hrew, -⟩ := eachGroup_spec visitor t.groups.toList state
  intro q _
  have hgroup : Group.Rewritten (t.groupAt q.group) ((t.each visitor state).after.groupAt q.group) :=
    getD_of_forall₂ (Group.Rewritten.refl _) hrew q.group
  exact ⟨by rw [tagAt, tagAt, hgroup.tags], (hgroup.key q.slot).symm⟩

theorem inPlace_filter (t : Table) (keep : τ → Bytes → Bytes → Bool × τ) (state : τ) :
    (t.filter keep state).after.InPlace t := by
  obtain ⟨htrim, -⟩ := filterGroups_spec keep t.groups.toList state
  intro q hq
  have hgroup : Group.Trimmed (t.groupAt q.group) ((t.filter keep state).after.groupAt q.group) :=
    getD_of_forall₂ (Group.Trimmed.refl _) htrim q.group
  rcases hgroup.tags q.slot with h | ⟨-, h⟩
  · exact ⟨h.symm, by rw [entryAt, entryAt, hgroup.cells]⟩
  · rw [tagAt, h] at hq
    exact absurd hq TagRow.not_two_le_tombstone

end

theorem inPlace_clear (t : Table) : t.clear.InPlace t := by
  intro q hq
  have hempty : t.clear.tagAt q = Tag.empty := by
    rw [tagAt, groupAt, Array.getD_eq_getD_getElem?, clear, Array.getElem?_map]
    cases t.groups[q.group]? <;> simp [Group.wipe, Group.empty, TagRow.empty]
  rw [hempty] at hq
  exact absurd hq TagRow.not_two_le_empty

end Table

end TagTable
