import TagTable.Proofs.Table.Invariant
import TagTable.Table.Lookup

/-!
# Searches

* `Table.probe_means`: what the ending of a search tells, for every strategy;
* `Table.found_eq_some`, `Table.probe_cases`: a search in a table with room ends at the key or at
  the first empty slot;
* **`Table.not_equal_of_found_eq_none`**: under a lawful strategy a key that is not found is absent.
-/

namespace TagTable

namespace Table

variable {t : Table} {key : Bytes} {p : Position}

theorem walk_of_size_eq_zero (h0 : t.groups.size = 0) (key : Bytes) :
    (t.probe key).walk = ⟨.exhausted, [], []⟩ := by
  rw [probe]
  dsimp only
  rw [h0, walkFrom]

theorem probe_means (hi : t.Invariant) (key : Bytes) :
    (t.probe key).walk.ending.Means t.groups (Tag.ofHash (t.strategy.hash key))
      (t.strategy.equal · key) t.groups.size ((t.strategy.hash key).toNat % t.groups.size) := by
  rcases hi.size_cases with h0 | hpow
  · rw [walk_of_size_eq_zero h0]
    exact fun d hd => absurd hd (by omega)
  · have h : (walkFrom t.groups (Tag.ofHash (t.strategy.hash key)) (t.strategy.equal · key)
        t.groups.size (homeGroup t.groups.size (t.strategy.hash key))).ending.Means t.groups
          (Tag.ofHash (t.strategy.hash key)) (t.strategy.equal · key) t.groups.size
            (homeGroup t.groups.size (t.strategy.hash key)) :=
      walkFrom_means hpow (homeGroup_lt hpow _) _
    rw [homeGroup_eq_mod hpow] at h
    rw [probe]
    dsimp only
    rw [homeGroup_eq_mod hpow]
    exact h

theorem found_eq_some_iff : (t.probe key).found = some p ↔ (t.probe key).walk.ending = .occupied p := by
  rw [Probe.found]
  cases (t.probe key).walk.ending <;> simp

theorem found_eq_some (hi : t.Invariant) (h : (t.probe key).found = some p) :
    2 ≤ tagIn t.groups p ∧ t.strategy.equal (cellIn t.groups p).key key = true := by
  have hmeans := probe_means hi key
  rw [found_eq_some_iff.1 h] at hmeans
  exact ⟨hmeans.1 ▸ Tag.two_le_ofHash _, hmeans.2.1⟩

/-- **A search in a table with room ends at a slot with the key or at the first empty slot.** -/
theorem probe_cases (hi : t.Invariant) (hroom : t.count + t.tombstones < t.capacity) (key : Bytes) :
    (∃ p, (t.probe key).walk.ending = .occupied p ∧ (t.probe key).found = some p) ∨
      ∃ p, (t.probe key).walk.ending = .vacant p ∧ (t.probe key).found = none ∧
        FirstVacancy t.groups ((t.strategy.hash key).toNat % t.groups.size) p := by
  have hmeans := probe_means hi key
  cases hend : (t.probe key).walk.ending with
  | occupied p => exact .inl ⟨p, rfl, found_eq_some_iff.2 hend⟩
  | vacant p =>
    rw [hend] at hmeans
    obtain ⟨hlow, -, d, hd, hp, hbefore⟩ := hmeans
    exact .inr ⟨p, rfl, by rw [Probe.found, hend], hlow, d, hd, hp, fun d' hd' => (hbefore d' hd').1⟩
  | exhausted =>
    rw [hend] at hmeans
    have hused : liveCount t.groups + buriedCount t.groups < 16 * t.groups.size := by
      rw [← hi.count, ← hi.tombstones]
      exact hroom
    obtain ⟨g, hg, hnot⟩ := exists_not_full hused
    obtain ⟨d, hd, rfl⟩ := exists_steps (Nat.mod_lt (t.strategy.hash key).toNat (by omega)) hg
    exact absurd (hmeans d hd).1 hnot

/-- **Under a lawful strategy a key that is not found is equal to no stored key.** -/
theorem not_equal_of_found_eq_none (hi : t.Invariant) (hl : t.strategy.Lawful t.geometry.keySize)
    (hk : key.length = t.geometry.keySize) (h : (t.probe key).found = none) {e : Entry}
    (he : e ∈ t.entries) : t.strategy.equal e.key key = false := by
  obtain ⟨q, hq⟩ := mem_entriesIn.1 he
  obtain ⟨hlive, rfl⟩ := stored_eq_some.1 hq
  by_contra heq
  rw [Bool.not_eq_false] at heq
  -- Equal keys have the same home group and the same tag, so the search would have come to the slot.
  have hhash := hl.hash_eq _ _ (hi.sizes q _ hq).1 hk heq
  have htag := hi.arranged.tag q hlive
  obtain ⟨d, hd, hgroup, hfull⟩ := hi.arranged.path q hlive
  rw [hhash] at htag hgroup hfull
  have hmissed : ∀ g, Missed t.groups (Tag.ofHash (t.strategy.hash key)) (t.strategy.equal · key) g →
      q.group ≠ g := by
    rintro g hm rfl
    exact absurd heq (Bool.eq_false_iff.1 (hm q.slot htag))
  have hmeans := probe_means hi key
  cases hend : (t.probe key).walk.ending with
  | occupied p => rw [Probe.found, hend] at h; simp at h
  | exhausted =>
    rw [hend] at hmeans
    exact hmissed _ (hmeans d hd).2 hgroup
  | vacant p =>
    rw [hend] at hmeans
    obtain ⟨hlow, hmiss, d', -, hp, hbefore⟩ := hmeans
    rcases Nat.lt_trichotomy d d' with hlt | rfl | hlt
    · exact hmissed _ (hbefore d hlt).2 hgroup
    · exact hmissed _ hmiss (hgroup.trans hp.symm)
    · have hnone := full_iff.1 (hfull d' hlt)
      rw [← hp, hlow] at hnone
      exact absurd hnone (Option.some_ne_none _)

end Table

end TagTable
