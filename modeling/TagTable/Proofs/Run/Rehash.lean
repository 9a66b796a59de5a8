import TagTable.Proofs.Run.Reachable

/-!
# Rehashes

The loop that puts the entries of a table into a fresh buffer, for every strategy.

* `Table.refill`: the buffer when some of the entries were put into it;
* `Table.refill_spec`, **`Table.exists_vacancy_refill`**: what it holds, and that a slot is left for
  the next entry;
* **`rehash_keeps_entries`**: a move to another buffer as a whole.
-/

namespace TagTable

namespace Table

variable {t : Table} {n : Nat} {done rest : List Entry}

/-- A fresh buffer of `n` groups into which the entries of a list were put. -/
def refill (t : Table) (n : Nat) (done : List Entry) : Array Group :=
  redistribute (done.map fun e => (t.strategy.hash e.key, e)) (Array.replicate n Group.empty)

theorem groups_rehash (t : Table) (n : Nat) :
    (t.rehash n).answer.groups = t.refill n t.entries := rfl

theorem refill_concat (t : Table) (n : Nat) (done : List Entry) (e : Entry) :
    t.refill n (done ++ [e]) = place (t.refill n done) (t.strategy.hash e.key) e := by
  rw [refill, refill, redistribute, redistribute, List.map_append, List.foldl_append]
  rfl

theorem refill_spec (t : Table) (done : List Entry) (hn : n.isPowerOfTwo)
    (hl : done.length ≤ 16 * n) :
    (t.refill n done).size = n ∧ liveCount (t.refill n done) = done.length ∧
      buriedCount (t.refill n done) = 0 := by
  obtain ⟨-, hburied, hperm⟩ := redistribute_replicate t.strategy.hash hn hl
  have hsize : (t.refill n done).size = n := (size_redistribute _ _).trans Array.size_replicate
  exact ⟨hsize, (length_entriesIn _).symm.trans hperm.length_eq, hburied⟩

/-- **While entries are left, the next one finds an empty slot on its way and is put there.** -/
theorem exists_vacancy_refill (hi : t.Invariant) (hn : n.isPowerOfTwo)
    (hroom : t.count ≤ loadLimit (groupSize * n)) {e : Entry} (h : t.entries = done ++ e :: rest) :
    ∃ p, vacancyFrom (t.refill n done) n (homeGroup n (t.strategy.hash e.key)) = some p ∧
      tagIn (t.refill n done) p = Tag.empty ∧
      t.refill n (done ++ [e]) = (t.refill n done).modify p.group
        (·.occupy p.slot (Tag.ofHash (t.strategy.hash e.key)) e) := by
  have hle := hi.length_entries_le hroom
  rw [h, List.length_append, List.length_cons] at hle
  obtain ⟨hsize, hlive, hburied⟩ := t.refill_spec done hn (by omega)
  obtain ⟨p, hp, hv, hplace⟩ := place_eq (hsize.symm ▸ hn) (by omega) (t.strategy.hash e.key) e
  rw [hsize] at hp
  exact ⟨p, hp, hv.tag_eq, (t.refill_concat n done e).trans hplace⟩

theorem tagIn_ne_tombstone {groups : Array Group} (h : buriedCount groups = 0) (p : Position) :
    tagIn groups p ≠ Tag.tombstone := by
  by_cases hp : p.group < groups.size
  · have := List.countP_eq_zero.1 h p (mem_positions.2 hp)
    simpa using this
  · rw [tagIn_of_size_le (Nat.le_of_not_lt hp)]
    exact TagRow.tombstone_ne_empty.symm

end Table

/-- **A move of the entries to a buffer that a reservation may choose neither loses, duplicates nor
alters an entry**, whatever the strategy: every entry finds an empty slot and is put there. -/
theorem rehash_keeps_entries {σ : Type} (A : Allocator σ) {t : Table} (ht : Reachable t)
    {capacity : Nat} (hc : t.GrowthTarget capacity) (heap : σ)
    (hok : (t.moveTo A capacity heap).result = .ok ()) :
    (t.moveTo A capacity heap).after.entries.Perm t.entries ∧
      (t.moveTo A capacity heap).after.count = t.count ∧
      (t.moveTo A capacity heap).after.tombstones = 0 ∧
      (∀ p, (t.moveTo A capacity heap).after.tagAt p ≠ Tag.tombstone) ∧
      (t.moveTo A capacity heap).after.capacity = capacity ∧
      (t.moveTo A capacity heap).after.groups = t.refill (capacity / groupSize) t.entries ∧
      ∀ done e rest, t.entries = done ++ e :: rest →
        ∃ p, vacancyFrom (t.refill (capacity / groupSize) done) (capacity / groupSize)
            (homeGroup (capacity / groupSize) (t.strategy.hash e.key)) = some p ∧
          tagIn (t.refill (capacity / groupSize) done) p = Tag.empty ∧
          t.refill (capacity / groupSize) (done ++ [e]) =
            (t.refill (capacity / groupSize) done).modify p.group
              (·.occupy p.slot (Tag.ofHash (t.strategy.hash e.key)) e) := by
  have hi := ht.invariant
  obtain ⟨n, hn, hcap, hdiv⟩ := hc.exists_groups hi.size_cases
  have hroom := hc.count_le hi
  rw [hcap] at hroom
  have hgroups : (t.moveTo A capacity heap).after.groups = t.refill (capacity / groupSize) t.entries := by
    rcases t.moveTo_cases A capacity heap with ⟨hfail, -⟩ | ⟨-, hafter, -⟩
    · simp [hok] at hfail
    · rw [hafter, Table.groups_rehash]
  rcases Table.moveTo_spec A hi hc heap with ⟨hfail, -⟩ | ⟨-, hre, hcapacity, htomb⟩
  · simp [hok] at hfail
  · refine ⟨hre.entries, hre.count, htomb, ?_, hcapacity, hgroups, fun done e rest h => ?_⟩
    · exact Table.tagIn_ne_tombstone (hre.invariant.tombstones.symm.trans htomb)
    · rw [hdiv]
      exact Table.exists_vacancy_refill hi hn hroom h

theorem rehash_keeps_entries_tripled :
    (tripled.moveTo Allocator.unlimited 64 ()).after.entries.Perm tripled.entries ∧
      (tripled.moveTo Allocator.unlimited 64 ()).after.capacity = 64 := by
  have hc : tripled.GrowthTarget 64 := .inr ⟨1, by decide +kernel⟩
  have hok : (tripled.moveTo Allocator.unlimited 64 ()).result = .ok () := by decide +kernel
  obtain ⟨hperm, -, -, -, hcap, -⟩ :=
    rehash_keeps_entries Allocator.unlimited reachable_tripled hc () hok
  exact ⟨hperm, hcap⟩

end TagTable
