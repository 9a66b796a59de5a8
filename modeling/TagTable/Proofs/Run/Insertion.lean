import TagTable.Proofs.Run.Failure
import TagTable.Proofs.Table.Burial
import TagTable.Proofs.Table.Visits

/-!
# Additions never run out of slots

* `Table.settled_of_reserve`: after a reservation every search ends at an entry or at an empty slot;
* **`insertion_never_exhausted`**: so an addition for which there was memory has a slot, and removals find
  entries in theirs.
-/

namespace TagTable

variable {σ : Type} (A : Allocator σ)

namespace Table

variable {t : Table} {heap : σ}

theorem settled_of_reserve (hi : t.Invariant) {n : Nat} (hn : 0 < n)
    (hok : (t.reserve A n heap).result = .ok ()) (key : Bytes) :
    (t.reserve A n heap).after.Settled key := by
  rcases reserve_spec A hi n heap with ⟨hfail, -⟩ | ⟨-, hre, hroom⟩
  · rw [hok] at hfail
    exact absurd hfail (by simp)
  · have hlimit := loadLimit_le (t.reserve A n heap).after.capacity
    exact settled_of_room hre.invariant (by omega) key

end Table

/-- **Additions never run out of slots, and removals never miss an entry.** After the reservation of one
entry every search ends at an entry or at an empty slot, and entries are removed from slots that hold
one, with one counted. -/
theorem insertion_never_exhausted {t : Table} (ht : Reachable t) (heap : σ) :
    ((t.reserve A 1 heap).result = .ok () → ∀ key, (t.reserve A 1 heap).after.Settled key) ∧
    (∀ key value : Bytes,
      ((t.insert A key value heap).result = .error .outOfMemory ↔
        t.fits key value = true ∧ (t.reserve A 1 heap).result = .error .outOfMemory) ∧
      ((t.set A key value heap).result = .error .outOfMemory ↔
        t.fits key value = true ∧ (t.reserve A 1 heap).result = .error .outOfMemory)) ∧
    (∀ key : Bytes,
      Table.Buried (t.take key).answer.1.isOk.toNat t (t.take key).answer.2 ∧
        (t.take key).answer.2.count + (t.take key).answer.1.isOk.toNat = t.count) ∧
    ∀ (τ : Type) (keep : τ → Bytes → Bytes → Bool × τ) (state : τ),
      Table.Buried (t.filter keep state).removed t (t.filter keep state).after ∧
        (t.filter keep state).after.count + (t.filter keep state).removed = t.count := by
  have hi := ht.invariant
  refine ⟨fun hok key => Table.settled_of_reserve A hi Nat.one_pos hok key, fun key value => ⟨?_, ?_⟩,
    fun key => ?_, fun τ keep state => ?_⟩
  · exact Table.store_eq_outOfMemory A hi fun _ _ => by simp
  · exact Table.store_eq_outOfMemory A hi fun _ _ => by simp
  · have hburied := Table.buried_take hi key
    exact ⟨hburied, hburied.count_add⟩
  · have hburied := Table.buried_filter keep hi state
    exact ⟨hburied, hburied.count_add⟩

/-- Thirty-two slots in which no key equals another and all have the same home, with as many tombstones
as leave room for one entry. -/
def worn : Table :=
  ((bytewise ⟨"", fun _ => 0, fun _ _ => false⟩).run Allocator.unlimited
    (.reserve 22 :: (List.replicate 21 (.insert [1] [2])) ++
      [.filter (fun _ _ _ => (false, ())) ()]) ()).1

theorem reachable_worn : Reachable worn :=
  Reachable.run _ _ _ (reachable_bytewise _)

theorem insertion_never_exhausted_worn :
    (worn.capacity = 32 ∧ worn.count = 0 ∧ worn.tombstones = 21 ∧
      (worn.reserve Allocator.unlimited 1 ()).after.tombstones = 21 ∧
      (worn.reserve Allocator.unlimited 1 ()).after.Settled [1]) ∧
    (worn.insert Allocator.unlimited [1] [2] ()).result ≠ .error .outOfMemory ∧
    Table.Buried 0 worn (worn.take [1]).answer.2 ∧
    Table.Buried 2 tripled (tripled.filter (fun _ _ _ => (false, ())) ()).after := by
  obtain ⟨hsettled, hmemory, htake, -⟩ :=
    insertion_never_exhausted Allocator.unlimited reachable_worn ()
  obtain ⟨-, -, -, hfilter⟩ := insertion_never_exhausted Allocator.unlimited reachable_tripled ()
  have hworn : (worn.capacity = 32 ∧ worn.count = 0 ∧ worn.tombstones = 21 ∧
      (worn.reserve Allocator.unlimited 1 ()).after.tombstones = 21) ∧
      (worn.reserve Allocator.unlimited 1 ()).result = .ok () ∧
      (worn.take [1]).answer.1.isOk.toNat = 0 := by decide +kernel
  have hremoved : (tripled.filter (fun _ _ _ => (false, ())) ()).removed = 2 := by decide +kernel
  obtain ⟨⟨hcap, hcount, htomb, hkept⟩, hok, hmissing⟩ := hworn
  refine ⟨⟨hcap, hcount, htomb, hkept, hsettled hok [1]⟩, fun h => ?_, hmissing ▸ (htake [1]).1,
    hremoved ▸ (hfilter _ _ ()).1⟩
  have hfail := ((hmemory [1] [2]).1.1 h).2
  rw [hok] at hfail
  exact absurd hfail (by simp)

end TagTable
