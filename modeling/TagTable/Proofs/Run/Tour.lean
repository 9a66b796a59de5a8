import TagTable.Proofs.Run.Failure
import TagTable.Proofs.Table.Recording
import TagTable.Proofs.Table.SlotOrder
import TagTable.Proofs.Table.Stale

/-!
# Traversals that rewrite values

* `Table.Reworded`: a table with the same tags and keys in the same slots; `Table.reworded_each`;
* `Table.Reworded.slots_eq`, **`Table.Reworded.find_eq`**: its live slots and all searches are the same;
* `Table.Toured`: what a traversal makes of a table; `Table.toured_each`;
* **`each_rewrites_what_it_visits`**: the visited entries are written over, and nothing else changes.
-/

namespace TagTable

variable {τ : Type}

namespace Table

/-- The same table but for the values that its slots store. -/
structure Reworded (t u : Table) : Prop where
  rest : u = { t with groups := u.groups }
  capacity : u.capacity = t.capacity
  tags : ∀ g, (u.groupAt g).tags = (t.groupAt g).tags
  keys : ∀ p, (u.entryAt p).key = (t.entryAt p).key

theorem reworded_each (t : Table) (visitor : τ → Bytes → Bytes → Visit τ) (state : τ) :
    t.Reworded (t.each visitor state).after := by
  obtain ⟨hrew, -⟩ := eachGroup_spec visitor t.groups.toList state
  have hgroup : ∀ g, Group.Rewritten (t.groupAt g) ((t.each visitor state).after.groupAt g) :=
    getD_of_forall₂ (Group.Rewritten.refl _) hrew
  exact ⟨rfl, congrArg (groupSize * ·) (t.size_each visitor state), fun g => (hgroup g).tags,
    fun p => (hgroup p.group).key p.slot⟩

namespace Reworded

variable {t u : Table}

theorem size (h : t.Reworded u) : u.groups.size = t.groups.size :=
  Nat.eq_of_mul_eq_mul_left (show 0 < groupSize by decide) h.capacity

theorem slots_eq (h : t.Reworded u) : u.slots = t.slots := by
  rw [slots, slots, h.size]
  refine List.filter_congr fun p _ => ?_
  rw [tagAt, tagAt, h.tags]

/-- **A search does not depend on the values.** -/
theorem find_eq (h : t.Reworded u) (key : Bytes) : u.find key = t.find key := by
  have hx : u.geometry = t.geometry := by rw [h.rest]
  have hs : u.strategy = t.strategy := by rw [h.rest]
  have hprobe : u.probe key = t.probe key := by
    rw [probe, probe, hs, h.size, walkFrom_congr h.size h.tags fun p _ => h.keys p]
  have hcalls : (u.probe key).calls u = (t.probe key).calls t := by
    rw [Probe.calls, Probe.calls, hprobe]
    exact congrArg _ (List.map_congr_left fun p _ => by rw [h.keys])
  rw [find, find, hx]
  dsimp only
  rw [hcalls, hprobe]

end Reworded

/-- What a traversal makes of a table, given the entries that the visitor was shown with what it gave. -/
structure Toured (t u : Table) (toured : List (Entry × Visit τ)) : Prop where
  /-- The visitor was shown the first entries in the order of iteration. -/
  shown : toured.map Prod.fst = t.cursor.drain.take toured.length
  /-- Only its last answer may have been to stop. -/
  going : ∀ x ∈ toured.dropLast, x.2.stop = false
  complete : (∀ x ∈ toured, x.2.stop = false) → toured.length = t.count
  /-- The entries that it was shown are written over, and those after them are as they were. -/
  left : u.cursor.drain =
    toured.map (fun x => x.1.write x.2.value) ++ t.cursor.drain.drop toured.length
  written : ∀ x ∈ toured, x.2.value.length = t.geometry.valueSize →
    x.1.write x.2.value = ⟨x.1.key, x.2.value⟩
  reworded : t.Reworded u
  slots : u.slots = t.slots
  find : ∀ key, u.find key = t.find key
  /-- The entry that a search finds is at the same place in the order of iteration before and after. -/
  found : ∀ key p, (t.find key).answer = some p → ∃ i : Nat,
    t.cursor.drain[i]? = some (t.entryAt p) ∧ u.cursor.drain[i]? = some (u.entryAt p)

variable {t : Table}

theorem toured_each (ht : Reachable t) (visitor : τ → Bytes → Bytes → Visit τ) (state : τ) :
    t.Toured (t.each visitor state).after (tour visitor t.cursor.drain state) := by
  have hi := ht.invariant
  have hu : (t.each visitor state).after.Invariant := hi.each visitor state
  have hrew := t.reworded_each visitor state
  have hleft := visitEntries_eq visitor t.entries state
  rw [visitEntries_entries] at hleft
  obtain ⟨hgoing, hcomplete⟩ := tour_stop visitor t.entries state
  have hshown := fst_tour visitor t.entries state
  have hold := t.drain_cursor hi.count_eq_length
  have hnew := (t.each visitor state).after.drain_cursor hu.count_eq_length
  rw [hold]
  exact
    { shown := by rw [hold]; exact hshown
      going := hgoing
      complete := fun h => (hcomplete h).trans hi.count_eq_length.symm
      left := by rw [hold, hnew]; exact congrArg Sweep.after hleft
      written := fun x hx hlength => by
        have hmem : x.1 ∈ t.entries := by
          refine List.mem_of_mem_take (i := (tour visitor t.entries state).length) ?_
          rw [← hshown]
          exact List.mem_map_of_mem hx
        rw [Entry.write, Bytes.writeOver_of_length_eq (hlength.trans (hi.entry_sizes hmem).2.symm)]
      reworded := hrew
      slots := hrew.slots_eq
      find := hrew.find_eq
      found := fun key p hp => by
        obtain ⟨i, hslot⟩ := List.getElem?_of_mem ((t.mem_slots p).2 (hi.find hp))
        refine ⟨i, ?_, ?_⟩
        · rw [hold, entries_eq_map_slots, List.getElem?_map, hslot, Option.map_some]
        · rw [hnew, entries_eq_map_slots, hrew.slots_eq, List.getElem?_map, hslot, Option.map_some] }

theorem each_toured (t : Table) (visitor : τ → Bytes → Bytes → Visit τ) (state : τ) :
    (t.each visitor state).state = stateAfter state (tour visitor t.entries state) ∧
      (t.each visitor state).stopped = (tour visitor t.entries state).any fun x => x.2.stop := by
  have h := visitEntries_eq visitor t.entries state
  rw [visitEntries_entries] at h
  exact ⟨congrArg Sweep.state h, congrArg Sweep.stopped h⟩

end Table

theorem Sweep.result_eq_error_iff {γ : Type} (s : Sweep τ γ) :
    s.result = .error .interrupted ↔ s.stopped = true := by
  rw [result]
  split_ifs with h <;> simp [h]

theorem Sweep.result_eq_ok_iff {γ : Type} (s : Sweep τ γ) :
    s.result = .ok () ↔ s.stopped = false := by
  rw [result]
  split_ifs with h <;> simp [h]

/-- **A traversal rewrites the values of the entries that it visits and nothing else**, whatever the
strategy. The visitor is shown the first entries in the order of iteration, each once and as it was, and
may stop at any of them. -/
theorem each_rewrites_what_it_visits {t : Table} (ht : Reachable t)
    (visitor : τ → Bytes → Bytes → Visit τ) (state : τ) :
    t.Toured (t.each visitor state).after (tour visitor t.cursor.drain state) ∧
      ((t.each visitor state).result = .error .interrupted ↔
        ∃ x ∈ tour visitor t.cursor.drain state, x.2.stop = true) ∧
      ((t.each visitor state).result = .ok () ↔
        ∀ x ∈ tour visitor t.cursor.drain state, x.2.stop = false) ∧
      (t.each visitor state).state = stateAfter state (tour visitor t.cursor.drain state) ∧
      ((t.each (recordVisits visitor) (state, [])).after = (t.each visitor state).after ∧
        (t.each (recordVisits visitor) (state, [])).stopped = (t.each visitor state).stopped ∧
        (t.each (recordVisits visitor) (state, [])).state = ((t.each visitor state).state,
          (tour visitor t.cursor.drain state).map Prod.fst)) ∧
      ∀ (σ : Type) (A : Allocator σ) (heap : σ), t.apply A (.each visitor state) heap =
        ⟨.swept (t.each visitor state).state (t.each visitor state).result,
          (t.each visitor state).after, heap, .empty⟩ := by
  obtain ⟨hstate, hstopped⟩ := t.each_toured visitor state
  have hrecord := t.each_recordVisits visitor state []
  rw [← t.drain_cursor ht.invariant.count_eq_length] at hstate hstopped hrecord
  refine ⟨Table.toured_each ht visitor state, ?_, ?_, hstate, hrecord, fun _ _ _ => rfl⟩
  · rw [Sweep.result_eq_error_iff, hstopped, List.any_eq_true]
  · rw [Sweep.result_eq_ok_iff, hstopped, List.any_eq_false]
    exact forall₂_congr fun _ _ => iff_of_eq (Bool.not_eq_true _)

/-- The values of eleven entries are raised until the fourth, at which the visitor stops. -/
theorem each_rewrites_what_it_visits_brimful :
    (brimful.each (fun n _ _ => ⟨n + 1, [8], n == 3⟩) 0).result = .error .interrupted ∧
      (tour (fun n _ _ => ⟨n + 1, [8], n == 3⟩) brimful.cursor.drain 0).map (fun x => x.1.key) =
        [[0], [1], [2], [3]] ∧
      (brimful.each (fun n _ _ => ⟨n + 1, [8], n == 3⟩) 0).after.find [3] = brimful.find [3] ∧
      (brimful.each (fun n _ _ => ⟨n + 1, [8], n == 3⟩) 0).after.cursor.drain[3]? =
        some ⟨[3], [8]⟩ := by
  obtain ⟨htoured, hinterrupted, -⟩ :=
    each_rewrites_what_it_visits reachable_brimful (fun n _ _ => ⟨n + 1, [8], n == 3⟩) 0
  have hstop : ∃ x ∈ tour (fun n _ _ => ⟨n + 1, [8], n == 3⟩) brimful.cursor.drain 0,
      x.2.stop = true := List.any_eq_true.1 (by decide +kernel)
  refine ⟨hinterrupted.2 hstop, by decide +kernel, htoured.find [3], ?_⟩
  rw [htoured.left]
  decide +kernel

end TagTable
