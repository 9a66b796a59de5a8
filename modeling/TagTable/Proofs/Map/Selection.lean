import TagTable.Proofs.Map.Lawful
import TagTable.Proofs.Run.Failure
import TagTable.Proofs.Table.Recording

/-!
# Selections

* `mem_rejected`, `accepted_append_rejected`: the rejected and the accepted entries of a selection;
* `Table.filter_judged`: a selection from a table by the answers of the predicate;
* `Table.Sifted`: what a selection makes of a table; `Table.sifted_filter`;
* **`filter_removes_the_rejected`**: a selection removes the rejected entries and nothing else.
-/

namespace TagTable

variable {τ : Type} {judged : List (Entry × Bool)} {e : Entry}

theorem mem_rejected : e ∈ rejected judged ↔ (e, false) ∈ judged := by
  simp [rejected]

theorem accepted_sublist (judged : List (Entry × Bool)) :
    (accepted judged).Sublist (judged.map Prod.fst) :=
  List.filter_sublist.map _

theorem accepted_append_rejected (l₁ l₂ : List (Entry × Bool)) (e : Entry) :
    accepted (l₁ ++ (e, false) :: l₂) = accepted l₁ ++ accepted l₂ := by
  simp [accepted]

namespace Table

/-- What a selection makes of a table, given its entries with what the predicate answered for them. -/
structure Sifted (t u : Table) (judged : List (Entry × Bool)) : Prop where
  /-- The predicate was asked about every entry, in the order of iteration. -/
  shown : judged.map Prod.fst = t.cursor.drain
  left : u.cursor.drain = accepted judged
  count : u.count + (rejected judged).length = t.count
  tombstones : u.tombstones = t.tombstones + (rejected judged).length
  capacity : u.capacity = t.capacity
  /-- A key that is equal to an accepted one still has its value. -/
  kept : t.strategy.Lawful t.geometry.keySize → ∀ e ∈ accepted judged, ∀ key : Bytes,
    key.length = t.geometry.keySize → t.strategy.equal e.key key = true →
      (t.get key).answer = some e.value ∧ (u.get key).answer = some e.value
  /-- A key that is equal to a rejected one has none any more. -/
  gone : t.strategy.Lawful t.geometry.keySize → ∀ e ∈ rejected judged, ∀ key : Bytes,
    key.length = t.geometry.keySize → t.strategy.equal e.key key = true →
      (t.get key).answer = some e.value ∧ (u.get key).answer = none

variable (t : Table) (keep : τ → Bytes → Bytes → Bool × τ) (state : τ)

theorem filter_judged :
    (t.filter keep state).state = lastState keep t.entries state ∧
      (t.filter keep state).after.entries = accepted (judge keep t.entries state) ∧
      (t.filter keep state).removed = (rejected (judge keep t.entries state)).length := by
  have h := selectEntries_eq keep t.entries state
  rw [selectEntries_entries] at h
  exact ⟨congrArg Selection.state h, congrArg Selection.after h, congrArg Selection.removed h⟩

variable {t}

theorem sifted_filter (ht : Reachable t) :
    t.Sifted (t.filter keep state).after (judge keep t.cursor.drain state) := by
  have hi := ht.invariant
  have hu : Reachable (t.filter keep state).after := ht.apply Allocator.unlimited (.filter keep state) ()
  obtain ⟨-, hleft, hremoved⟩ := t.filter_judged keep state
  have hlength := length_selectEntries keep t.entries state
  rw [selectEntries_entries, ← hi.count_eq_length, ← hu.invariant.count_eq_length] at hlength
  rw [t.drain_cursor hi.count_eq_length]
  have hshown := fst_judge keep t.entries state
  generalize judge keep t.entries state = judged at *
  refine
    { shown := by rw [hshown, t.drain_cursor hi.count_eq_length]
      left := ((t.filter keep state).after.drain_cursor hu.invariant.count_eq_length).trans hleft
      count := by rw [← hremoved]; exact hlength
      tombstones := congrArg (t.tombstones + ·) hremoved
      capacity := congrArg (groupSize * ·) (t.size_filter keep state)
      kept := fun hl e he key hk heq => ?_
      gone := fun hl e he key hk heq => ?_ }
  · have hmem : e ∈ t.entries := hshown ▸ (accepted_sublist judged).subset he
    exact ⟨(ht.represents hl).get_eq_some hmem hk heq,
      (hu.represents hl).get_eq_some (show e ∈ (t.filter keep state).after.entries from hleft ▸ he)
        hk heq⟩
  · obtain ⟨l₁, l₂, hsplit⟩ := List.append_of_mem (mem_rejected.1 he)
    have hold : t.entries = l₁.map Prod.fst ++ e :: l₂.map Prod.fst := by
      rw [← hshown, hsplit, List.map_append, List.map_cons]
    have hmem : e ∈ t.entries := hold ▸ List.mem_append_right _ (List.mem_cons_self ..)
    refine ⟨(ht.represents hl).get_eq_some hmem hk heq, (hu.represents hl).get_eq_none fun e' he' => ?_⟩
    -- What is left are accepted entries from before and after the rejected one.
    have hleft' : e' ∈ accepted l₁ ++ accepted l₂ := by
      rw [← accepted_append_rejected l₁ l₂ e, ← hsplit, ← hleft]
      exact he'
    refine (ht.represents hl).not_equal_of_append hold hk heq e' ?_
    rcases List.mem_append.1 hleft' with h | h
    · exact List.mem_append_left _ ((accepted_sublist l₁).subset h)
    · exact List.mem_append_right _ ((accepted_sublist l₂).subset h)

end Table

/-- **A selection removes exactly the rejected entries**, whatever the strategy. The predicate is shown
each entry once, in the order of iteration. -/
theorem filter_removes_the_rejected {t : Table} (ht : Reachable t)
    (keep : τ → Bytes → Bytes → Bool × τ) (state : τ) :
    t.Sifted (t.filter keep state).after (judge keep t.cursor.drain state) ∧
      (t.filter keep state).state = lastState keep t.cursor.drain state ∧
      ((t.filter (recordAnswers keep) (state, [])).after = (t.filter keep state).after ∧
        (t.filter (recordAnswers keep) (state, [])).state =
          ((t.filter keep state).state, t.cursor.drain)) ∧
      ∀ (σ : Type) (A : Allocator σ) (heap : σ),
        (t.apply A (.filter keep state) heap).after = (t.filter keep state).after ∧
          (t.apply A (.filter keep state) heap).heap = heap ∧
          (t.apply A (.filter keep state) heap).trace = .empty := by
  have hrecord := t.filter_recordAnswers keep state []
  have hstate := (t.filter_judged keep state).1
  rw [← t.drain_cursor ht.invariant.count_eq_length] at hrecord hstate
  exact ⟨Table.sifted_filter keep state ht, hstate, hrecord, fun _ _ _ => ⟨rfl, rfl, rfl⟩⟩

theorem lawful_brimful : brimful.strategy.Lawful brimful.geometry.keySize :=
  Table.lawful_run _ (reachable_bytewise _).invariant (by simp) ()
    (Strategy.lawful_ofHash "" (fun _ => 0) 1)

/-- Of eleven entries every third is rejected. -/
theorem filter_removes_the_rejected_brimful :
    (rejected (judge (fun n _ _ => (n % 3 != 2, n + 1)) brimful.cursor.drain 0)).map Entry.key =
        [[2], [5], [8]] ∧
      (brimful.filter (fun n _ _ => (n % 3 != 2, n + 1)) 0).after.count + 3 = brimful.count ∧
      ((brimful.filter (fun n _ _ => (n % 3 != 2, n + 1)) 0).after.get [4]).answer = some [7] ∧
      ((brimful.filter (fun n _ _ => (n % 3 != 2, n + 1)) 0).after.get [5]).answer = none := by
  obtain ⟨hsifted, -⟩ :=
    filter_removes_the_rejected reachable_brimful (fun n _ _ => (n % 3 != 2, n + 1)) 0
  have hsize : brimful.geometry.keySize = 1 := by decide +kernel
  have hrejected : rejected (judge (fun n _ _ => (n % 3 != 2, n + 1)) brimful.cursor.drain 0) =
      [⟨[2], [7]⟩, ⟨[5], [7]⟩, ⟨[8], [7]⟩] := by decide +kernel
  have haccepted : ⟨[4], [7]⟩ ∈
      accepted (judge (fun n _ _ => (n % 3 != 2, n + 1)) brimful.cursor.drain 0) := by decide +kernel
  have hrefl (key : Bytes) (hk : key.length = 1) : brimful.strategy.equal key key = true :=
    lawful_brimful.refl key (hk.trans hsize.symm)
  have hcount := hsifted.count
  rw [hrejected] at hcount
  refine ⟨by rw [hrejected]; rfl, hcount, ?_, ?_⟩
  · exact (hsifted.kept lawful_brimful _ haccepted [4] hsize.symm (hrefl [4] rfl)).2
  · exact (hsifted.gone lawful_brimful ⟨[5], [7]⟩ (by rw [hrejected]; decide) [5] hsize.symm
      (hrefl [5] rfl)).2

end TagTable
