import TagTable.Proofs.Table.Search
import TagTable.Table.Update

/-!
# Changes of a table

What reservations, additions, removals and edits do to a table that satisfies the invariant, for
every strategy and every allocator.

* `Table.Resettled`, **`Table.moveTo_spec`**, **`Table.reserve_spec`**: the entries in another buffer;
* `Table.store_of_not_fits`, `Table.store_of_error`, **`Table.store_cases`**, `Table.store_after`: the ways
  in which an addition may go;
* `Table.entries_occupy`, `Table.entries_bury`, `Table.entries_overwrite`: the entries afterwards;
* `Table.Invariant.insert`, `set`, `modify`, `take`, `reserve`, `copy`: the invariant is kept.
-/

namespace TagTable

namespace Table

variable {σ : Type} (A : Allocator σ) {t u : Table} {p : Position} {key value : Bytes}

/-! ## Reservations -/

/-- The same entries, possibly in another buffer. -/
structure Resettled (t u : Table) : Prop where
  invariant : u.Invariant
  entryLayout : u.entryLayout = t.entryLayout
  geometry : u.geometry = t.geometry
  strategy : u.strategy = t.strategy
  count : u.count = t.count
  entries : u.entries.Perm t.entries

theorem Resettled.refl (hi : t.Invariant) : Resettled t t := ⟨hi, rfl, rfl, rfl, rfl, .refl _⟩

theorem GrowthTarget.count_le {capacity : Nat} (hc : t.GrowthTarget capacity) (hi : t.Invariant) :
    t.count ≤ loadLimit capacity := by
  have hload := hi.load
  rcases hc with ⟨-, rfl⟩ | ⟨doublings, rfl⟩
  · omega
  · have hle : t.capacity ≤ max (t.capacity * 2) groupSize * 2 ^ doublings :=
      calc t.capacity ≤ t.capacity * 2 := Nat.le_mul_of_pos_right _ (by decide)
        _ ≤ max (t.capacity * 2) groupSize := Nat.le_max_left ..
        _ ≤ max (t.capacity * 2) groupSize * 2 ^ doublings :=
          Nat.le_mul_of_pos_right _ (Nat.two_pow_pos _)
    have := loadLimit_mono hle
    omega

/-- **A move to a target fails without a change, or it keeps the entries and drops the
tombstones.** -/
theorem moveTo_spec (hi : t.Invariant) {capacity : Nat} (hc : t.GrowthTarget capacity) (heap : σ) :
    (t.moveTo A capacity heap).result = .error .outOfMemory ∧ (t.moveTo A capacity heap).after = t ∨
      (t.moveTo A capacity heap).result = .ok () ∧ Resettled t (t.moveTo A capacity heap).after ∧
        (t.moveTo A capacity heap).after.capacity = capacity ∧
          (t.moveTo A capacity heap).after.tombstones = 0 := by
  obtain ⟨n, hn, hcap, hdiv⟩ := hc.exists_groups hi.size_cases
  have hroom := hc.count_le hi
  rw [hcap] at hroom
  rcases t.moveTo_cases A capacity heap with hfail | ⟨hok, hafter, hblock⟩
  · exact .inl hfail
  · rw [hdiv] at hafter hblock
    rw [hafter]
    exact .inr ⟨hok, ⟨hi.rehash hn hroom hblock, rfl, rfl, rfl, rfl, hi.entries_rehash hn hroom⟩,
      by rw [Table.capacity, size_rehash, hcap], rfl⟩

/-- **A reservation fails without a change, or it leaves the same entries and the room asked for.** -/
theorem reserve_spec (hi : t.Invariant) (n : Nat) (heap : σ) :
    (t.reserve A n heap).result = .error .outOfMemory ∧ (t.reserve A n heap).after = t ∨
      (t.reserve A n heap).result = .ok () ∧ Resettled t (t.reserve A n heap).after ∧
        (t.reserve A n heap).after.count + n + (t.reserve A n heap).after.tombstones ≤
          loadLimit (t.reserve A n heap).after.capacity := by
  rcases t.reserve_cases A n heap hi.capacity_le hi.load with
    h | ⟨h, hroom⟩ | ⟨capacity, hc, hroom, h⟩
  · rw [h]
    exact .inl ⟨rfl, rfl⟩
  · rw [h]
    exact .inr ⟨rfl, .refl hi, hroom⟩
  · rw [h]
    rcases moveTo_spec A hi hc heap with hfail | ⟨hok, hre, hcap, htomb⟩
    · exact .inl hfail
    · refine .inr ⟨hok, hre, ?_⟩
      rw [hre.count, hcap, htomb]
      exact hroom

/-! ## Additions -/

theorem store_of_not_fits {present : Table → Position → Except Error Unit × Table}
    (h : t.fits key value = false) (heap : σ) :
    t.store A present key value heap = .fail .invalidArgument t heap := by
  rw [store, h]
  exact if_neg Bool.false_ne_true

theorem store_of_error {present : Table → Position → Except Error Unit × Table}
    (hfit : t.fits key value = true) {heap : σ} {error : Error}
    (h : (t.reserve A 1 heap).result = .error error) :
    t.store A present key value heap = t.reserve A 1 heap := by
  rw [store, if_pos hfit]
  simp only [h]

/-- **An addition that has its room finds the key or an empty slot for it.** -/
theorem store_cases (hi : t.Invariant) (present : Table → Position → Except Error Unit × Table)
    (hfit : t.fits key value = true) {heap : σ} (hok : (t.reserve A 1 heap).result = .ok ())
    (hu : (t.reserve A 1 heap).after = u) :
    (∃ p, (u.probe key).found = some p ∧ t.store A present key value heap =
      ⟨(present u p).1, (present u p).2, (t.reserve A 1 heap).heap,
        (t.reserve A 1 heap).trace.addCalls ((u.probe key).calls u)⟩) ∨
    ∃ p, (u.probe key).found = none ∧
      FirstVacancy u.groups ((u.strategy.hash key).toNat % u.groups.size) p ∧
      u.count + 1 + u.tombstones ≤ loadLimit u.capacity ∧ t.store A present key value heap =
        ⟨.ok (), u.occupy p (Tag.ofHash (u.strategy.hash key)) ⟨key, value⟩,
          (t.reserve A 1 heap).heap,
          (t.reserve A 1 heap).trace.addCalls ((u.probe key).calls u)⟩ := by
  rcases reserve_spec A hi 1 heap with ⟨hfail, -⟩ | ⟨-, hre, hroom⟩
  · rw [hok] at hfail
    exact absurd hfail (by simp)
  · rw [hu] at hre hroom
    have hlt : u.count + u.tombstones < u.capacity :=
      Nat.lt_of_lt_of_le (by omega) (loadLimit_le _)
    rw [store, if_pos hfit]
    simp only [hok, hu]
    rcases probe_cases hre.invariant hlt key with ⟨p, hend, hfound⟩ | ⟨p, hend, hfound, hv⟩
    · refine .inl ⟨p, hfound, ?_⟩
      simp only [hend]
    · refine .inr ⟨p, hfound, hv, hroom, ?_⟩
      simp only [hend]
      rfl

theorem fits_eq_true : t.fits key value = true ↔
    key.length = t.geometry.keySize ∧ value.length = t.geometry.valueSize := by
  rw [fits, Bool.and_eq_true, beq_iff_eq, beq_iff_eq]

/-- **What an addition leaves**: the table itself, what is done with a key that is present, or one more
entry. -/
theorem store_after (hi : t.Invariant) (present : Table → Position → Except Error Unit × Table)
    (key value : Bytes) (heap : σ) :
    (t.store A present key value heap).after = t ∨
      ∃ u, Resettled t u ∧ ∃ p,
        (2 ≤ tagIn u.groups p ∧ (t.store A present key value heap).after = (present u p).2 ∨
          t.fits key value = true ∧
            FirstVacancy u.groups ((u.strategy.hash key).toNat % u.groups.size) p ∧
            u.count + 1 + u.tombstones ≤ loadLimit u.capacity ∧
            (t.store A present key value heap).after =
              u.occupy p (Tag.ofHash (u.strategy.hash key)) ⟨key, value⟩) := by
  by_cases hfit : t.fits key value = true
  · rcases reserve_spec A hi 1 heap with ⟨hfail, hafter⟩ | ⟨hok, hre, -⟩
    · rw [store_of_error A hfit hfail]
      exact .inl hafter
    · rcases store_cases A hi present hfit hok rfl with ⟨p, hfound, h⟩ | ⟨p, -, hv, hroom, h⟩
      · have hlive := (found_eq_some hre.invariant hfound).1
        exact .inr ⟨_, hre, p, .inl ⟨hlive, congrArg Outcome.after h⟩⟩
      · exact .inr ⟨_, hre, p, .inr ⟨hfit, hv, hroom, congrArg Outcome.after h⟩⟩
  · rw [store_of_not_fits A (Bool.not_eq_true _ ▸ hfit)]
    exact .inl rfl

/-! ## The entries after a change of one slot -/

theorem entries_occupy {home : Nat} (hv : FirstVacancy t.groups home p) (h : UInt64) (e : Entry) :
    (t.occupy p (Tag.ofHash h) e).entries.Perm (e :: t.entries) :=
  entriesIn_occupy hv h

theorem entries_bury (hp : 2 ≤ tagIn t.groups p) :
    ∃ l₁ l₂, t.entries = l₁ ++ cellIn t.groups p :: l₂ ∧ (t.bury p).entries = l₁ ++ l₂ := by
  have hg := group_lt_of_two_le hp
  have htag := tagIn_bury hg
  obtain ⟨l₁, l₂, hold, hnew⟩ := entriesIn_change (t.size_bury p) hg fun q hq =>
    stored_congr ((htag q).trans (if_neg hq)) (cellIn_bury hg q)
  rw [stored_eq_some.2 ⟨hp, rfl⟩, Option.toList_some, List.append_assoc] at hold
  rw [stored_eq_none.2 (by
    rw [show tagIn (t.bury p).groups p = _ from htag p, if_pos rfl]
    exact TagRow.not_two_le_tombstone), Option.toList_none, List.append_nil] at hnew
  exact ⟨l₁, l₂, hold, hnew⟩

theorem entries_overwrite (hp : 2 ≤ tagIn t.groups p) (value : Bytes) :
    ∃ l₁ l₂, t.entries = l₁ ++ cellIn t.groups p :: l₂ ∧
      (t.overwrite p value).entries = l₁ ++ (cellIn t.groups p).write value :: l₂ := by
  have hg := group_lt_of_two_le hp
  have htag := tagIn_overwrite hg value
  have hcell := cellIn_overwrite hg value
  obtain ⟨l₁, l₂, hold, hnew⟩ := entriesIn_change (t.size_overwrite p value) hg fun q hq =>
    stored_congr (htag q) ((hcell q).trans (if_neg hq))
  have hstored : stored (t.overwrite p value).groups p = some ((cellIn t.groups p).write value) :=
    stored_eq_some.2 ⟨(htag p).symm ▸ hp, (hcell p).trans (if_pos rfl)⟩
  rw [stored_eq_some.2 ⟨hp, rfl⟩, Option.toList_some, List.append_assoc] at hold
  rw [hstored, Option.toList_some, List.append_assoc] at hnew
  exact ⟨l₁, l₂, hold, hnew⟩

/-! ## The invariant is kept -/

namespace Invariant

theorem reserve (hi : t.Invariant) (n : Nat) (heap : σ) : (t.reserve A n heap).after.Invariant := by
  rcases reserve_spec A hi n heap with ⟨-, hafter⟩ | ⟨-, hre, -⟩
  · rw [hafter]
    exact hi
  · exact hre.invariant

theorem store (hi : t.Invariant) {present : Table → Position → Except Error Unit × Table}
    (hpresent : ∀ u p, u.Invariant → 2 ≤ tagIn u.groups p → (present u p).2.Invariant)
    (key value : Bytes) (heap : σ) : (t.store A present key value heap).after.Invariant := by
  rcases store_after A hi present key value heap with
    h | ⟨u, hre, p, ⟨hlive, h⟩ | ⟨hfit, hv, hroom, h⟩⟩
  · rw [h]
    exact hi
  · rw [h]
    exact hpresent u p hre.invariant hlive
  · rw [h]
    obtain ⟨hkey, hvalue⟩ := fits_eq_true.1 hfit
    exact hre.invariant.occupy hv hroom (hre.geometry ▸ hkey) (hre.geometry ▸ hvalue)

theorem insert (hi : t.Invariant) (key value : Bytes) (heap : σ) :
    (t.insert A key value heap).after.Invariant :=
  hi.store A (fun _ _ hu _ => hu) key value heap

theorem set (hi : t.Invariant) (key value : Bytes) (heap : σ) :
    (t.set A key value heap).after.Invariant :=
  hi.store A (fun _ _ hu hp => hu.overwrite (group_lt_of_two_le hp) _) key value heap

theorem find (hi : t.Invariant) (h : (t.find key).answer = some p) : 2 ≤ tagIn t.groups p := by
  unfold Table.find at h
  split_ifs at h
  exact (found_eq_some hi h).1

theorem modify (hi : t.Invariant) (key : Bytes) (edit : Bytes → Bytes) :
    (t.modify key edit).answer.2.Invariant := by
  rw [Table.modify, Reply.map]
  cases hfind : (t.find key).answer with
  | none => exact hi
  | some p => exact hi.overwrite (group_lt_of_two_le (hi.find hfind)) _

theorem take (hi : t.Invariant) (key : Bytes) : (t.take key).answer.2.Invariant := by
  rw [Table.take]
  split_ifs
  · dsimp only
    cases hfound : (t.probe key).found with
    | none => exact hi
    | some p => exact hi.bury (found_eq_some hi hfound).1
  · exact hi

theorem remove (hi : t.Invariant) (key : Bytes) : (t.remove key).answer.2.Invariant :=
  hi.take key

theorem copy (hi : t.Invariant) {heap : σ} (h : (t.copy A heap).answer = .ok u) : u.Invariant := by
  unfold Table.copy at h
  split at h
  · exact Except.ok.inj h ▸ hi
  · split at h
    · exact absurd h (by simp)
    · split at h
      · exact absurd h (by simp)
      · exact Except.ok.inj h ▸ hi

end Invariant

end Table

end TagTable
