import TagTable.Proofs.Run.Reachable

/-!
# Fresh tables

* **`Origin.make_fresh`**: no slot of a first table has held an entry;
* `doubleUntil_eq`, `Table.grownCapacity_loadLimit`: the number of entries for which a capacity is found;
* **`Table.Invariant.exists_fresh`**: there is a first table of the same layout, strategy and capacity as
  any other.
-/

namespace TagTable

variable {σ : Type} {t u : Table}

theorem Origin.make_fresh {A : Allocator σ} {e : EntryLayout} {s : Strategy} {o : Origin} {heap : σ}
    (h : (o.make A e s heap).answer = .ok u) : ∃ x n, Geometry.ofEntry e = .ok x ∧
      u = { Table.vacant e x s with groups := Array.replicate n Group.empty } := by
  obtain ⟨x, hx, rfl | ⟨room, rfl⟩⟩ := make_eq_ok h
  · exact ⟨x, 0, hx, rfl⟩
  · have hi := Table.invariant_vacant hx s
    rcases Table.reserve_cases A _ room heap hi.capacity_le hi.load with
      heq | ⟨heq, -⟩ | ⟨capacity, -, -, heq⟩
    · exact ⟨x, 0, hx, by rw [heq]; rfl⟩
    · exact ⟨x, 0, hx, by rw [heq]; rfl⟩
    · rw [heq]
      rcases Table.moveTo_cases A _ capacity heap with ⟨-, hafter⟩ | ⟨-, hafter, -⟩
      · exact ⟨x, 0, hx, by rw [hafter]; rfl⟩
      · exact ⟨x, capacity / groupSize, hx, by rw [hafter]; rfl⟩

theorem doubleUntil_eq {entries doublings capacity j : Nat} (hj : j < doublings)
    (hword : capacity * 2 ^ j < wordBound) (hroom : entries ≤ loadLimit (capacity * 2 ^ j))
    (hbefore : ∀ i < j, loadLimit (capacity * 2 ^ i) < entries) :
    doubleUntil entries doublings capacity = some (capacity * 2 ^ j) := by
  induction j generalizing doublings capacity with
  | zero =>
    obtain ⟨doublings, rfl⟩ := Nat.exists_eq_add_of_lt hj
    rw [Nat.pow_zero, Nat.mul_one] at hroom ⊢
    rw [Nat.zero_add, doubleUntil, if_neg (by omega)]
  | succ j ih =>
    obtain ⟨doublings, rfl⟩ := Nat.exists_eq_add_of_lt hj
    have hdouble : ∀ i, capacity * 2 ^ (i + 1) = capacity * 2 * 2 ^ i := fun i => by
      rw [Nat.pow_succ', Nat.mul_assoc]
    have hfirst := hbefore 0 (Nat.succ_pos j)
    rw [Nat.pow_zero, Nat.mul_one] at hfirst
    rw [hdouble] at hword hroom
    have hchecked : checked (capacity * 2) = some (capacity * 2) :=
      checked_eq_some_iff.2 ⟨(Nat.le_mul_of_pos_right _ (Nat.two_pow_pos j)).trans_lt hword, rfl⟩
    rw [doubleUntil, if_pos hfirst, hchecked, hdouble]
    exact ih (by omega) hword hroom fun i hi => hdouble i ▸ hbefore (i + 1) (by omega)

/-- **As many entries as a capacity may hold make a first buffer of that capacity.** -/
theorem grownCapacity_loadLimit {j : Nat} (hword : groupSize * 2 ^ j < wordBound) :
    grownCapacity (loadLimit (groupSize * 2 ^ j)) 0 = some (groupSize * 2 ^ j) := by
  have hj : j < 65 := by
    by_contra hle
    have := Nat.pow_le_pow_right (show 0 < 2 by decide) (Nat.le_of_not_lt hle)
    rw [groupSize, wordBound] at hword
    omega
  refine doubleUntil_eq hj hword le_rfl fun i hi => ?_
  -- The limit of the next smaller capacity is lower, since even one group may hold entries.
  have hdouble : 2 ^ i * 2 ≤ 2 ^ j := by
    rw [← Nat.pow_succ]
    exact Nat.pow_le_pow_right (by decide) hi
  have hpos := Nat.two_pow_pos i
  have hstart : max (0 * 2) groupSize = 16 := rfl
  rw [hstart, loadLimit, loadLimit, groupSize]
  omega

namespace Table

theorem reserve_loadLimit {e : EntryLayout} {x : Geometry} (s : Strategy) {j : Nat}
    (hword : groupSize * 2 ^ j < wordBound) (A : Allocator σ) (heap : σ) :
    (vacant e x s).reserve A (loadLimit (groupSize * 2 ^ j)) heap =
      (vacant e x s).moveTo A (groupSize * 2 ^ j) heap := by
  have hpos := Nat.two_pow_pos j
  have hlimit : 0 < loadLimit (groupSize * 2 ^ j) := by
    rw [loadLimit, groupSize]
    omega
  have hchecked : checked ((vacant e x s).count + loadLimit (groupSize * 2 ^ j)) =
      some (loadLimit (groupSize * 2 ^ j)) :=
    checked_eq_some_iff.2 ⟨(Nat.zero_add _).symm ▸ (loadLimit_le _).trans_lt hword, Nat.zero_add _⟩
  have hcapacity : (vacant e x s).capacity = 0 := rfl
  have hzero : loadLimit 0 = 0 := rfl
  rw [reserve, hchecked, hcapacity, hzero]
  dsimp only
  rw [if_neg (by omega), if_neg (by omega), grownCapacity_loadLimit hword]

/-- **Every capacity that a table can have is that of a first table.** -/
theorem Invariant.exists_fresh (hi : t.Invariant) :
    ∃ o u, (Origin.make Allocator.unlimited t.entryLayout t.strategy o ()).answer = .ok u ∧
      u.capacity = t.capacity := by
  rcases hi.size_cases with h0 | ⟨j, hj⟩
  · refine ⟨.empty, vacant t.entryLayout t.geometry t.strategy, ?_, ?_⟩
    · rw [Origin.make_of_ok hi.geometry]
    · rw [Table.capacity, Table.capacity, h0]
      rfl
  · obtain ⟨block, hblock⟩ := hi.block (by rw [hj]; exact (Nat.two_pow_pos j).ne')
    have hnew : (vacant t.entryLayout t.geometry t.strategy).geometry.bufferBlock (2 ^ j) = .ok block :=
      hj ▸ hblock
    have hle := hi.capacity_le
    rw [Table.capacity, hj] at hle
    have hword : groupSize * 2 ^ j < wordBound := Nat.lt_of_le_of_lt hle (by decide)
    have hdiv : groupSize * 2 ^ j / groupSize = 2 ^ j := Nat.mul_div_cancel_left _ (by decide)
    refine ⟨.withRoom (loadLimit (groupSize * 2 ^ j)),
      ((vacant t.entryLayout t.geometry t.strategy).rehash (2 ^ j)).answer, ?_, ?_⟩
    · rw [Origin.make_of_ok hi.geometry]
      dsimp only
      rw [reserve_loadLimit _ hword, moveTo, hdiv, hnew]
      rfl
    · rw [Table.capacity, size_rehash, Table.capacity, hj]

end Table

end TagTable
