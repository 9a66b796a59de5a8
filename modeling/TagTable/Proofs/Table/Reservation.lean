import Mathlib.Algebra.Group.Nat.Defs
import Mathlib.Tactic.Common
import TagTable.Proofs.Memory.Geometry
import TagTable.Table.Growth

/-!
# Reservations

What a reservation does, without what it does to the entries.

* `loadLimit_le`, `loadLimit_mono`; `doubleUntil_eq_some`, `grownCapacity_eq_some`: the capacity
  found is a doubling with room;
* `Table.GrowthTarget`, `Table.Regrowth`: the capacities that a reservation may choose, and why;
* **`Table.moveTo_cases`**, **`Table.reserve_regrowth`**, `Table.reserve_cases`: nothing, a failure, or a
  move to a target.
-/

namespace TagTable

theorem loadLimit_le (capacity : Nat) : loadLimit capacity ≤ capacity := by
  unfold loadLimit
  omega

theorem loadLimit_mono {c d : Nat} (h : c ≤ d) : loadLimit c ≤ loadLimit d :=
  Nat.div_le_div_right (Nat.mul_le_mul_right 7 h)

theorem doubleUntil_eq_some {entries doublings capacity c : Nat}
    (h : doubleUntil entries doublings capacity = some c) :
    ∃ j, c = capacity * 2 ^ j ∧ entries ≤ loadLimit c ∧
      ∀ i < j, loadLimit (capacity * 2 ^ i) < entries := by
  induction doublings generalizing capacity with
  | zero => simp [doubleUntil] at h
  | succ doublings ih =>
    rw [doubleUntil] at h
    split_ifs at h with hlt
    · cases hd : checked (capacity * 2) with
      | none => simp [hd] at h
      | some doubled =>
        obtain ⟨-, rfl⟩ := checked_eq_some_iff.1 hd
        simp only [hd] at h
        obtain ⟨j, hc, hroom, hleast⟩ := ih h
        refine ⟨j + 1, by rw [hc, Nat.pow_succ', Nat.mul_assoc], hroom, fun i hi => ?_⟩
        cases i with
        | zero => rwa [Nat.pow_zero, Nat.mul_one]
        | succ i => rw [Nat.pow_succ', ← Nat.mul_assoc]; exact hleast i (by omega)
    · obtain rfl := Option.some.inj h
      exact ⟨0, by rw [Nat.pow_zero, Nat.mul_one], Nat.le_of_not_lt hlt,
        fun i hi => absurd hi (Nat.not_lt_zero i)⟩

theorem grownCapacity_eq_some {entries current c : Nat} (h : grownCapacity entries current = some c) :
    ∃ j, c = max (current * 2) groupSize * 2 ^ j ∧ entries ≤ loadLimit c ∧
      ∀ i < j, loadLimit (max (current * 2) groupSize * 2 ^ i) < entries := by
  rw [grownCapacity] at h
  cases hd : checked (current * 2) with
  | none => simp [hd] at h
  | some doubled =>
    obtain ⟨-, rfl⟩ := checked_eq_some_iff.1 hd
    simp only [hd] at h
    exact doubleUntil_eq_some h

namespace Table

variable {σ : Type} (A : Allocator σ) (t : Table)

/-- The capacities that a reservation may choose: the present one, or doublings of it from one group
on. -/
def GrowthTarget (capacity : Nat) : Prop :=
  t.capacity ≠ 0 ∧ capacity = t.capacity ∨
    ∃ doublings, capacity = max (t.capacity * 2) groupSize * 2 ^ doublings

variable {t} in
theorem GrowthTarget.exists_groups {capacity : Nat} (h : t.GrowthTarget capacity)
    (ht : t.groups.size = 0 ∨ t.groups.size.isPowerOfTwo) :
    ∃ groups, groups.isPowerOfTwo ∧ capacity = groupSize * groups ∧ capacity / groupSize = groups := by
  have hdiv : ∀ n, groupSize * n / groupSize = n := fun n => Nat.mul_div_cancel_left n (by decide)
  rcases h with ⟨hne, rfl⟩ | ⟨doublings, rfl⟩
  · rcases ht with h0 | hpow
    · exact absurd (by rw [capacity, h0, Nat.mul_zero]) hne
    · exact ⟨t.groups.size, hpow, rfl, hdiv _⟩
  · rcases ht with h0 | ⟨k, hk⟩
    · refine ⟨2 ^ doublings, ⟨doublings, rfl⟩, ?_, ?_⟩
      · rw [capacity, h0]
        rfl
      · rw [capacity, h0]
        exact hdiv _
    · have hmax : max (t.capacity * 2) groupSize = groupSize * 2 ^ (k + 1) := by
        rw [capacity, hk, Nat.mul_assoc, ← Nat.pow_succ]
        exact Nat.max_eq_left (Nat.le_mul_of_pos_right _ (Nat.two_pow_pos _))
      refine ⟨2 ^ (k + 1) * 2 ^ doublings, ⟨k + 1 + doublings, (Nat.pow_add ..).symm⟩, ?_, ?_⟩
      · rw [hmax, Nat.mul_assoc]
      · rw [hmax, Nat.mul_assoc]
        exact hdiv _

/-- **A move fails and changes nothing, or puts the entries into a buffer that can exist.** -/
theorem moveTo_cases (capacity : Nat) (heap : σ) :
    (t.moveTo A capacity heap).result = .error .outOfMemory ∧ (t.moveTo A capacity heap).after = t ∨
      (t.moveTo A capacity heap).result = .ok () ∧
        (t.moveTo A capacity heap).after = (t.rehash (capacity / groupSize)).answer ∧
          ∃ block, t.geometry.bufferBlock (capacity / groupSize) = .ok block := by
  unfold moveTo
  split
  · rename_i error herror
    rw [Geometry.bufferBlock_eq_error herror]
    exact .inl ⟨rfl, rfl⟩
  · rename_i block hblock
    split
    · exact .inl ⟨rfl, rfl⟩
    · exact .inr ⟨rfl, rfl, block, hblock⟩

/-- The capacities to which a reservation moves the entries, and why: the entries fit into half the
limit, or they do not and the capacity is the first doubling with room. -/
inductive Regrowth (n : Nat) : Nat → Prop
  | same (h : t.count + n ≤ loadLimit t.capacity / 2) : Regrowth n t.capacity
  | doubled {j : Nat} (h : loadLimit t.capacity / 2 < t.count + n)
    (hroom : t.count + n ≤ loadLimit (max (t.capacity * 2) groupSize * 2 ^ j))
    (hbefore : ∀ i < j, loadLimit (max (t.capacity * 2) groupSize * 2 ^ i) < t.count + n) :
    Regrowth n (max (t.capacity * 2) groupSize * 2 ^ j)

variable {t} in
theorem Regrowth.target {n capacity : Nat} (h : t.Regrowth n capacity)
    (hload : t.count + t.tombstones ≤ loadLimit t.capacity)
    (hshort : loadLimit t.capacity < t.count + n + t.tombstones) :
    t.GrowthTarget capacity ∧ t.count + n ≤ loadLimit capacity := by
  cases h with
  | same hhalf =>
    refine ⟨.inl ⟨fun h0 => ?_, rfl⟩, by omega⟩
    have hzero : loadLimit t.capacity = 0 := by rw [h0]; rfl
    omega
  | doubled _ hroom => exact ⟨.inr ⟨_, rfl⟩, hroom⟩

/-- **A reservation fails at once, has room already, or moves the entries because there is none.** -/
theorem reserve_regrowth (n : Nat) (heap : σ) (hcap : t.capacity ≤ maxBlockSize) :
    t.reserve A n heap = .fail .outOfMemory t heap ∨
      t.reserve A n heap = ⟨.ok (), t, heap, .empty⟩ ∧
        t.count + n + t.tombstones ≤ loadLimit t.capacity ∨
      ∃ capacity, t.Regrowth n capacity ∧ loadLimit t.capacity < t.count + n + t.tombstones ∧
        t.reserve A n heap = t.moveTo A capacity heap := by
  rw [reserve]
  cases hneed : checked (t.count + n) with
  | none => exact .inl rfl
  | some needed =>
    obtain ⟨hword, rfl⟩ := checked_eq_some_iff.1 hneed
    have hlimit := loadLimit_le t.capacity
    have hsat : saturating (t.count + n + t.tombstones) ≤ loadLimit t.capacity ↔
        t.count + n + t.tombstones ≤ loadLimit t.capacity := by
      unfold saturating wordBound
      unfold maxBlockSize at hcap
      omega
    simp only [hsat]
    split_ifs with hroom hhalf
    · exact .inr (.inl ⟨rfl, hroom.2⟩)
    · exact .inr (.inr ⟨_, .same hhalf, by omega, rfl⟩)
    · cases hgrown : grownCapacity (t.count + n) t.capacity with
      | none => exact .inl rfl
      | some capacity =>
        obtain ⟨j, rfl, hle, hbefore⟩ := grownCapacity_eq_some hgrown
        exact .inr (.inr ⟨_, .doubled (Nat.lt_of_not_le hhalf) hle hbefore, by omega, rfl⟩)

theorem reserve_cases (n : Nat) (heap : σ) (hcap : t.capacity ≤ maxBlockSize)
    (hload : t.count + t.tombstones ≤ loadLimit t.capacity) :
    t.reserve A n heap = .fail .outOfMemory t heap ∨
      t.reserve A n heap = ⟨.ok (), t, heap, .empty⟩ ∧
        t.count + n + t.tombstones ≤ loadLimit t.capacity ∨
      ∃ capacity, t.GrowthTarget capacity ∧ t.count + n ≤ loadLimit capacity ∧
        t.reserve A n heap = t.moveTo A capacity heap := by
  rcases t.reserve_regrowth A n heap hcap with h | h | ⟨capacity, hgrowth, hshort, h⟩
  · exact .inl h
  · exact .inr (.inl h)
  · obtain ⟨htarget, hroom⟩ := hgrowth.target hload hshort
    exact .inr (.inr ⟨capacity, htarget, hroom, h⟩)

end Table

end TagTable
