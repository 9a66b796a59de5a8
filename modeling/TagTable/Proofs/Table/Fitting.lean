import Mathlib.Order.Bounds.Basic
import TagTable.Proofs.Table.Update

/-!
# Fitting capacities

The least capacity for a number of entries, and when a reservation finds it.

* `FittingCapacity`, `FittingCapacity.unique`, `FittingCapacity.max`: the least capacity;
* `fittingCapacity_grownCapacity`: the search for a capacity finds it;
* **`Table.reserve_fitting`**: so does a reservation in a table without tombstones.
-/

namespace TagTable

/-- The capacity that is just enough for a number of entries: nothing for none, and else the least
power of two, from one group on, of which seven tenths are no fewer. -/
def FittingCapacity (entries capacity : Nat) : Prop :=
  entries = 0 ∧ capacity = 0 ∨
    entries ≠ 0 ∧ IsLeast {c | c.isPowerOfTwo ∧ groupSize ≤ c ∧ entries ≤ loadLimit c} capacity

namespace FittingCapacity

variable {m n c d : Nat}

theorem unique (hc : FittingCapacity n c) (hd : FittingCapacity n d) : c = d := by
  rcases hc with ⟨h0, rfl⟩ | ⟨hn, hc⟩
  · rcases hd with ⟨-, rfl⟩ | ⟨hn, -⟩
    · rfl
    · exact absurd h0 hn
  · rcases hd with ⟨h0, -⟩ | ⟨-, hd⟩
    · exact absurd h0 hn
    · exact hc.unique hd

theorem le_loadLimit (hc : FittingCapacity n c) : n ≤ loadLimit c := by
  rcases hc with ⟨rfl, -⟩ | ⟨-, hc⟩
  · exact Nat.zero_le _
  · exact hc.1.2.2

theorem max (hc : FittingCapacity m c) (hn : n ≤ loadLimit c) : FittingCapacity (max m n) c := by
  rcases Nat.le_total n m with hle | hle
  · rwa [Nat.max_eq_left hle]
  · rw [Nat.max_eq_right hle]
    rcases hc with ⟨rfl, rfl⟩ | ⟨hm, hleast⟩
    · exact .inl ⟨Nat.le_zero.1 hn, rfl⟩
    · exact .inr ⟨by omega, ⟨hleast.1.1, hleast.1.2.1, hn⟩, fun d hd =>
        hleast.2 ⟨hd.1, hd.2.1, hle.trans hd.2.2⟩⟩

end FittingCapacity

theorem two_mul_le_of_isPowerOfTwo {c d : Nat} (hc : c.isPowerOfTwo) (hd : d.isPowerOfTwo)
    (h : c < d) : c * 2 ≤ d := by
  obtain ⟨j, rfl⟩ := hc
  obtain ⟨k, rfl⟩ := hd
  rw [← Nat.pow_succ]
  exact Nat.pow_le_pow_right (by decide) ((Nat.pow_lt_pow_iff_right (by decide)).1 h)

/-- **The search for a capacity finds the one that fits**, if the present one is too small. -/
theorem fittingCapacity_grownCapacity {n current c : Nat}
    (hcurrent : current = 0 ∨ groupSize ≤ current ∧ current.isPowerOfTwo)
    (hsmall : loadLimit current < n) (h : grownCapacity n current = some c) :
    FittingCapacity n c := by
  obtain ⟨j, rfl, hroom, hbefore⟩ := grownCapacity_eq_some h
  have hstart : (max (current * 2) groupSize).isPowerOfTwo := by
    rcases hcurrent with rfl | ⟨hle, hpow⟩
    · exact ⟨4, rfl⟩
    · rw [Nat.max_eq_left (by omega)]
      exact Nat.isPowerOfTwo_mul_two_of_isPowerOfTwo hpow
  have hpow : ∀ i, (max (current * 2) groupSize * 2 ^ i).isPowerOfTwo := by
    intro i
    obtain ⟨k, hk⟩ := hstart
    exact ⟨k + i, by rw [hk, Nat.pow_add]⟩
  refine .inr ⟨by omega, ⟨hpow j, ?_, hroom⟩, fun d ⟨hd, hgroup, hd'⟩ => ?_⟩
  · exact (Nat.le_max_right ..).trans (Nat.le_mul_of_pos_right _ (Nat.two_pow_pos j))
  · -- Whatever is smaller is at most half of what was found, which had been tried before.
    by_contra hlt
    have hhalf := two_mul_le_of_isPowerOfTwo hd (hpow j) (Nat.lt_of_not_le hlt)
    cases j with
    | zero =>
      rw [Nat.pow_zero, Nat.mul_one] at hlt hhalf
      rcases hcurrent with rfl | ⟨hle, -⟩
      · exact hlt hgroup
      · have := loadLimit_mono (show d ≤ current by omega)
        omega
    | succ j =>
      rw [Nat.pow_succ, ← Nat.mul_assoc] at hhalf
      have := loadLimit_mono (show d ≤ max (current * 2) groupSize * 2 ^ j by omega)
      have := hbefore j (by omega)
      omega

/-- **A reservation in a table without tombstones leaves the capacity that fits.** -/
theorem Table.reserve_fitting {σ : Type} (A : Allocator σ) {t : Table} (hi : t.Invariant)
    (h0 : t.tombstones = 0) {k n : Nat} (hk : FittingCapacity k t.capacity) {heap : σ}
    (hok : (t.reserve A n heap).result = .ok ()) :
    (t.reserve A n heap).after.tombstones = 0 ∧
      FittingCapacity (max k (t.count + n)) (t.reserve A n heap).after.capacity := by
  rw [reserve] at hok ⊢
  cases hneed : checked (t.count + n) with
  | none => simp [hneed, Outcome.fail] at hok
  | some needed =>
    obtain ⟨-, rfl⟩ := checked_eq_some_iff.1 hneed
    rw [hneed] at hok
    dsimp only at hok ⊢
    have hsat : saturating (t.count + n + t.tombstones) ≤ t.count + n := by
      rw [h0]
      exact Nat.min_le_left ..
    split_ifs at hok ⊢ with hroom hhalf
    · exact ⟨h0, hk.max hroom.1⟩
    · exact absurd ⟨by omega, by omega⟩ hroom
    · cases hgrown : grownCapacity (t.count + n) t.capacity with
      | none => simp [hgrown, Outcome.fail] at hok
      | some capacity =>
        rw [hgrown] at hok
        dsimp only at hok ⊢
        have hsmall : loadLimit t.capacity < t.count + n := by omega
        have hmax : max k (t.count + n) = t.count + n :=
          Nat.max_eq_right (hk.le_loadLimit.trans hsmall.le)
        obtain ⟨j, hc, -⟩ := grownCapacity_eq_some hgrown
        rcases moveTo_spec A hi (.inr ⟨j, hc⟩) heap with ⟨hfail, -⟩ | ⟨-, -, hcap, htomb⟩
        · rw [hok] at hfail
          exact absurd hfail (by simp)
        · rw [hcap, hmax]
          exact ⟨htomb, fittingCapacity_grownCapacity (hi.capacity.imp And.left id) hsmall hgrown⟩

end TagTable
