import Mathlib.Algebra.Group.Nat.Defs
import Mathlib.Order.Bounds.Basic
import TagTable.Memory.Word

/-!
# Rounding and powers of two

* **`isLeast_nextMultiple`**, `nextMultiple_eq_self`: rounding up gives the least multiple;
* `two_pow_dvd_iff`, `trailingZeros_spec`: the powers of two that divide a number, off its bits;
* **`isGreatest_powerOfTwoIn`**: the largest power of two that divides a word;
* `isPowerOfTwo_max`, `dvd_of_isPowerOfTwo_of_le`: powers of two divide the larger ones.
-/

namespace TagTable

variable {n m k : Nat}

/-- **Rounding up gives the least multiple.** -/
theorem isLeast_nextMultiple (hm : 0 < m) : IsLeast {k | m ∣ k ∧ n ≤ k} (nextMultiple n m) :=
  ⟨⟨dvd_nextMultiple hm, le_nextMultiple⟩, fun _ h => nextMultiple_le h.2 h.1⟩

theorem nextMultiple_eq_self (h : m ∣ n) : nextMultiple n m = n :=
  if_pos (Nat.mod_eq_zero_of_dvd h)

/-! ## The powers of two that divide a number -/

theorem two_pow_dvd_iff : 2 ^ k ∣ n ↔ ∀ i < k, n.testBit i = false := by
  constructor
  · rintro ⟨q, rfl⟩ i hi
    rw [Nat.testBit_two_pow_mul, decide_eq_false (Nat.not_le.2 hi), Bool.false_and]
  · intro h
    refine Nat.dvd_of_mod_eq_zero (Nat.eq_of_testBit_eq fun i => ?_)
    rw [Nat.testBit_mod_two_pow, Nat.zero_testBit]
    by_cases hi : i < k
    · rw [h i hi, Bool.and_false]
    · rw [decide_eq_false hi, Bool.false_and]

theorem trailingZeros_spec {width : Nat} (h0 : 0 < n) (hn : n < 2 ^ width) :
    n.testBit (trailingZeros width n) = true ∧
      ∀ i < trailingZeros width n, n.testBit i = false := by
  obtain ⟨i, hi⟩ := Nat.exists_testBit_of_ne_zero h0.ne'
  have hlt : i < width := by
    by_contra hle
    have hpow := Nat.pow_le_pow_right (show 0 < 2 by decide) (Nat.le_of_not_lt hle)
    rw [Nat.testBit_lt_two_pow (Nat.lt_of_lt_of_le hn hpow)] at hi
    exact absurd hi Bool.false_ne_true
  rw [trailingZeros]
  cases hfind : (List.range width).find? n.testBit with
  | none => exact absurd hi (List.find?_eq_none.1 hfind i (List.mem_range.2 hlt))
  | some j =>
    obtain ⟨hj, -, hbelow⟩ := List.find?_range_eq_some.1 hfind
    exact ⟨hj, fun i hi => by simpa using hbelow i hi⟩

theorem powerOfTwoIn_eq (n : Nat) : powerOfTwoIn n = 2 ^ trailingZeros 64 n := by
  rw [powerOfTwoIn, Nat.shiftLeft_eq, Nat.one_mul]

theorem isPowerOfTwo_powerOfTwoIn (n : Nat) : (powerOfTwoIn n).isPowerOfTwo :=
  ⟨_, powerOfTwoIn_eq n⟩

/-- **The largest power of two that divides a word.** -/
theorem isGreatest_powerOfTwoIn (h0 : 0 < n) (hn : n < wordBound) :
    IsGreatest {q | q.isPowerOfTwo ∧ q ∣ n} (powerOfTwoIn n) := by
  obtain ⟨hset, hbelow⟩ := trailingZeros_spec h0 (show n < 2 ^ 64 from hn)
  refine ⟨⟨isPowerOfTwo_powerOfTwoIn n, powerOfTwoIn_eq n ▸ two_pow_dvd_iff.2 hbelow⟩, ?_⟩
  rintro _ ⟨⟨j, rfl⟩, hd⟩
  rw [powerOfTwoIn_eq]
  refine Nat.pow_le_pow_right (by decide) (Nat.le_of_not_lt fun hlt => ?_)
  rw [two_pow_dvd_iff.1 hd _ hlt] at hset
  exact Bool.false_ne_true hset

/-! ## Powers of two in order -/

theorem isPowerOfTwo_max (hn : n.isPowerOfTwo) (hm : m.isPowerOfTwo) : (max n m).isPowerOfTwo := by
  rcases Nat.le_total n m with h | h
  · rwa [Nat.max_eq_right h]
  · rwa [Nat.max_eq_left h]

theorem dvd_of_isPowerOfTwo_of_le (hn : n.isPowerOfTwo) (hm : m.isPowerOfTwo) (h : n ≤ m) :
    n ∣ m := by
  obtain ⟨a, rfl⟩ := hn
  obtain ⟨b, rfl⟩ := hm
  exact Nat.pow_dvd_pow 2 ((Nat.pow_le_pow_iff_right (by decide)).1 h)

end TagTable
