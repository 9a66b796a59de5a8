/-!
# Machine words

Sizes, offsets and counts are natural numbers. A computation that has to stay inside a 64-bit
word says so with `checked`, and one that stops at the largest word with `saturating`.

* `wordBound`, `maxBlockSize`, `checked`, `saturating`;
* `nextMultiple`: rounding up to a multiple, the least one by `dvd_nextMultiple`, `le_nextMultiple`
  and `nextMultiple_le`;
* `trailingZeros`, `powerOfTwoIn`: the largest power of two that divides a size.
-/

namespace TagTable

/-- The number of 64-bit words. -/
def wordBound : Nat := 18446744073709551616

/-- The largest size of one block of memory, `2 ^ 63 - 1`. -/
def maxBlockSize : Nat := 9223372036854775807

/-- The number itself if it is a 64-bit word. -/
def checked (n : Nat) : Option Nat := if n < wordBound then some n else none

/-- The number itself, or the largest word. -/
def saturating (n : Nat) : Nat := min n (wordBound - 1)

/-- The least multiple of `m` that is at least `n`, for a positive `m`. -/
def nextMultiple (n m : Nat) : Nat := if n % m = 0 then n else n + (m - n % m)

theorem checked_eq_some_iff {n m : Nat} : checked n = some m ↔ n < wordBound ∧ n = m := by
  unfold checked
  split
  · simp_all
  · simp only [reduceCtorEq, false_iff]
    omega

theorem checked_eq_none_iff {n : Nat} : checked n = none ↔ wordBound ≤ n := by
  unfold checked
  split <;> simp_all

theorem le_nextMultiple {n m : Nat} : n ≤ nextMultiple n m := by
  unfold nextMultiple
  split <;> omega

theorem dvd_nextMultiple {n m : Nat} (hm : 0 < m) : m ∣ nextMultiple n m := by
  unfold nextMultiple
  split
  · exact Nat.dvd_of_mod_eq_zero ‹_›
  · have hlt := Nat.mod_lt n hm
    have hn := Nat.div_add_mod n m
    refine ⟨n / m + 1, ?_⟩
    rw [Nat.mul_add, Nat.mul_one]
    omega

theorem nextMultiple_le {n m k : Nat} (hk : n ≤ k) (hd : m ∣ k) : nextMultiple n m ≤ k := by
  unfold nextMultiple
  split
  · exact hk
  · rename_i h
    obtain ⟨q, rfl⟩ := hd
    have hn := Nat.div_add_mod n m
    rcases Nat.lt_or_ge (n / m) q with hq | hq
    · have := Nat.mul_le_mul_left m (Nat.succ_le_of_lt hq)
      rw [Nat.mul_succ] at this
      omega
    · have := Nat.mul_le_mul_left m hq
      omega

/-- The number of zero bits below the lowest set bit of the `width` low bits of `n`. -/
def trailingZeros (width n : Nat) : Nat := ((List.range width).find? n.testBit).getD width

/-- The largest power of two that divides the 64-bit word `n`. -/
def powerOfTwoIn (n : Nat) : Nat := 1 <<< trailingZeros 64 n

end TagTable
