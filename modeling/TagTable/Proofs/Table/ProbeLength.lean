import Mathlib.Algebra.BigOperators.Group.Finset.Piecewise
import Mathlib.Data.List.GetD
import TagTable.Proofs.Table.Invariant
import TagTable.Proofs.Table.Parking
import TagTable.Table.ProbeLength

/-!
# Probe lengths as distances

The histogram of probe lengths, and the distances of the entries from their home groups.

* `probeLength_eq_distance`, `Table.Invariant.probeLength_eq`: the difference of words is a number of steps
  around the row;
* `weight`, `weight_bump`, `Table.totalProbeLength`: the sum of all probe lengths, from the histogram;
* `Table.seats`, **`Table.totalProbeLength_eq`**: and from the entries.
-/

namespace TagTable

theorem probeLength_eq_distance {n g : Nat} (hn : n.isPowerOfTwo) (hbound : n ≤ 2 ^ 64) (hg : g < n)
    (hash : UInt64) : probeLength n g hash = distance n (hash.toNat % n) g := by
  have hpos := Nat.pos_of_isPowerOfTwo hn
  obtain ⟨k, rfl⟩ := hn
  have hk : k ≤ 64 := (Nat.pow_le_pow_iff_right (by decide)).1 hbound
  have hword : (UInt64.ofNat g - hash).toNat % 2 ^ k = (2 ^ 64 - hash.toNat + g) % 2 ^ k := by
    rw [UInt64.toNat_sub, UInt64.toNat_ofNat_of_lt' (lt_of_lt_of_le hg hbound)]
    exact Nat.mod_mod_of_dvd _ (Nat.pow_dvd_pow 2 hk)
  rw [probeLength, Nat.and_two_pow_sub_one_eq_mod, hword]
  -- Both numbers differ from a multiple of the number of groups by the same.
  obtain ⟨m, hm⟩ : ∃ m, 2 ^ 64 = 2 ^ k * m := Nat.pow_dvd_pow 2 hk
  have hlt := hash.toNat_lt
  have hdiv := Nat.div_add_mod hash.toNat (2 ^ k)
  have hr := Nat.mod_lt hash.toNat hpos
  have hq : hash.toNat / 2 ^ k < m := Nat.div_lt_of_lt_mul (hm ▸ hlt)
  generalize hash.toNat % 2 ^ k = r at hdiv hr ⊢
  generalize hash.toNat / 2 ^ k = q at hdiv hq
  obtain ⟨j, rfl⟩ := Nat.exists_eq_add_of_lt hq
  rw [hm, show 2 ^ k * (q + j + 1) - hash.toNat + g = 2 ^ k * j + (2 ^ k - r + g) by
    rw [Nat.mul_add, Nat.mul_add]
    omega, Nat.mul_add_mod, distance]
  split_ifs with h
  · rw [show 2 ^ k - r + g = 2 ^ k + (g - r) by omega, Nat.add_mod_left, Nat.mod_eq_of_lt (by omega)]
  · rw [Nat.mod_eq_of_lt (by omega)]
    omega

/-! ## Histograms -/

theorem length_bump (bins : List Nat) (bin : Nat) :
    (bump bins bin).length = max bins.length (bin + 1) := by
  rw [bump, List.length_modify, List.length_append, List.length_replicate]
  omega

theorem getD_bump (bins : List Nat) (bin d : Nat) :
    (bump bins bin).getD d 0 = bins.getD d 0 + if d = bin then 1 else 0 := by
  have hpad : (bins ++ List.replicate (bin + 1 - bins.length) 0).getD d 0 = bins.getD d 0 := by
    rcases Nat.lt_or_ge d bins.length with h | h
    · exact List.getD_append _ _ _ _ h
    · rw [List.getD_append_right _ _ _ _ h, List.getD_eq_default _ _ h, List.getD_eq_getElem?_getD]
      exact List.getElem?_getD_replicate_default_eq _ _ _
  have hlen : bin < (bins ++ List.replicate (bin + 1 - bins.length) 0).length := by
    rw [List.length_append, List.length_replicate]
    omega
  rw [← hpad, bump, List.getD_eq_getElem?_getD, List.getElem?_modify, List.getD_eq_getElem?_getD]
  rcases eq_or_ne d bin with rfl | hne
  · rw [List.getElem?_eq_getElem hlen]
    simp
  · simp [hne, hne.symm]

/-- The sum of all items of a histogram, each counted with its bin. -/
def weight (bins : List Nat) : Nat := ∑ d ∈ Finset.range bins.length, d * bins.getD d 0

theorem weight_eq_sum {bins : List Nat} {m : Nat} (hm : bins.length ≤ m) :
    weight bins = ∑ d ∈ Finset.range m, d * bins.getD d 0 := by
  refine Finset.sum_subset (Finset.range_mono hm) fun d _ hd => ?_
  have hlen : bins.length ≤ d := Nat.le_of_not_lt fun h => hd (Finset.mem_range.2 h)
  rw [List.getD_eq_default _ _ hlen, Nat.mul_zero]

theorem weight_bump (bins : List Nat) (bin : Nat) : weight (bump bins bin) = weight bins + bin := by
  rw [weight_eq_sum (Nat.le_max_left bins.length (bin + 1)), weight, length_bump]
  simp only [getD_bump, Nat.mul_add, Finset.sum_add_distrib, mul_ite, mul_one, mul_zero,
    Finset.sum_ite_eq', Finset.mem_range]
  rw [if_pos (by omega)]

namespace Table

/-- The sum of all probe lengths. -/
def totalProbeLength (t : Table) : Nat := weight t.probeLengths.answer

/-- The home group of every entry and the group in which it is. -/
def seats (t : Table) : List Seat :=
  t.entriesByGroup.map fun (g, e) => ⟨(t.strategy.hash e.key).toNat % t.groups.size, g⟩

variable {t : Table}

theorem weight_foldl_bump {α : Type} (f : α → Nat) (l : List α) (bins : List Nat) :
    weight (l.foldl (fun bins x => bump bins (f x)) bins) = weight bins + (l.map f).sum := by
  induction l generalizing bins with
  | nil => rfl
  | cons x l ih => rw [List.foldl_cons, ih, weight_bump, List.map_cons, List.sum_cons, Nat.add_assoc]

theorem mem_entriesByGroup {g : Nat} {e : Entry} :
    (g, e) ∈ t.entriesByGroup ↔ g < t.groups.size ∧ e ∈ (t.groupAt g).entries := by
  simp [entriesByGroup]

theorem Invariant.probeLength_eq (hi : t.Invariant) {g : Nat} (hg : g < t.groups.size)
    (hash : UInt64) :
    probeLength t.groups.size g hash = distance t.groups.size (hash.toNat % t.groups.size) g := by
  have hcap := hi.capacity_le
  unfold Table.capacity groupSize maxBlockSize at hcap
  exact probeLength_eq_distance (hi.size_isPowerOfTwo hg) (by omega) hg hash

/-- **The histogram of probe lengths adds up to the distances of all entries.** -/
theorem totalProbeLength_eq (hi : t.Invariant) :
    t.totalProbeLength = distances t.groups.size t.seats := by
  rw [totalProbeLength, probeLengths, weight_foldl_bump, distances, seats, List.map_map]
  refine (Nat.zero_add _).trans (congrArg List.sum (List.map_congr_left fun x hx => ?_))
  exact hi.probeLength_eq (mem_entriesByGroup.1 (show (x.1, x.2) ∈ _ from hx)).1 _

end Table

end TagTable
