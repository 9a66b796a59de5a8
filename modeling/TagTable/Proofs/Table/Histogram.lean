import TagTable.Proofs.Table.ProbeLength
import TagTable.Proofs.Table.SlotOrder

/-!
# The histogram of probe lengths

* `binCounts`: items put into the bins of a histogram one after the other;
* **`getD_binCounts`**, `sum_binCounts`, **`lt_length_binCounts`**: what is in the bins, and how many
  there are;
* `Table.homeAt`, `Table.Displaced`, `Table.probeLength_eq_iff`: entries that lie a number of groups
  after their home group;
* `Table.Histogram`, **`Table.histogram_probeLengths`**: the histogram of a table counts its entries by
  that number.
-/

namespace TagTable

/-! ## Histograms -/

/-- The histogram of items of which the bins are given. -/
def binCounts (items : List Nat) : List Nat := items.foldl bump []

theorem getD_foldl_bump (items bins : List Nat) (d : Nat) :
    (items.foldl bump bins).getD d 0 = bins.getD d 0 + items.count d := by
  induction items generalizing bins with
  | nil => rfl
  | cons x items ih =>
    rw [List.foldl_cons, ih, getD_bump, List.count_cons, Nat.add_assoc, Nat.add_comm (ite _ _ _)]
    simp only [beq_iff_eq, eq_comm (a := d)]

/-- **A bin counts the items that belong to it.** -/
theorem getD_binCounts (items : List Nat) (d : Nat) : (binCounts items).getD d 0 = items.count d :=
  (getD_foldl_bump items [] d).trans (Nat.zero_add _)

theorem sum_modify_succ {bins : List Nat} {bin : Nat} (h : bin < bins.length) :
    (bins.modify bin (· + 1)).sum = bins.sum + 1 := by
  induction bins generalizing bin with
  | nil => exact absurd h (Nat.not_lt_zero _)
  | cons x bins ih =>
    cases bin with
    | zero => simp only [List.modify_zero_cons, List.sum_cons]; omega
    | succ bin =>
      rw [List.modify_succ_cons, List.sum_cons, ih (Nat.lt_of_succ_lt_succ h), List.sum_cons,
        Nat.add_assoc]

theorem sum_bump (bins : List Nat) (bin : Nat) : (bump bins bin).sum = bins.sum + 1 := by
  rw [bump, sum_modify_succ]
  · simp
  · rw [List.length_append, List.length_replicate]
    omega

theorem sum_foldl_bump (items bins : List Nat) :
    (items.foldl bump bins).sum = bins.sum + items.length := by
  induction items generalizing bins with
  | nil => rfl
  | cons x items ih => rw [List.foldl_cons, ih, sum_bump, List.length_cons]; omega

theorem sum_binCounts (items : List Nat) : (binCounts items).sum = items.length :=
  (sum_foldl_bump items []).trans (Nat.zero_add _)

theorem lt_length_foldl_bump (items bins : List Nat) (k : Nat) :
    k < (items.foldl bump bins).length ↔ k < bins.length ∨ ∃ x ∈ items, k ≤ x := by
  induction items generalizing bins with
  | nil => simp
  | cons x items ih =>
    rw [List.foldl_cons, ih, length_bump, lt_max_iff, Nat.lt_succ_iff, or_assoc]
    simp

theorem lt_length_binCounts (items : List Nat) (k : Nat) :
    k < (binCounts items).length ↔ ∃ x ∈ items, k ≤ x := by
  rw [binCounts, lt_length_foldl_bump]
  simp

theorem binCounts_eq_nil {items : List Nat} : binCounts items = [] ↔ items = [] := by
  refine ⟨fun h => ?_, fun h => congrArg binCounts h⟩
  cases items with
  | nil => rfl
  | cons x items =>
    have hlt := (lt_length_binCounts (x :: items) 0).2 ⟨x, List.mem_cons_self .., Nat.zero_le x⟩
    rw [h] at hlt
    exact absurd hlt (Nat.lt_irrefl 0)

theorem length_binCounts_le {items : List Nat} {n : Nat} (h : ∀ x ∈ items, x < n) :
    (binCounts items).length ≤ n := by
  by_contra hlt
  obtain ⟨x, hx, hle⟩ := (lt_length_binCounts items n).1 (Nat.lt_of_not_le hlt)
  exact absurd (h x hx) (Nat.not_lt.2 hle)

theorem getLast_binCounts_ne_zero {items : List Nat} (h : binCounts items ≠ []) :
    (binCounts items).getLast h ≠ 0 := by
  have hpos := List.length_pos_iff.2 h
  -- Some item has a bin that is no earlier than the last one, and every item has a bin.
  obtain ⟨x, hx, hle⟩ := (lt_length_binCounts items ((binCounts items).length - 1)).1 (by omega)
  have hlt := (lt_length_binCounts items x).2 ⟨x, hx, le_rfl⟩
  obtain rfl : x = (binCounts items).length - 1 := by omega
  rw [List.getLast_eq_getElem, ← List.getD_eq_getElem _ 0, getD_binCounts]
  exact (List.count_pos_iff.2 hx).ne'

/-! ## Entries and their home groups -/

namespace Table

/-- The home group of the key that is stored at a slot. -/
def homeAt (t : Table) (p : Position) : Nat :=
  homeGroup t.groups.size (t.strategy.hash (t.entryAt p).key)

/-- The slot is in the group that is reached from the home group of its key after `d` steps, in less than
a full turn. -/
def Displaced (t : Table) (d : Nat) (p : Position) : Prop :=
  d < t.groups.size ∧ (t.homeAt p + d) % t.groups.size = p.group

instance (t : Table) (d : Nat) : DecidablePred (t.Displaced d) := fun _ => by
  unfold Displaced
  infer_instance

variable {t : Table}

theorem entriesByGroup_eq_map_slots (t : Table) :
    t.entriesByGroup = t.slots.map fun p => (p.group, t.entryAt p) := by
  rw [entriesByGroup, slots, positions, List.filter_flatMap, List.map_flatMap]
  congr 1
  funext g
  rw [Group.entries, Group.live_eq_filter, List.filter_map, List.map_map, List.map_map]
  rfl

/-- **The probe length of an entry is the number of steps from its home group to its group.** -/
theorem probeLength_eq_iff (hi : t.Invariant) {p : Position} (hp : 2 ≤ t.tagAt p) (d : Nat) :
    probeLength t.groups.size p.group (t.strategy.hash (t.entryAt p).key) = d ↔ t.Displaced d p := by
  have hg : p.group < t.groups.size := group_lt_of_two_le hp
  have hpow := hi.size_isPowerOfTwo hg
  have hhome : t.homeAt p < t.groups.size := homeGroup_lt hpow _
  rw [hi.probeLength_eq hg, ← homeGroup_eq_mod hpow]
  constructor
  · rintro rfl
    exact ⟨distance_lt hhome hg, add_distance_mod hhome hg⟩
  · rintro ⟨hd, hgroup⟩
    rw [← hgroup]
    exact distance_add_mod hhome hd

/-- A histogram counts the entries of a table by their distances from their home groups. -/
structure Histogram (t : Table) (bins : List Nat) : Prop where
  sum : bins.sum = t.count
  nil : bins = [] ↔ t.count = 0
  last : ∀ h : bins ≠ [], bins.getLast h ≠ 0
  length : bins.length ≤ t.groups.size
  /-- Every entry has a bin. -/
  entry : ∀ p ∈ t.slots, ∃ d < bins.length, t.Displaced d p
  bin : ∀ d, bins.getD d 0 = t.slots.countP (t.Displaced d)

theorem probeLengths_eq_binCounts (t : Table) : t.probeLengths.answer = binCounts (t.slots.map fun p =>
    probeLength t.groups.size p.group (t.strategy.hash (t.entryAt p).key)) := by
  rw [probeLengths, entriesByGroup_eq_map_slots, binCounts, List.foldl_map, List.foldl_map]

/-- **The probe lengths of a table are the distances of its entries.** -/
theorem histogram_probeLengths (hi : t.Invariant) : t.Histogram t.probeLengths.answer := by
  have hcount : t.slots.length = t.count := by
    rw [hi.count_eq_length, entries_eq_map_slots, List.length_map]
  rw [probeLengths_eq_binCounts]
  refine
    { sum := by rw [sum_binCounts, List.length_map, hcount]
      nil := by rw [binCounts_eq_nil, List.map_eq_nil_iff, ← List.length_eq_zero_iff, hcount]
      last := getLast_binCounts_ne_zero
      length := length_binCounts_le fun x hx => ?_
      entry := fun p hp => ⟨_, ?_, (probeLength_eq_iff hi ((t.mem_slots p).1 hp) _).1 rfl⟩
      bin := fun d => ?_ }
  · obtain ⟨p, hp, rfl⟩ := List.mem_map.1 hx
    exact ((probeLength_eq_iff hi ((t.mem_slots p).1 hp) _).1 rfl).1
  · exact (lt_length_binCounts _ _).2 ⟨_, List.mem_map_of_mem hp, le_rfl⟩
  · rw [getD_binCounts, List.count, List.countP_map]
    refine List.countP_congr fun p hp => ?_
    rw [Function.comp, beq_iff_eq, decide_eq_true_iff]
    exact probeLength_eq_iff hi ((t.mem_slots p).1 hp) d

end Table

end TagTable
