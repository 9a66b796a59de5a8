import Mathlib.Data.List.FinRange
import Mathlib.Tactic.Common
import TagTable.Slots.Group

/-!
# Scans of a group

The bit operations on sets of slots against lists of slot indices.

* `testBit_pred`: subtracting one flips the lowest set bit and those below it;
* `SlotSet.contains_clearLowest`, **`SlotSet.toList_eq_filter`**, `SlotSet.toList_of_next`: stepping
  through a set yields its slots, lowest first; `SlotSet.toList_clearLowest`;
* `SlotSet.count_eq_length`: the number of slots in a set;
* **`TagRow.contains_slotsWith`**: a scan finds the slots whose tag is the target;
* `Group.mem_live`, `Group.live_eq_filter`, `TagRow.lowest_vacant_eq_some`: scans of a group.
-/

namespace TagTable

/-- **Subtracting one flips the lowest set bit, at `k`, and those below it.** -/
theorem testBit_pred {n k : Nat} (hk : n.testBit k = true) (hlow : ∀ j < k, n.testBit j = false)
    (j : Nat) : (n - 1).testBit j = (decide (j < k) || decide (k < j) && n.testBit j) := by
  -- On the place of the lowest set bit: an even number loses its last bit and borrows from the rest.
  induction k generalizing n j with
  | zero =>
    have hodd : n % 2 = 1 := by simpa [Nat.testBit_zero] using hk
    cases j with
    | zero => simp [Nat.testBit_zero]; omega
    | succ j => rw [Nat.testBit_add_one, Nat.testBit_add_one, show (n - 1) / 2 = n / 2 by omega]; simp
  | succ k ih =>
    have heven : n % 2 = 0 := by simpa [Nat.testBit_zero] using hlow 0 (Nat.succ_pos k)
    rw [Nat.testBit_add_one] at hk
    have hpos : n / 2 ≠ 0 := fun h0 => by simp [h0] at hk
    cases j with
    | zero => simp [Nat.testBit_zero]; omega
    | succ j =>
      have h := ih hk (fun i hi => by rw [← Nat.testBit_add_one]; exact hlow (i + 1) (by omega)) j
      rw [Nat.testBit_add_one, Nat.testBit_add_one, show (n - 1) / 2 = n / 2 - 1 by omega, h]
      simp

namespace SlotSet

variable {s : SlotSet} {i : SlotIndex}

theorem contains_eq_testBit (s : SlotSet) (i : SlotIndex) :
    s.contains i = s.bits.toNat.testBit i := by
  rw [contains, BitVec.getLsbD, UInt16.toNat_toBitVec]

@[simp] theorem contains_none (i : SlotIndex) : none.contains i = false := by
  simp [contains, none]

theorem ext_contains {s t : SlotSet} (h : ∀ i, s.contains i = t.contains i) : s = t := by
  have hb : s.bits = t.bits := by
    apply UInt16.toBitVec_inj.1
    apply BitVec.eq_of_getLsbD_eq
    intro i hi
    exact h ⟨i, hi⟩
  cases s
  cases t
  exact congrArg SlotSet.mk hb

theorem lowest_eq_some : s.lowest = some i ↔ s.contains i = true ∧ ∀ j < i, s.contains j = false := by
  rw [lowest, List.find?_eq_some_iff_getElem]
  constructor
  · rintro ⟨hi, k, hk, rfl, hbefore⟩
    refine ⟨hi, fun j hj => ?_⟩
    have hjk : (j : Nat) < k := by simpa [Fin.lt_def] using hj
    simpa using hbefore j hjk
  · rintro ⟨hi, hbefore⟩
    refine ⟨hi, i, by simp, by simp, fun j hj => ?_⟩
    simpa using hbefore ⟨j, by omega⟩ hj

theorem lowest_eq_none : s.lowest = Option.none ↔ ∀ i, s.contains i = false := by
  simp [lowest]

/-- **Clearing the lowest slot keeps all others.** -/
theorem contains_clearLowest (h : s.lowest = some i) (j : SlotIndex) :
    s.clearLowest.contains j = (s.contains j && decide (j ≠ i)) := by
  obtain ⟨hi, hlow⟩ := lowest_eq_some.1 h
  rw [contains_eq_testBit] at hi
  have hlow' : ∀ k < (i : Nat), s.bits.toNat.testBit k = false := fun k hk => by
    rw [← hlow ⟨k, by omega⟩ hk, contains_eq_testBit]
  have hne : s.bits.toNat ≠ 0 := fun h0 => by simp [h0] at hi
  have hone : (1 : UInt16) ≤ s.bits := UInt16.le_iff_toNat_le.2 (Nat.pos_of_ne_zero hne)
  rw [contains_eq_testBit, contains_eq_testBit, clearLowest, UInt16.toNat_and, Nat.testBit_and,
    UInt16.toNat_sub_of_le _ _ hone, UInt16.toNat_one, testBit_pred hi hlow']
  rcases lt_trichotomy j i with hj | rfl | hj
  · simp [hlow' j hj]
  · simp
  · simp [hj, hj.not_gt, hj.ne']

theorem filter_contains_cons (h : s.lowest = some i) :
    (List.finRange 16).filter s.contains = i :: (List.finRange 16).filter s.clearLowest.contains := by
  obtain ⟨hi, as, bs, hl, has⟩ := List.find?_eq_some_iff_append.1 h
  have hnd : (as ++ i :: bs).Nodup := hl ▸ List.nodup_finRange 16
  have hib : i ∉ bs := (List.nodup_cons.1 (List.nodup_append.1 hnd).2.1).1
  have ha : ∀ p : SlotIndex → Bool, (∀ j ∈ as, p j = false) → as.filter p = [] := fun p hp =>
    List.filter_eq_nil_iff.2 fun j hj => by simp [hp j hj]
  have hb : bs.filter s.clearLowest.contains = bs.filter s.contains := by
    refine List.filter_congr fun j hj => ?_
    have hji : j ≠ i := fun e => hib (e ▸ hj)
    rw [contains_clearLowest h, decide_eq_true hji, Bool.and_true]
  rw [hl, List.filter_append, List.filter_append, List.filter_cons_of_pos hi,
    List.filter_cons_of_neg (by simp [contains_clearLowest h]), hb, ha _ (by simpa using has),
    ha _ (fun j hj => by rw [contains_clearLowest h, show s.contains j = false by simpa using has j hj,
      Bool.false_and]), List.nil_append, List.nil_append]

theorem walk_eq_filter (steps : Nat) (s : SlotSet)
    (h : ((List.finRange 16).filter s.contains).length ≤ steps) :
    walk steps s = (List.finRange 16).filter s.contains := by
  induction steps generalizing s with
  | zero => rw [List.length_eq_zero_iff.1 (Nat.le_zero.1 h), walk]
  | succ steps ih =>
    rw [walk, next]
    cases hlow : s.lowest with
    | none => simp [lowest_eq_none.1 hlow]
    | some i =>
      rw [filter_contains_cons hlow, List.length_cons] at h
      rw [filter_contains_cons hlow]
      exact congrArg (i :: ·) (ih s.clearLowest (by omega))

/-- **Stepping through a set of slots yields its slots, lowest first.** -/
theorem toList_eq_filter (s : SlotSet) : s.toList = (List.finRange 16).filter s.contains := by
  refine walk_eq_filter 16 s ?_
  simpa using List.length_filter_le s.contains (List.finRange 16)

theorem mem_toList : i ∈ s.toList ↔ s.contains i = true := by
  simp [toList_eq_filter]

theorem next_eq_none : s.next = Option.none ↔ s.toList = [] := by
  rw [next, Option.map_eq_none_iff, lowest_eq_none, toList_eq_filter, List.filter_eq_nil_iff]
  simp

theorem toList_of_next {rest : SlotSet} (h : s.next = some (i, rest)) :
    s.toList = i :: rest.toList := by
  rw [next, Option.map_eq_some_iff] at h
  obtain ⟨j, hlow, hj⟩ := h
  obtain ⟨rfl, rfl⟩ := Prod.mk.inj hj
  rw [toList_eq_filter, toList_eq_filter, filter_contains_cons hlow]

theorem count_eq_length (s : SlotSet) : s.count = s.toList.length := by
  rw [toList_eq_filter, count, List.countP_eq_length_filter]

theorem toList_clearLowest (s : SlotSet) : s.clearLowest.toList = s.toList.tail := by
  cases hlow : s.lowest with
  | some i =>
    have hnext : s.next = some (i, s.clearLowest) := by rw [next, hlow, Option.map_some]
    rw [toList_of_next hnext, List.tail_cons]
  | none =>
    have hempty := lowest_eq_none.1 hlow
    have hclear : s.clearLowest.toList = [] := List.eq_nil_iff_forall_not_mem.2 fun i hi => by
      have hboth : (s.inter ⟨s.bits - 1⟩).contains i = true := mem_toList.1 hi
      rw [contains_inter, hempty, Bool.false_and] at hboth
      exact Bool.false_ne_true hboth
    have hnil : s.toList = [] := next_eq_none.1 (by rw [next, hlow, Option.map_none])
    rw [hclear, hnil, List.tail_nil]

theorem any_eq_false : s.any = false ↔ s.toList = [] := by
  rw [toList_eq_filter, List.filter_eq_nil_iff, any, bne_eq_false_iff_eq]
  constructor
  · intro h i _
    simp [contains, h]
  · intro h
    have hnone : s = none := ext_contains fun i => by
      rw [contains_none, Bool.eq_false_iff]
      exact h i (List.mem_finRange i)
    rw [hnone]
    rfl

theorem nodup_toList (s : SlotSet) : s.toList.Nodup := by
  rw [toList_eq_filter]
  exact (List.nodup_finRange 16).filter _

end SlotSet

namespace TagRow

variable {r : TagRow} {i : SlotIndex}

theorem slotsWith_eq_slotsWithSerial (r : TagRow) (byte : UInt8) :
    r.slotsWith byte = r.slotsWithSerial byte := by
  rw [slotsWith, slotsWithSerial, gatherTopBits]
  congr 2
  funext bits i
  have hlane : (r.compareLanes byte)[i] = if r.bytes[i] = byte then 0xff else 0 := by
    simp [compareLanes]
  rw [hlane]
  split_ifs
  · rfl
  · simp

theorem shift_one_getLsbD (i j : SlotIndex) :
    ((1 : UInt16) <<< UInt16.ofNat i.val).toBitVec.getLsbD j = decide (i = j) := by
  revert i j
  decide +kernel

theorem contains_gather (r : TagRow) (byte : UInt8) (l : List SlotIndex) (bits : UInt16)
    (j : SlotIndex) :
    (l.foldl (fun bits (i : SlotIndex) =>
      if r.bytes[i] = byte then bits ||| (1 <<< UInt16.ofNat i.val) else bits) bits).toBitVec.getLsbD j
      = (bits.toBitVec.getLsbD j || decide (j ∈ l ∧ r.bytes[j] = byte)) := by
  induction l generalizing bits with
  | nil => simp
  | cons i l ih =>
    rw [List.foldl_cons, ih]
    by_cases hi : r.bytes[i] = byte
    · rw [if_pos hi, UInt16.toBitVec_or, BitVec.getLsbD_or, shift_one_getLsbD]
      by_cases hij : j = i
      · subst hij
        simp [hi]
      · simp [hij, Ne.symm hij]
    · rw [if_neg hi]
      by_cases hij : j = i
      · subst hij
        simp [show ¬ r.bytes[(j : Nat)] = byte from hi]
      · simp [hij]

/-- **A scan finds exactly the slots whose tag is the target.** -/
@[simp] theorem contains_slotsWith (r : TagRow) (byte : UInt8) (i : SlotIndex) :
    (r.slotsWith byte).contains i = decide (r.bytes[i] = byte) := by
  rw [slotsWith_eq_slotsWithSerial, slotsWithSerial, SlotSet.contains, contains_gather]
  simp

theorem mem_slotsWith {byte : UInt8} : i ∈ (r.slotsWith byte).toList ↔ r.bytes[i] = byte := by
  simp [SlotSet.mem_toList]

@[simp] theorem not_two_le_empty : ¬ 2 ≤ Tag.empty := by decide

@[simp] theorem not_two_le_tombstone : ¬ 2 ≤ Tag.tombstone := by decide

@[simp] theorem tombstone_ne_empty : Tag.tombstone ≠ Tag.empty := by decide

theorem two_le_iff (b : UInt8) : 2 ≤ b ↔ b ≠ Tag.empty ∧ b ≠ Tag.tombstone := by
  rw [Tag.empty, Tag.tombstone, Ne, Ne, ← UInt8.toNat_inj, ← UInt8.toNat_inj,
    UInt8.le_iff_toNat_le]
  change 2 ≤ b.toNat ↔ b.toNat ≠ 0 ∧ b.toNat ≠ 1
  omega

@[simp] theorem contains_live (r : TagRow) (i : SlotIndex) :
    r.live.contains i = decide (2 ≤ r.bytes[i]) := by
  simp only [live, vacant, buried, SlotSet.contains_compl, SlotSet.contains_union,
    contains_slotsWith, two_le_iff, Bool.not_or, Bool.decide_and, decide_not]

theorem mem_live : i ∈ r.live.toList ↔ 2 ≤ r.bytes[i] := by
  rw [SlotSet.mem_toList, contains_live, decide_eq_true_iff]

theorem lowest_vacant_eq_some : r.vacant.lowest = some i ↔
    r.bytes[i] = Tag.empty ∧ ∀ j < i, r.bytes[j] ≠ Tag.empty := by
  simp [SlotSet.lowest_eq_some, vacant]

theorem lowest_vacant_eq_none : r.vacant.lowest = none ↔ ∀ i : SlotIndex, r.bytes[i] ≠ Tag.empty := by
  simp [SlotSet.lowest_eq_none, vacant]

end TagRow

namespace Group

variable {g : Group} {i : SlotIndex}

theorem live_eq_filter (g : Group) :
    g.live = (List.finRange 16).filter fun i : SlotIndex => decide (2 ≤ g.tags.bytes[i]) := by
  rw [live, SlotSet.toList_eq_filter]
  exact List.filter_congr fun i _ => TagRow.contains_live g.tags i

theorem mem_live : i ∈ g.live ↔ 2 ≤ g.tags.bytes[i] := by
  rw [live, TagRow.mem_live]

theorem nodup_live (g : Group) : g.live.Nodup := g.tags.live.nodup_toList

end Group

end TagTable
