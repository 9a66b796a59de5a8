import TagTable.Proofs.Slots.Scan

/-!
# Enumerations of slots

Steps through a set of slots one after the other, with the number of slots that each of them announces,
and what they find in a row of tags.

* `SlotSet.lowest_eq_ctz`, `SlotSet.count_eq_cpop`: the lowest slot by the zeros below it, and the number
  of slots by the bits that are set;
* `SlotSet.steps`, **`SlotSet.steps_eq`**: steps give the slots in order and then none, and announce how
  many are left;
* `SlotSet.Enumerates`: a set whose steps find the slots with a property; `SlotSet.enumerates`;
* `TagRow.perm_finRange`: each slot is in one of three scans;
* **`scans_enumerate_slots`**: the scans of a row of tags.
-/

namespace TagTable

namespace SlotSet

variable {s : SlotSet}

/-! ## The bits of a set -/

theorem lowest_eq_ctz (s : SlotSet) :
    s.lowest.map Fin.val = if s.bits = 0 then Option.none else some s.bits.toBitVec.ctz.toNat := by
  split_ifs with h0
  · have hempty : s.lowest = Option.none := lowest_eq_none.2 fun i => by simp [contains, h0]
    rw [hempty, Option.map_none]
  · have hne : s.bits.toBitVec ≠ 0#16 := fun h => h0 (UInt16.toBitVec_inj.1 h)
    have hlt : s.bits.toBitVec.ctz.toNat < 16 := BitVec.ctz_lt_iff_ne_zero.2 hne
    have hlow : s.lowest = some ⟨s.bits.toBitVec.ctz.toNat, hlt⟩ :=
      lowest_eq_some.2 ⟨BitVec.getLsbD_true_ctz_of_ne_zero hne,
        fun j hj => BitVec.getLsbD_false_of_lt_ctz hj⟩
    rw [hlow, Option.map_some]

theorem cpopNatRec_eq_countP {w : Nat} (x : BitVec w) (n acc : Nat) :
    x.cpopNatRec n acc = acc + (List.range n).countP x.getLsbD := by
  induction n generalizing acc with
  | zero => rfl
  | succ n ih =>
    rw [BitVec.cpopNatRec_succ, ih, List.range_succ, List.countP_append, List.countP_singleton]
    cases x.getLsbD n with
    | false => simp
    | true => simp; omega

theorem count_eq_cpop (s : SlotSet) : s.count = s.bits.toBitVec.cpop.toNat := by
  rw [BitVec.toNat_cpop, cpopNatRec_eq_countP, Nat.zero_add, ← List.map_coe_finRange_eq_range,
    List.countP_map]
  rfl

/-! ## Steps through a set -/

/-- What `n` steps one after the other announce and give. A step that finds no slot changes nothing. -/
def steps : Nat → SlotSet → List ((Nat × Option Nat) × Option SlotIndex)
  | 0, _ => []
  | n + 1, s =>
    match s.next with
    | some (i, rest) => (s.sizeHint, some i) :: steps n rest
    | Option.none => (s.sizeHint, Option.none) :: steps n s

/-- **Steps give the slots in order and then none, and each announces how many are left.** -/
theorem steps_eq (n : Nat) (s : SlotSet) :
    s.steps n = (List.range n).map fun k =>
      ((s.toList.length - k, some (s.toList.length - k)), s.toList[k]?) := by
  -- On the steps: one that finds a slot goes on with the tail of the list, any other with the same set.
  induction n generalizing s with
  | zero => rfl
  | succ n ih =>
    rw [steps, List.range_succ_eq_map, List.map_cons, List.map_map, sizeHint, count_eq_length]
    cases hnext : s.next with
    | none =>
      have hnil := next_eq_none.1 hnext
      simp [ih, hnil, Function.comp_def]
    | some p =>
      obtain ⟨i, rest⟩ := p
      have hcons := toList_of_next hnext
      simp [ih, hcons, Function.comp_def]

example : steps 3 ⟨0b100001⟩ =
    [((2, some 2), some 0), ((1, some 1), some 5), ((0, some 0), Option.none)] := by
  decide

/-- A set whose steps find the slots with a property: each of them once, the lowest first, and from then
on none, with the number of slots that are left announced before each step. -/
structure Enumerates (s : SlotSet) (p : SlotIndex → Prop) : Prop where
  listed : ∀ i, i ∈ s.toList ↔ p i
  ascending : s.toList.Pairwise (· < ·)
  lowest : s.lowest = s.toList.head?
  steps : ∀ n, s.steps n = (List.range n).map fun k =>
    ((s.toList.length - k, some (s.toList.length - k)), s.toList[k]?)

theorem enumerates {p : SlotIndex → Prop} (h : ∀ i, s.contains i = true ↔ p i) : s.Enumerates p where
  listed i := mem_toList.trans (h i)
  ascending := by
    rw [toList_eq_filter]
    exact (List.pairwise_lt_finRange 16).filter _
  lowest := by rw [toList_eq_filter, List.head?_filter, SlotSet.lowest]
  steps n := steps_eq n s

end SlotSet

namespace TagRow

theorem perm_finRange (r : TagRow) :
    (r.vacant.toList ++ r.buried.toList ++ r.live.toList).Perm (List.finRange 16) := by
  have hdisjoint : ∀ i ∈ r.vacant.toList, i ∉ r.buried.toList := fun i hi hi' =>
    tombstone_ne_empty ((mem_slotsWith.1 hi').symm.trans (mem_slotsWith.1 hi))
  have hmarkers : ∀ i ∈ r.vacant.toList ++ r.buried.toList, i ∉ r.live.toList := fun i hi hi' => by
    obtain ⟨hempty, htombstone⟩ := (two_le_iff _).1 (mem_live.1 hi')
    rcases List.mem_append.1 hi with hi | hi
    · exact hempty (mem_slotsWith.1 hi)
    · exact htombstone (mem_slotsWith.1 hi)
  have hnodup : (r.vacant.toList ++ r.buried.toList ++ r.live.toList).Nodup :=
    List.nodup_append'.2
      ⟨List.nodup_append'.2 ⟨r.vacant.nodup_toList, r.buried.nodup_toList, hdisjoint⟩,
        r.live.nodup_toList, hmarkers⟩
  refine (List.perm_ext_iff_of_nodup hnodup (List.nodup_finRange 16)).2 fun i => ?_
  refine iff_of_true ?_ (List.mem_finRange i)
  simp only [List.mem_append, mem_live, two_le_iff]
  by_cases hempty : r.bytes[i] = Tag.empty
  · exact .inl (.inl (mem_slotsWith.2 hempty))
  by_cases htombstone : r.bytes[i] = Tag.tombstone
  · exact .inl (.inr (mem_slotsWith.2 htombstone))
  · exact .inr ⟨hempty, htombstone⟩

end TagRow

/-- **The scans of a row of tags** for a byte, by lanes or one slot after the other, enumerate the slots
whose tag it is, and each slot is vacant, buried or live. -/
theorem scans_enumerate_slots (r : TagRow) :
    (∀ byte, r.slotsWithSerial byte = r.slotsWith byte ∧
      (r.slotsWith byte).Enumerates fun i => r.bytes[i] = byte) ∧
    (r.vacant.Enumerates fun i => r.bytes[i] = 0) ∧
    (r.buried.Enumerates fun i => r.bytes[i] = 1) ∧
    (r.live.Enumerates fun i => 2 ≤ r.bytes[i]) ∧
    (r.vacant.toList ++ r.buried.toList ++ r.live.toList).Perm (List.finRange 16) := by
  have hscan : ∀ byte, (r.slotsWith byte).Enumerates fun i => r.bytes[i] = byte := fun byte =>
    SlotSet.enumerates fun i => by rw [TagRow.contains_slotsWith, decide_eq_true_iff]
  refine ⟨fun byte => ⟨(r.slotsWith_eq_slotsWithSerial byte).symm, hscan byte⟩, hscan 0, hscan 1, ?_,
    r.perm_finRange⟩
  exact SlotSet.enumerates fun i => by rw [TagRow.contains_live, decide_eq_true_iff]

end TagTable
