import Mathlib.Order.CompletePartialOrder
import Mathlib.Order.Interval.Set.Disjoint
import TagTable.Proofs.Memory.Alignment

/-!
# Parts of a buffer

The tags of a group and the key and the value of each of its slots lie one after another in memory,
each in bytes of its own, and all of their addresses are words.

* `Part`, `Part.rank`, `Geometry.start`, `Geometry.length`, `Geometry.span`: what lies where;
* `Geometry.start?`: the address as it is computed in words;
* `Geometry.start_add_length_le_start`, `Geometry.start_add_length_le_groupAddress`,
  **`Geometry.disjoint_span`**: the parts follow one another;
* **`buffer_parts_disjoint`**: the parts of a buffer that can exist.
-/

namespace TagTable

/-- What lies in a group: its tags, and the key and the value of each slot. -/
inductive Part where
  | tags
  | key (slot : SlotIndex)
  | value (slot : SlotIndex)
deriving DecidableEq

namespace Part

/-- The place of a part in the order in which the parts of a group follow one another. -/
def rank : Part → Nat
  | tags => 0
  | key slot => 1 + slot
  | value slot => 17 + slot

theorem rank_injective : Function.Injective rank := by
  rintro (_ | i | i) (_ | j | j) h <;> simp only [rank] at h
  case tags.tags => rfl
  case key.key => exact congrArg key (Fin.ext (by omega))
  case value.value => exact congrArg value (Fin.ext (by omega))
  all_goals omega

end Part

namespace Geometry

variable (x : Geometry)

/-- The bytes of a part. -/
def length : Part → Nat
  | .tags => tagsSize
  | .key _ => x.keySize
  | .value _ => x.valueSize

/-- The offset of a part in the buffer. -/
def start (group : Nat) : Part → Nat
  | .tags => x.groupAddress group
  | .key slot => x.keyAddress group slot
  | .value slot => x.valueAddress group slot

/-- The offsets of the bytes of a part. -/
def span (group : Nat) (part : Part) : Set Nat :=
  Set.Ico (x.start group part) (x.start group part + x.length part)

/-- The address of an element of an array, each step of which has to stay a 64-bit word. -/
def element? (start offset slot size : Nat) : Option Nat := do
  let array ← checked (start + offset)
  let skipped ← checked (slot * size)
  checked (array + skipped)

/-- The start of a part, each step of whose computation has to stay a 64-bit word. -/
def start? (group : Nat) (part : Part) : Option Nat := do
  let start ← checked (group * x.stride)
  match part with
  | .tags => some start
  | .key slot => element? start x.keyOffset slot x.keySize
  | .value slot => element? start x.valueOffset slot x.valueSize

variable {e : EntryLayout} {x} {group group' : Nat} {p q : Part}

/-! ## Addresses in words -/

theorem groupAddress_le_start (group : Nat) (p : Part) : x.groupAddress group ≤ x.start group p := by
  cases p with
  | tags => exact Nat.le_refl _
  | key slot => exact (Nat.le_add_right ..).trans (Nat.le_add_right ..)
  | value slot => exact (Nat.le_add_right ..).trans (Nat.le_add_right ..)

theorem element?_eq_some {start offset slot size : Nat}
    (h : start + offset + slot * size < wordBound) :
    element? start offset slot size = some (start + offset + slot * size) := by
  simp only [element?, Option.bind_eq_bind, Option.bind_eq_some_iff, checked_eq_some_iff]
  exact ⟨_, ⟨by omega, rfl⟩, _, ⟨by omega, rfl⟩, h, rfl⟩

/-- **No step of the computation of an address leaves the words before the address does.** -/
theorem start?_eq_some (h : x.start group p < wordBound) :
    x.start? group p = some (x.start group p) := by
  have hgroup : checked (group * x.stride) = some (x.groupAddress group) :=
    checked_eq_some_iff.2 ⟨Nat.lt_of_le_of_lt (groupAddress_le_start group p) h, rfl⟩
  rw [start?, hgroup]
  cases p with
  | tags => rfl
  | key slot => exact element?_eq_some h
  | value slot => exact element?_eq_some h

/-! ## The order of the parts -/

theorem element_end_le {i j : Nat} (h : i < j) (size : Nat) : i * size + size ≤ j * size := by
  rw [← Nat.succ_mul]
  exact Nat.mul_le_mul_right size h

theorem slot_end_le (slot : SlotIndex) (size : Nat) : slot * size + size ≤ groupSize * size :=
  element_end_le slot.isLt size

/-- **In a group, a part ends before the parts of a larger rank start.** -/
theorem start_add_length_le_start (h : ofEntry e = .ok x) (hr : p.rank < q.rank) :
    x.start group p + x.length p ≤ x.start group q := by
  obtain ⟨htags, hkeys, hvalues, -⟩ := offsets_of_ofEntry h
  have hsize : tagsSize = groupSize := rfl
  cases p with
  | tags =>
    cases q with
    | tags => exact absurd hr (Nat.lt_irrefl _)
    | key j => simp only [start, length, keyAddress]; omega
    | value j => simp only [start, length, valueAddress]; omega
  | key i =>
    cases q with
    | tags => exact absurd hr (Nat.not_lt_zero _)
    | key j =>
      have hij := element_end_le (by simp only [Part.rank] at hr; omega : i.val < j.val) x.keySize
      simp only [start, length, keyAddress]
      omega
    | value j =>
      have hend := slot_end_le i x.keySize
      simp only [start, length, keyAddress, valueAddress]
      omega
  | value i =>
    cases q with
    | tags => exact absurd hr (Nat.not_lt_zero _)
    | key j => simp only [Part.rank] at hr; omega
    | value j =>
      have hij := element_end_le (by simp only [Part.rank] at hr; omega : i.val < j.val) x.valueSize
      simp only [start, length, valueAddress]
      omega

theorem start_add_length_le_groupAddress (h : ofEntry e = .ok x) (p : Part)
    (hg : group < group') : x.start group p + x.length p ≤ x.groupAddress group' := by
  obtain ⟨htags, hkeys, hvalues, -⟩ := offsets_of_ofEntry h
  have hsize : tagsSize = groupSize := rfl
  -- The stride covers all parts, so it is enough to pass the next group.
  have hnext : x.groupAddress group + x.stride ≤ x.groupAddress group' := element_end_le hg x.stride
  cases p with
  | tags => simp only [start, length]; omega
  | key slot =>
    have hend := slot_end_le slot x.keySize
    simp only [start, length, keyAddress]
    omega
  | value slot =>
    have hend := slot_end_le slot x.valueSize
    simp only [start, length, valueAddress]
    omega

/-- **Two parts share no byte.** -/
theorem disjoint_span (h : ofEntry e = .ok x) (hne : (group, p) ≠ (group', q)) :
    Disjoint (x.span group p) (x.span group' q) := by
  have hbefore {g g' p q} (hle : x.start g p + x.length p ≤ x.start g' q) :
      Disjoint (x.span g p) (x.span g' q) := by
    rw [span, span, Set.Ico_disjoint_Ico]
    exact (Nat.min_le_left ..).trans (hle.trans (Nat.le_max_right ..))
  have hgroups {g g' p q} (hg : g < g') : Disjoint (x.span g p) (x.span g' q) :=
    hbefore ((start_add_length_le_groupAddress h p hg).trans (groupAddress_le_start g' q))
  -- In different groups the groups are compared, in one group the ranks of the parts.
  rcases Nat.lt_trichotomy group group' with hg | rfl | hg
  · exact hgroups hg
  · rcases Nat.lt_trichotomy p.rank q.rank with hr | hr | hr
    · exact hbefore (start_add_length_le_start h hr)
    · exact absurd (congrArg (Prod.mk group) (Part.rank_injective hr)) hne
    · exact (hbefore (start_add_length_le_start h hr)).symm
  · exact (hgroups hg).symm

end Geometry

/-- **In a buffer no two pieces of data overlap and no address wraps around.** The parts of all groups
end inside the block, and its alignment, a power of two, divides the start of every group. -/
theorem buffer_parts_disjoint {e : EntryLayout} {x : Geometry} {groups : Nat} {block : Block}
    (hx : Geometry.ofEntry e = .ok x) (hb : x.bufferBlock groups = .ok block) :
    (block = ⟨groups * x.stride, x.align⟩ ∧ block.size ≤ 2 ^ 63 - 1) ∧
      (∀ group < groups, ∀ part, x.start group part + x.length part ≤ block.size ∧
        x.start? group part = some (x.start group part)) ∧
      (∀ group group' part part', (group, part) ≠ (group', part') →
        Disjoint (x.span group part) (x.span group' part')) ∧
      x.align.isPowerOfTwo ∧ 16 ≤ x.align ∧ ∀ group, x.align ∣ x.groupAddress group := by
  obtain ⟨hblock, hle⟩ := Geometry.bufferBlock_eq_ok hb
  rw [Nat.mul_comm] at hblock hle
  have hsize : block.size = x.groupAddress groups := congrArg Block.size hblock
  have hinside {group} (hg : group < groups) (part : Part) :
      x.start group part + x.length part ≤ block.size :=
    hsize ▸ Geometry.start_add_length_le_groupAddress hx part hg
  have hmax : block.size ≤ maxBlockSize := hsize ▸ hle
  have hword : maxBlockSize < wordBound := by decide
  refine ⟨⟨hblock, hmax.trans (by decide)⟩, fun group hg part => ⟨hinside hg part, ?_⟩,
    fun group group' part part' hne => Geometry.disjoint_span hx hne,
    Geometry.isPowerOfTwo_align hx, Geometry.groupSize_le_align hx,
    Geometry.align_dvd_groupAddress hx⟩
  have hend := hinside hg part
  exact Geometry.start?_eq_some (by omega)

/-- Keys of three bytes and values of five, at multiples of their sizes, in two groups. -/
theorem buffer_parts_disjoint_oddSizes :
    Geometry.ofEntry ⟨3, 3, 5, 5⟩ = .ok ⟨3, 5, 18, 70, 160, 16⟩ ∧
      (⟨3, 5, 18, 70, 160, 16⟩ : Geometry).bufferBlock 2 = .ok ⟨320, 16⟩ ∧
        Disjoint (Set.Ico 145 150) (Set.Ico 160 176) ∧
          (⟨3, 5, 18, 70, 160, 16⟩ : Geometry).start? 1 (.value 15) = some 305 := by
  have hx : Geometry.ofEntry ⟨3, 3, 5, 5⟩ = .ok ⟨3, 5, 18, 70, 160, 16⟩ := by decide +kernel
  have hb : (⟨3, 5, 18, 70, 160, 16⟩ : Geometry).bufferBlock 2 = .ok ⟨320, 16⟩ := by decide +kernel
  obtain ⟨-, hparts, hdisjoint, -⟩ := buffer_parts_disjoint hx hb
  exact ⟨hx, hb, hdisjoint 0 1 (.value 15) .tags (by decide),
    (hparts 1 (by decide) (.value 15)).2⟩

end TagTable
