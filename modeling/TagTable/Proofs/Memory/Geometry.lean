import Mathlib.Tactic.Common
import TagTable.Memory.Geometry

/-!
# Accepted geometries

The geometry that is computed in words is the one of unbounded arithmetic, when that one fits.

* `Geometry.exact`; **`Geometry.compute?_eq_some`**, `Geometry.ofEntry_eq_ok`;
* `Geometry.groupSize_le_stride`: a group is at least as large as its tags;
* `Geometry.bufferBlock_eq_ok`, `Geometry.size_le_of_bufferBlock`: the buffers that can exist.
-/

namespace TagTable

namespace Geometry

/-- The geometry of given entries in unbounded arithmetic. -/
def exact (e : EntryLayout) : Geometry :=
  let keyOffset := nextMultiple tagsSize (keyPad e)
  let valueOffset := nextMultiple (e.keySize * groupSize + keyOffset) (valuePad e)
  { keySize := e.keySize
    valueSize := e.valueSize
    keyOffset
    valueOffset
    stride := nextMultiple (e.valueSize * groupSize + valueOffset) (alignFor e)
    align := alignFor e }

variable {e : EntryLayout} {x : Geometry}

theorem le_stride_exact (e : EntryLayout) :
    tagsSize ≤ (exact e).keyOffset ∧
      e.keySize * groupSize + (exact e).keyOffset ≤ (exact e).valueOffset ∧
        e.valueSize * groupSize + (exact e).valueOffset ≤ (exact e).stride :=
  ⟨le_nextMultiple, le_nextMultiple, le_nextMultiple⟩

/-- **Each step of the computation fits into a word just when the last one does.** -/
theorem compute?_eq_some : compute? e = some x ↔ exact e = x ∧ (exact e).stride < wordBound := by
  obtain ⟨-, hkeys, hvalues⟩ := le_stride_exact e
  constructor
  · intro h
    simp only [compute?, Option.bind_eq_bind, Option.bind_eq_some_iff, checked_eq_some_iff] at h
    obtain ⟨_, ⟨-, rfl⟩, _, ⟨-, rfl⟩, _, ⟨-, rfl⟩, _, ⟨-, rfl⟩, _, ⟨-, rfl⟩, _, ⟨-, rfl⟩, _,
      ⟨hlt, rfl⟩, hx⟩ := h
    exact ⟨Option.some.inj hx, hlt⟩
  · rintro ⟨rfl, hlt⟩
    simp only [compute?, Option.bind_eq_bind, Option.bind_eq_some_iff, checked_eq_some_iff]
    refine ⟨_, ⟨?_, rfl⟩, _, ⟨?_, rfl⟩, _, ⟨?_, rfl⟩, _, ⟨?_, rfl⟩, _, ⟨?_, rfl⟩, _, ⟨?_, rfl⟩, _,
      ⟨hlt, rfl⟩, rfl⟩ <;> simp only [exact] at hkeys hvalues hlt <;> omega

theorem ofEntry_eq_ok :
    ofEntry e = .ok x ↔ 0 < e.keySize ∧ exact e = x ∧ (exact e).stride < wordBound := by
  rw [ofEntry, ← compute?_eq_some]
  split_ifs with h0
  · simp [h0]
  · cases compute? e <;> simp [Nat.pos_of_ne_zero h0]

theorem groupSize_le_stride (h : ofEntry e = .ok x) : groupSize ≤ x.stride := by
  obtain ⟨-, rfl, -⟩ := ofEntry_eq_ok.1 h
  obtain ⟨htags, hkeys, hvalues⟩ := le_stride_exact e
  rw [tagsSize] at htags
  omega

theorem keySize_of_ofEntry (h : ofEntry e = .ok x) : x.keySize = e.keySize := by
  obtain ⟨-, rfl, -⟩ := ofEntry_eq_ok.1 h
  rfl

theorem valueSize_of_ofEntry (h : ofEntry e = .ok x) : x.valueSize = e.valueSize := by
  obtain ⟨-, rfl, -⟩ := ofEntry_eq_ok.1 h
  rfl

theorem bufferBlock_eq_ok {groups : Nat} {block : Block} (h : x.bufferBlock groups = .ok block) :
    block = ⟨x.stride * groups, x.align⟩ ∧ x.stride * groups ≤ maxBlockSize := by
  unfold bufferBlock Block.ofSizeAlign? at h
  cases hsize : checked (x.stride * groups) with
  | none => simp [hsize] at h
  | some size =>
    obtain ⟨-, rfl⟩ := checked_eq_some_iff.1 hsize
    simp only [hsize] at h
    split_ifs at h with hle
    · exact ⟨(Except.ok.inj h).symm, Nat.le_trans le_nextMultiple hle⟩

theorem bufferBlock_eq_error {groups : Nat} {error : Error}
    (h : x.bufferBlock groups = .error error) : error = .outOfMemory := by
  unfold bufferBlock at h
  split at h
  · exact (Except.error.inj h).symm
  · split at h
    · exact (Except.error.inj h).symm
    · simp at h

theorem size_le_of_bufferBlock {groups : Nat} {block : Block} (hx : ofEntry e = .ok x)
    (h : x.bufferBlock groups = .ok block) : groupSize * groups ≤ maxBlockSize :=
  Nat.le_trans (Nat.mul_le_mul_right groups (groupSize_le_stride hx)) (bufferBlock_eq_ok h).2

end Geometry

end TagTable
