/-!
# Slot tags

Each slot of a group has a tag of one byte: `Tag.empty`, `Tag.tombstone`, or one that is made from
the hash of the key that the slot holds and is neither.

* `Tag.ofHash`: the tag of a hash; `Tag.two_le_ofHash`: it is never one of the two markers.
-/

namespace TagTable

namespace Tag

/-- The byte of a slot that has held no entry since its buffer was made or cleared. -/
def empty : UInt8 := 0

/-- The byte of a slot whose entry was removed. -/
def tombstone : UInt8 := 1

/-- The low byte of a hash, moved past the two marker bytes. -/
def ofHash (hash : UInt64) : UInt8 :=
  let low := hash.toUInt8
  let low := if low = empty then low + 1 else low
  if low = tombstone then low + 1 else low

theorem two_le_ofHash (hash : UInt64) : 2 ≤ ofHash hash := by
  unfold ofHash empty tombstone
  generalize hash.toUInt8 = low
  by_cases h0 : low = 0
  · subst h0; decide
  by_cases h1 : low = 1
  · subst h1; decide
  have n0 : low.toNat ≠ (0 : UInt8).toNat := fun h => h0 (UInt8.toNat_inj.1 h)
  have n1 : low.toNat ≠ (1 : UInt8).toNat := fun h => h1 (UInt8.toNat_inj.1 h)
  simp only [h0, h1, if_false, UInt8.le_iff_toNat_le]
  simp only [UInt8.reduceToNat] at n0 n1 ⊢
  omega

end Tag

end TagTable
