import TagTable.Error
import TagTable.Slots.SlotSet
import TagTable.Memory.Block
import TagTable.Memory.EntryLayout

/-!
# Geometry of groups

Where the tags, the keys and the values of a group lie in memory. A group starts with its sixteen
tags; the array of keys and the array of values follow, each at a multiple of the larger of its
element's size and alignment; padding brings the group to a multiple of its own alignment.

* `Geometry`, `Geometry.ofEntry`: the geometry for given entries, if it fits into 64-bit words;
* `Geometry.bufferBlock`: the block of memory for a number of groups;
* `Geometry.groupAddress`, `keyAddress`, `valueAddress`: offsets in that block.
-/

namespace TagTable

/-- Sizes, offsets and stride of one group, in bytes. -/
structure Geometry where
  keySize : Nat
  valueSize : Nat
  keyOffset : Nat
  valueOffset : Nat
  /-- From the start of one group to that of the next. -/
  stride : Nat
  /-- A power of two that divides the start of every group. -/
  align : Nat
deriving DecidableEq

namespace Geometry

/-- The bytes of the tags of a group. -/
def tagsSize : Nat := groupSize

/-- The array of keys starts at a multiple of this. -/
def keyPad (e : EntryLayout) : Nat := max e.keyAlign e.keySize

/-- The array of values starts at a multiple of this. -/
def valuePad (e : EntryLayout) : Nat := max (max e.valueAlign e.valueSize) 1

/-- The alignment of a group: that of its tags, and what the two pads allow. -/
def alignFor (e : EntryLayout) : Nat :=
  max (max tagsSize (powerOfTwoIn (keyPad e))) (powerOfTwoIn (valuePad e))

/-- The geometry of a group of given entries, each step of which has to stay a 64-bit word. -/
def compute? (e : EntryLayout) : Option Geometry := do
  let keyOffset ← checked (nextMultiple tagsSize (keyPad e))
  let keys ← checked (e.keySize * groupSize)
  let keysEnd ← checked (keys + keyOffset)
  let valueOffset ← checked (nextMultiple keysEnd (valuePad e))
  let values ← checked (e.valueSize * groupSize)
  let valuesEnd ← checked (values + valueOffset)
  let stride ← checked (nextMultiple valuesEnd (alignFor e))
  some
    { keySize := e.keySize
      valueSize := e.valueSize
      keyOffset
      valueOffset
      stride
      align := alignFor e }

/-- The geometry of a group of given entries; keys must not be empty. -/
def ofEntry (e : EntryLayout) : Except Error Geometry :=
  if e.keySize = 0 then
    .error .invalidArgument
  else
    match compute? e with
    | some geometry => .ok geometry
    | none => .error .invalidArgument

variable (x : Geometry)

/-- The block of memory for a number of groups. -/
def bufferBlock (groups : Nat) : Except Error Block :=
  match checked (x.stride * groups) with
  | none => .error .outOfMemory
  | some size =>
    match Block.ofSizeAlign? size x.align with
    | none => .error .outOfMemory
    | some block => .ok block

/-- The offset of a group in the buffer. -/
def groupAddress (group : Nat) : Nat := group * x.stride

/-- The offset of a key in the buffer. -/
def keyAddress (group slot : Nat) : Nat := x.groupAddress group + x.keyOffset + slot * x.keySize

/-- The offset of a value in the buffer. -/
def valueAddress (group slot : Nat) : Nat :=
  x.groupAddress group + x.valueOffset + slot * x.valueSize

end Geometry

end TagTable
