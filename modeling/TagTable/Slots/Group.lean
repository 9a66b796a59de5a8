import TagTable.Bytes
import TagTable.Slots.TagRow

/-!
# Groups

Sixteen slots with their tags. What a slot stores means something only behind the tag of a key: a
removal or a clearing changes the tags and leaves the stored bytes where they are.

* `Entry`, `Group`, `Group.empty`, `Group.live`, `Group.entries`;
* `Group.occupy`, `Group.bury`, `Group.overwrite`, `Group.wipe`: the four ways to change a group.
-/

namespace TagTable

/-- A key with its value. -/
structure Entry where
  key : Bytes
  value : Bytes
deriving DecidableEq

/-- Sixteen slots. -/
structure Group where
  tags : TagRow
  cells : Vector Entry 16
deriving DecidableEq

namespace Group

/-- A group without entries. -/
def empty : Group := ⟨TagRow.empty, Vector.replicate 16 ⟨[], []⟩⟩

/-- The slots that hold an entry, lowest first. -/
def live (g : Group) : List SlotIndex := g.tags.live.toList

/-- The entries of a group, in slot order. -/
def entries (g : Group) : List Entry := g.live.map (g.cells[·])

/-- An entry put in a slot. -/
def occupy (g : Group) (i : SlotIndex) (tag : UInt8) (e : Entry) : Group :=
  ⟨g.tags.set i tag, putSlot g.cells i e⟩

/-- The group with a tombstone in slot `i`. -/
def bury (g : Group) (i : SlotIndex) : Group := { g with tags := g.tags.set i Tag.tombstone }

/-- Another value for the entry of a slot. -/
def overwrite (g : Group) (i : SlotIndex) (value : Bytes) : Group :=
  { g with
    cells := putSlot g.cells i { g.cells[i] with value := Bytes.writeOver g.cells[i].value value } }

/-- All tags empty, and the cells as they were. -/
def wipe (g : Group) : Group := { g with tags := TagRow.empty }

end Group

end TagTable
