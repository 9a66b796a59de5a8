import TagTable.Table.Cursor
import TagTable.Text.Style

/-!
# Debug text of tables and their parts

* `TagRow.debugText`, `SlotSet.debugText`, `EntryLayout.debugText`, `Geometry.debugText`;
* `Table.debugText`: the tags of every group and the counters; `Cursor.debugText`.
-/

namespace TagTable

/-- A number in decimal digits. -/
def numberText (n : Nat) : String := toString n

/-- The text of the tags of a group, byte by byte. -/
def TagRow.debugText (style : Style) (r : TagRow) : String :=
  style.record "Metadata" [("bytes", style.list (r.bytes.toList.map fun b => numberText b.toNat))]

/-- The text of a set of slots. -/
def SlotSet.debugText (style : Style) (s : SlotSet) : String :=
  style.tuple "BitMask" [numberText s.bits.toNat]

/-- The text of the sizes of an entry. -/
def EntryLayout.debugText (style : Style) (e : EntryLayout) : String :=
  style.record "MapLayout"
    [ ("key_size", numberText e.keySize), ("key_align", numberText e.keyAlign),
      ("value_size", numberText e.valueSize), ("value_align", numberText e.valueAlign) ]

/-- The text of a geometry. -/
def Geometry.debugText (style : Style) (x : Geometry) : String :=
  style.record "GroupLayout"
    [ ("key_size", numberText x.keySize), ("value_size", numberText x.valueSize),
      ("key_offset", numberText x.keyOffset), ("value_offset", numberText x.valueOffset),
      ("group_stride", numberText x.stride), ("group_align", numberText x.align) ]

/-- The state of a slot in two characters: two dots, two crosses or the tag. -/
def slotText (byte : UInt8) : String :=
  if byte = Tag.empty then ".." else if byte = Tag.tombstone then "xx" else hexByte byte

/-- The states of the slots of a group. -/
def TagRow.slotsText (r : TagRow) : String := ", ".intercalate (r.bytes.toList.map slotText)

/-- The text of a table. -/
def Table.debugText (style : Style) (t : Table) : String :=
  style.record "HashTable"
    [ ("metadata", style.list (t.groups.toList.map fun g => quote g.tags.slotsText)),
      ("count", numberText t.count),
      ("tombstones", numberText t.tombstones),
      ("capacity", numberText t.capacity),
      ("layout", t.geometry.debugText style) ]

/-- The text of a cursor, which leaves most fields out. -/
def Cursor.debugText (style : Style) (c : Cursor) : String :=
  style.openRecord "RawIter"
    [("group", numberText c.group), ("remaining", numberText c.remaining)]

end TagTable
