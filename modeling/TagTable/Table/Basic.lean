import TagTable.Slots.Group
import TagTable.Memory.Geometry
import TagTable.Table.Trace

/-!
# Tables

An open-addressing hash table over byte strings. Its buffer is a row of groups, their number a power
of two, or nothing before the first growth. The strategy gives a key its home group; a key that does
not fit there goes to the next group with an empty slot, around the end of the row to its beginning.

* `Table`, `Table.create`: a table without a buffer;
* `Table.capacity`, `Table.entries`, `Table.entryAt`, `Table.tagAt`: what a table holds;
* `homeGroup`, `nextGroup`: the order in which groups are visited;
* `Table.setStrategy`, `Table.clear`, and the changes of one slot: `occupy`, `bury`, `overwrite`.
-/

namespace TagTable

/-- A hash table over byte strings. -/
structure Table where
  /-- Sizes and alignments the table was made for. -/
  entryLayout : EntryLayout
  geometry : Geometry
  strategy : Strategy
  /-- The groups of the buffer; none when there is no buffer. -/
  groups : Array Group
  count : Nat
  /-- The number of slots that hold a tombstone. -/
  tombstones : Nat

/-- The first group to visit for a hash in a row of `groups` groups, a power of two. -/
def homeGroup (groups : Nat) (hash : UInt64) : Nat := hash.toNat &&& (groups - 1)

/-- The group to visit after group `g` in a row of `groups` groups, a power of two. -/
def nextGroup (groups g : Nat) : Nat := (g + 1) &&& (groups - 1)

namespace Table

/-- An empty table without a buffer. -/
def create (e : EntryLayout) (s : Strategy) : Except Error Table :=
  match Geometry.ofEntry e with
  | .error error => .error error
  | .ok geometry =>
    .ok { entryLayout := e, geometry, strategy := s, groups := #[], count := 0, tombstones := 0 }

variable (t : Table)

/-- The number of slots. -/
def capacity : Nat := groupSize * t.groups.size

/-- Whether there are no entries. -/
def isEmpty : Bool := t.count == 0

/-- A group of the buffer, or an empty one beyond it. -/
def groupAt (g : Nat) : Group := t.groups.getD g Group.empty

/-- The tag of a slot. -/
def tagAt (p : Position) : UInt8 := (t.groupAt p.group).tags.bytes[p.slot]

/-- What the cell of a slot holds. -/
def entryAt (p : Position) : Entry := (t.groupAt p.group).cells[p.slot]

/-- All entries, in slot order. -/
def entries : List Entry := t.groups.toList.flatMap Group.entries

/-- A change of one group. -/
def modifyGroup (g : Nat) (f : Group → Group) : Table := { t with groups := t.groups.modify g f }

/-- Whether a key and a value have the sizes of the table. -/
def fits (key value : Bytes) : Bool :=
  key.length == t.geometry.keySize && value.length == t.geometry.valueSize

/-- The table with its strategy replaced, which only an empty table allows. -/
def setStrategy (s : Strategy) : Except Error Table :=
  if t.count = 0 then .ok { t with strategy := s } else .error .invalidArgument

/-- The table without its entries and tombstones; the buffer stays. -/
def clear : Table := { t with groups := t.groups.map Group.wipe, count := 0, tombstones := 0 }

/-- The table with a new entry in an empty slot. -/
def occupy (p : Position) (tag : UInt8) (e : Entry) : Table :=
  { t.modifyGroup p.group (·.occupy p.slot tag e) with count := t.count + 1 }

/-- The table with the entry of a slot removed and a tombstone in its place. -/
def bury (p : Position) : Table :=
  { t.modifyGroup p.group (·.bury p.slot) with
    count := t.count - 1
    tombstones := t.tombstones + 1 }

/-- Another value for the entry in a slot. -/
def overwrite (p : Position) (value : Bytes) : Table :=
  t.modifyGroup p.group (·.overwrite p.slot value)

end Table

end TagTable
