import TagTable.Typed.Map
import TagTable.Table.Cursor

/-!
# Cursors of typed maps

The entries of a map in slot order, decoded, and views of them.

* `Map.Cursor`, `Map.cursor`: `next`, and `nth` with the skip of the table's cursor;
* `Map.Cursor.nextView` and `nthView`: a part of an entry, such as its key, where a skip passes over
  one entry after the other;
* `Map.entries`, `Map.debugText`.
-/

namespace TagTable

namespace Map

/-- A place among the entries of a map. -/
structure Cursor (K V : Type) where
  raw : TagTable.Cursor

variable {K V α : Type} [Plain K] [Plain V]

/-- A cursor before the first entry. -/
def cursor (m : Map K V) : Cursor K V := ⟨m.table.cursor⟩

/-- The key and the value that an entry encodes. -/
def decodeEntry (K V : Type) [Plain K] [Plain V] (e : Entry) : K × V :=
  (Plain.decode e.key, Plain.decode e.value)

namespace Cursor

/-- The number of entries that are left. -/
def remaining (c : Cursor K V) : Nat := c.raw.remaining

/-- The next entry. -/
def next (c : Cursor K V) : Option (K × V) × Cursor K V :=
  let (e, raw) := c.raw.next
  (e.map (decodeEntry K V), ⟨raw⟩)

/-- The entry after `n` others. -/
def nth (c : Cursor K V) (n : Nat) : Option (K × V) × Cursor K V :=
  let (e, raw) := c.raw.nth n
  (e.map (decodeEntry K V), ⟨raw⟩)

/-- A part of the next entry. -/
def nextView (view : K × V → α) (c : Cursor K V) : Option α × Cursor K V :=
  let (e, c) := c.next
  (e.map view, c)

/-- A part of the entry after `n` others, which are passed over one by one. -/
def nthView (view : K × V → α) : Nat → Cursor K V → Option α × Cursor K V
  | 0, c => c.nextView view
  | n + 1, c =>
    match c.next with
    | (some _, c) => nthView view n c
    | (none, c) => (none, c)

/-- All entries that are left. -/
def drain (c : Cursor K V) : List (K × V) := c.raw.drain.map (decodeEntry K V)

/-- The cursor after its last entry. -/
def finish (c : Cursor K V) : Cursor K V := (c.nth c.remaining).2

end Cursor

/-- All entries, in slot order. -/
def entries (m : Map K V) : List (K × V) := m.cursor.drain

/-- The text of a map, which is that of its entries. -/
def debugText [DebugText K] [DebugText V] (style : Style) (m : Map K V) : String :=
  style.dictionary (m.entries.map fun (key, value) =>
    (TagTable.debugText style key, TagTable.debugText style value))

end Map

end TagTable
