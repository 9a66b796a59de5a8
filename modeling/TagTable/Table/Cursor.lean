import TagTable.Table.Basic

/-!
# Cursors

A cursor yields the entries of a table in slot order. It keeps the slots of the present group that
are left, so a step is taken inside the group where possible, and a skip passes over whole groups by
the number of their entries.

* `Cursor`, `Table.cursor`;
* `Cursor.next`, `Cursor.nth`: the next entry, and the one after `n` others;
* `Cursor.readValue`: the value of an entry, copied to a buffer;
* `Cursor.drain`: all entries that are left.
-/

namespace TagTable

/-- A place among the entries of a table. -/
structure Cursor where
  groups : Array Group
  valueSize : Nat
  /-- The group to look at when the present one has no more entries. -/
  upcoming : Nat
  /-- The present group. -/
  group : Nat
  /-- The slots of the present group that are left. -/
  current : SlotSet
  remaining : Nat

/-- A cursor before the first entry. -/
def Table.cursor (t : Table) : Cursor :=
  { groups := t.groups
    valueSize := t.geometry.valueSize
    upcoming := 0
    group := 0
    current := SlotSet.none
    remaining := t.count }

namespace Cursor

/-- Over at most `visits` groups, the cursor at the first upcoming group with entries, and whether
there is one. -/
def advance : Nat → Cursor → Bool × Cursor
  | 0, c => (false, c)
  | visits + 1, c =>
    if c.upcoming < c.groups.size then
      let full := (c.groups.getD c.upcoming Group.empty).tags.live
      let c := { c with group := c.upcoming, upcoming := c.upcoming + 1 }
      if full.any then (true, { c with current := full }) else advance visits c
    else (false, c)

/-- The cursor at the next group with entries, and whether there is one. -/
def enterNext (c : Cursor) : Bool × Cursor := c.advance (c.groups.size - c.upcoming)

/-- The next entry of the present group. -/
def step? (c : Cursor) : Option (Entry × Cursor) :=
  c.current.next.map fun (i, rest) =>
    ((c.groups.getD c.group Group.empty).cells[i],
      { c with current := rest, remaining := c.remaining - 1 })

/-- The next entry. -/
def next (c : Cursor) : Option Entry × Cursor :=
  if c.remaining = 0 then (none, c)
  else
    match c.step? with
    | some (e, c) => (some e, c)
    | none =>
      let (found, c) := c.enterNext
      match found, c.step? with
      | true, some (e, c) => (some e, c)
      | _, _ => (none, { c with remaining := 0 })

/-- The cursor without the next `n` entries of the present group. -/
def dropCurrent : Nat → Cursor → Cursor
  | 0, c => c
  | n + 1, c => dropCurrent n { c with current := c.current.clearLowest }

/-- The entry after `n` others, with `n` below the number of entries left, found by passing over at
most `visits` groups. -/
def skip (visits n : Nat) (c : Cursor) : Option Entry × Cursor :=
  if n < c.current.count then
    let c := c.dropCurrent n
    { c with remaining := c.remaining - n }.next
  else
    let left := n - c.current.count
    let c := { c with remaining := c.remaining - c.current.count }
    match visits with
    | 0 => (none, { c with remaining := 0 })
    | visits + 1 =>
      match c.enterNext with
      | (true, c) => skip visits left c
      | (false, c) => (none, { c with remaining := 0 })

/-- The entry after `n` others; if there are not so many, the cursor is at its end. -/
def nth (c : Cursor) (n : Nat) : Option Entry × Cursor :=
  if c.remaining ≤ n then
    (none, { c with remaining := 0, current := SlotSet.none, upcoming := c.groups.size })
  else c.skip (c.groups.size - c.upcoming) n

/-- The value of the entry after `skip` others, written over a buffer, which must have its size. -/
def readValue (c : Cursor) (buffer : Bytes) (skip : Nat) : Except Error Unit × Bytes × Cursor :=
  if buffer.length = c.valueSize then
    match c.nth skip with
    | (some e, c) => (.ok (), Bytes.writeOver buffer e.value, c)
    | (none, c) => (.error .noMoreData, buffer, c)
  else (.error .invalidArgument, buffer, c)

/-- The next `steps` entries, or as many as there are. -/
def takeNext : Nat → Cursor → List Entry
  | 0, _ => []
  | steps + 1, c =>
    match c.next with
    | (some e, c) => e :: takeNext steps c
    | (none, _) => []

/-- All entries that are left. -/
def drain (c : Cursor) : List Entry := c.takeNext c.remaining

end Cursor

end TagTable
