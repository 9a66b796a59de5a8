import TagTable.Table.Growth
import TagTable.Text.Fixed

/-!
# Statistics

How full a table is and what its memory is used for.

* `Stats`, `Table.stats`;
* `Stats.report`: the statistics as lines of text.
-/

namespace TagTable

/-- How full a table is and what its memory is used for. -/
structure Stats where
  entries : Nat
  tombstones : Nat
  capacity : Nat
  groups : Nat
  /-- The most slots with an entry or a tombstone before the next growth. -/
  loadLimit : Nat
  loadFactor : Float
  utilization : Float
  stride : Nat
  totalBytes : Nat
  /-- The bytes of the buffer that hold neither a key nor a value of an entry. -/
  wastedBytes : Nat

/-- A word as a floating-point number. -/
def wordToFloat (n : Nat) : Float := (UInt64.ofNat n).toFloat

/-- A ratio of words as a double, zero over zero being zero. -/
def ratio (part whole : Nat) : Float :=
  if whole = 0 then 0 else wordToFloat part / wordToFloat whole

namespace Table

variable (t : Table)

/-- The bytes of the buffer. -/
def totalBytes : Nat :=
  match t.geometry.bufferBlock t.groups.size with
  | .error _ => 0
  | .ok block => block.size

/-- The bytes that hold keys and values of entries. -/
def liveBytes : Nat := t.count * (t.geometry.keySize + t.geometry.valueSize)

/-- The statistics of a table. -/
def stats : Stats :=
  { entries := t.count
    tombstones := t.tombstones
    capacity := t.capacity
    groups := t.groups.size
    loadLimit := TagTable.loadLimit t.capacity
    loadFactor := ratio t.count t.capacity
    utilization := ratio (t.count + t.tombstones) t.capacity
    stride := t.geometry.stride
    totalBytes := t.totalBytes
    wastedBytes := t.totalBytes - t.liveBytes }

end Table

namespace Stats

variable (s : Stats)

/-- A fraction as a percentage with two decimal places. -/
def percent (fraction : Float) : String := fixedPoint 2 (.ofFloat (fraction * 100)) ++ "%"

/-- The statistics as lines of text. -/
def report : List String :=
  [ "=== Hash Table Debug Statistics ===",
    s!"Population: {s.entries}/{s.capacity} ({percent s.loadFactor} load factor, "
      ++ s!"limit {s.loadLimit})",
    s!"Slot Usage: {s.entries} live + {s.tombstones} tombstones "
      ++ s!"({percent s.utilization} utilization)",
    s!"Groups: {s.groups} x {s.stride} bytes = {s.totalBytes} bytes",
    s!"Memory: {s.wastedBytes} bytes wasted ({percent (ratio s.wastedBytes s.totalBytes)})" ]

end Stats

end TagTable
