import TagTable.Table.Basic
import TagTable.Text.Bars

/-!
# Probe lengths

The probe length of an entry is the number of groups, around the end of the row, from its home group
to the group that holds it.

* `probeLength`, `Table.probeLengths`: the number of entries of each probe length;
* `Table.probeReport`: the numbers as lines of text with bars.
-/

namespace TagTable

/-- The distance from the home group of a hash to group `g` in a row of `groups` groups, a power of
two: a difference of words of which the low bits are kept. -/
def probeLength (groups g : Nat) (hash : UInt64) : Nat :=
  (UInt64.ofNat g - hash).toNat &&& (groups - 1)

/-- The histogram with one more item in a bin, lengthened as needed. -/
def bump (histogram : List Nat) (bin : Nat) : List Nat :=
  (histogram ++ List.replicate (bin + 1 - histogram.length) 0).modify bin (· + 1)

namespace Table

variable (t : Table)

/-- The entries with the index of their group, in slot order. -/
def entriesByGroup : List (Nat × Entry) :=
  (List.range t.groups.size).flatMap fun g => (t.groupAt g).entries.map fun e => (g, e)

/-- For each probe length up to the largest, the number of entries that have it. -/
def probeLengths : Reply (List Nat) :=
  let entries := t.entriesByGroup
  { answer := entries.foldl
      (fun bins (g, e) => bump bins (probeLength t.groups.size g (t.strategy.hash e.key))) []
    calls := entries.map fun (_, e) => .hash e.key }

end Table

/-- The histogram of probe lengths as lines of text. -/
def Table.probeReport (t : Table) : Reply (List String) :=
  t.probeLengths.map (barLines t.count)

end TagTable
