import TagTable.Table.Probe

/-!
# Looking up keys

A key of the wrong length is absent, and the strategy is not asked about it.

* `Table.get`, `Table.contains`: the value of a key;
* `Table.modify`: an edit of the value in place.
-/

namespace TagTable

namespace Table

/-- The slot of a key. -/
def find (t : Table) (key : Bytes) : Reply (Option Position) :=
  if key.length = t.geometry.keySize then
    let p := t.probe key
    ⟨p.found, p.calls t⟩
  else ⟨none, []⟩

/-- The value of a key. -/
def get (t : Table) (key : Bytes) : Reply (Option Bytes) :=
  (t.find key).map fun slot => slot.map fun p => (t.entryAt p).value

/-- Whether there is an entry for a key. -/
def contains (t : Table) (key : Bytes) : Reply Bool := (t.get key).map Option.isSome

/-- The value of a key, and the table with what `edit` makes of it written over it. -/
def modify (t : Table) (key : Bytes) (edit : Bytes → Bytes) : Reply (Option Bytes × Table) :=
  (t.find key).map fun slot =>
    match slot with
    | none => (none, t)
    | some p => (some (t.entryAt p).value, t.overwrite p (edit (t.entryAt p).value))

end Table

end TagTable
