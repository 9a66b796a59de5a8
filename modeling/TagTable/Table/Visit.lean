import TagTable.Table.Basic

/-!
# Traversals

Every entry is shown in slot order to a visitor, which may keep a state of its own.

* `Table.each`: a visitor that rewrites values and may stop the traversal;
* `Table.filter`: a predicate whose rejected entries are removed.
-/

namespace TagTable

/-- What a visitor gives for an entry: its next state, the bytes to write over the value, and
whether to stop. -/
structure Visit (τ : Type) where
  state : τ
  value : Bytes
  stop : Bool

/-- A traversal of a `γ`: the visitor's last state, what was traversed, and whether it was stopped. -/
structure Sweep (τ γ : Type) where
  state : τ
  after : γ
  stopped : Bool

/-- A selection from a `γ`: the predicate's last state, what is left, and how much was removed. -/
structure Selection (τ γ : Type) where
  state : τ
  after : γ
  removed : Nat

section

variable {τ : Type}

namespace Group

/-- The visitor at the given slots of a group, until it stops. -/
def each (visitor : τ → Bytes → Bytes → Visit τ) :
    List SlotIndex → τ → Group → Sweep τ Group
  | [], state, g => ⟨state, g, false⟩
  | i :: rest, state, g =>
    let visit := visitor state g.cells[i].key g.cells[i].value
    let g := g.overwrite i visit.value
    if visit.stop then ⟨visit.state, g, true⟩ else each visitor rest visit.state g

/-- The predicate at the given slots of a group; a rejected entry leaves a tombstone. -/
def filter (keep : τ → Bytes → Bytes → Bool × τ) :
    List SlotIndex → τ → Group → Selection τ Group
  | [], state, g => ⟨state, g, 0⟩
  | i :: rest, state, g =>
    match keep state g.cells[i].key g.cells[i].value with
    | (true, state) => filter keep rest state g
    | (false, state) =>
      let others := filter keep rest state (g.bury i)
      { others with removed := others.removed + 1 }

end Group

/-- The visitor at all entries of a row of groups, until it stops. -/
def eachGroup (visitor : τ → Bytes → Bytes → Visit τ) :
    List Group → τ → Sweep τ (List Group)
  | [], state => ⟨state, [], false⟩
  | g :: rest, state =>
    let first := g.each visitor g.live state
    if first.stopped then ⟨first.state, first.after :: rest, true⟩
    else
      let others := eachGroup visitor rest first.state
      { others with after := first.after :: others.after }

/-- The predicate at all entries of a row of groups. -/
def filterGroups (keep : τ → Bytes → Bytes → Bool × τ) :
    List Group → τ → Selection τ (List Group)
  | [], state => ⟨state, [], 0⟩
  | g :: rest, state =>
    let first := g.filter keep g.live state
    let others := filterGroups keep rest first.state
    { state := others.state
      after := first.after :: others.after
      removed := first.removed + others.removed }

namespace Table

/-- The visitor at all entries in slot order, until it stops. -/
def each (t : Table) (visitor : τ → Bytes → Bytes → Visit τ) (state : τ) : Sweep τ Table :=
  let sweep := eachGroup visitor t.groups.toList state
  { sweep with after := { t with groups := sweep.after.toArray } }

/-- Only the entries that the predicate keeps. -/
def filter (t : Table) (keep : τ → Bytes → Bytes → Bool × τ) (state : τ) : Selection τ Table :=
  let selection := filterGroups keep t.groups.toList state
  { selection with
    after :=
      { t with
        groups := selection.after.toArray
        count := t.count - selection.removed
        tombstones := t.tombstones + selection.removed } }

end Table

namespace Sweep

/-- An error just when a visit broke the tour off. -/
def result {γ : Type} (s : Sweep τ γ) : Except Error Unit :=
  if s.stopped then .error .interrupted else .ok ()

end Sweep

end

end TagTable
