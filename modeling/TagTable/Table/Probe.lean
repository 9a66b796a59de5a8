import TagTable.Table.Basic

/-!
# Probing

A probe looks for a key. It starts at the home group of the key's hash; in each group it compares
the key with the stored keys whose tag is that of the hash, and it ends at the first that is equal,
or else at the first group with an empty slot, or when every group was visited.

* `Ending`, `Walk`, `walkFrom`: the walk over the groups;
* `Probe`, `Table.probe`: the walk from the home group, with the hash it used;
* `Probe.found`, `Probe.calls`.
-/

namespace TagTable

/-- Where a walk over the groups ended. -/
inductive Ending where
  /-- The key is stored at the slot. -/
  | occupied (slot : Position)
  /-- The key is absent, and the slot is the empty one that it would take. -/
  | vacant (slot : Position)
  /-- No group has the key or an empty slot. -/
  | exhausted
deriving DecidableEq

/-- How a walk over groups went. -/
structure Walk where
  ending : Ending
  /-- The slots whose keys were compared, in order. -/
  compared : List Position
  visited : List Nat

/-- The slots up to the first that passes the test, and that slot if there is one. -/
def searchSlots (test : SlotIndex → Bool) : List SlotIndex → List SlotIndex × Option SlotIndex
  | [] => ([], none)
  | i :: rest =>
    if test i then ([i], some i)
    else
      let (compared, found) := searchSlots test rest
      (i :: compared, found)

/-- The walk from group `g` over at most `visits` groups, for a tag and a test of stored keys. -/
def walkFrom (groups : Array Group) (tag : UInt8) (test : Bytes → Bool) : Nat → Nat → Walk
  | 0, _ => { ending := .exhausted, compared := [], visited := [] }
  | visits + 1, g =>
    let group := groups.getD g Group.empty
    let (slots, found) :=
      searchSlots (fun i => test group.cells[i].key) (group.tags.slotsWith tag).toList
    let compared := slots.map (Position.mk g)
    match found with
    | some i => { ending := .occupied ⟨g, i⟩, compared, visited := [g] }
    | none =>
      match group.tags.vacant.lowest with
      | some i => { ending := .vacant ⟨g, i⟩, compared, visited := [g] }
      | none =>
        let rest := walkFrom groups tag test visits (nextGroup groups.size g)
        { ending := rest.ending
          compared := compared ++ rest.compared
          visited := g :: rest.visited }

/-- The search for a key in a table. -/
structure Probe where
  key : Bytes
  hash : UInt64
  walk : Walk

namespace Table

/-- The search for a key: its hash is taken once, then the groups are walked from its home. -/
def probe (t : Table) (key : Bytes) : Probe :=
  let hash := t.strategy.hash key
  { key
    hash
    walk := walkFrom t.groups (Tag.ofHash hash) (t.strategy.equal · key) t.groups.size
      (homeGroup t.groups.size hash) }

end Table

namespace Probe

/-- The slot of the key, if it was found. -/
def found (p : Probe) : Option Position :=
  match p.walk.ending with
  | .occupied slot => some slot
  | .vacant _ => none
  | .exhausted => none

/-- The uses of the strategy in a search through table `t`. -/
def calls (p : Probe) (t : Table) : List Call :=
  .hash p.key :: p.walk.compared.map fun slot => .equal slot (t.entryAt slot).key p.key

end Probe

end TagTable
