import TagTable.Table.Basic

/-!
# Growth

A buffer may fill up to seven tenths of its slots, tombstones included. A reservation that would
pass this limit moves all entries to a fresh buffer: one of the same capacity if only tombstones are
in the way and the entries fit into half the limit, else one of the next capacity, doubled as often
as needed.

* `loadLimit`, `grownCapacity`: the limit, and the search for a capacity;
* `place`, `redistribute`, `Table.rehash`: the entries put into fresh groups;
* `Table.moveTo`, `Table.reserve`: growth with an allocator;
* `Table.withRoom`, `Table.copy`, `Table.giveBack`: the other uses of the allocator.
-/

namespace TagTable

/-- The most slots with an entry or a tombstone in a buffer of `capacity` slots. -/
def loadLimit (capacity : Nat) : Nat := capacity * 7 / 10

/-- The first of `capacity` and its doublings whose limit is at least `entries`, with at most
`doublings` doublings and within 64-bit words. -/
def doubleUntil (entries : Nat) : Nat → Nat → Option Nat
  | 0, _ => none
  | doublings + 1, capacity =>
    if loadLimit capacity < entries then
      match checked (capacity * 2) with
      | none => none
      | some doubled => doubleUntil entries doublings doubled
    else some capacity

/-- The capacity to grow to from `current` for `entries` entries: at least one group and at least
twice the present capacity. After 64 doublings no 64-bit word is left. -/
def grownCapacity (entries current : Nat) : Option Nat :=
  match checked (current * 2) with
  | none => none
  | some doubled => doubleUntil entries 65 (max doubled groupSize)

/-- The first empty slot on the way of a hash, from group `g` over at most `visits` groups. -/
def vacancyFrom (groups : Array Group) : Nat → Nat → Option Position
  | 0, _ => none
  | visits + 1, g =>
    match (groups.getD g Group.empty).tags.vacant.lowest with
    | some i => some ⟨g, i⟩
    | none => vacancyFrom groups visits (nextGroup groups.size g)

/-- The groups with an entry put into the first empty slot on the way of its hash. -/
def place (groups : Array Group) (hash : UInt64) (e : Entry) : Array Group :=
  match vacancyFrom groups groups.size (homeGroup groups.size hash) with
  | some p => groups.modify p.group (·.occupy p.slot (Tag.ofHash hash) e)
  | none => groups

/-- The groups with all given entries put in by their hashes, one after the other. -/
def redistribute (entries : List (UInt64 × Entry)) (groups : Array Group) : Array Group :=
  entries.foldl (fun groups (hash, e) => place groups hash e) groups

namespace Table

variable {σ : Type} (A : Allocator σ)

/-- The events and the allocator's state when the buffer of `t`, if there is one, is given back. -/
def giveBack (t : Table) (heap : σ) : List HeapEvent × σ :=
  if t.groups.size = 0 then
    ([], heap)
  else
    match t.geometry.bufferBlock t.groups.size with
    | .error _ => ([], heap)
    | .ok block => ([.released block], A.release block heap)

/-- All entries in slot order, each with the hash of its key, which is taken once. -/
def hashedEntries (t : Table) : Reply (List (UInt64 × Entry)) :=
  { answer := t.entries.map fun e => (t.strategy.hash e.key, e)
    calls := t.entries.map fun e => .hash e.key }

/-- The entries put into a new row of groups. -/
def rehash (t : Table) (groups : Nat) : Reply Table :=
  t.hashedEntries.map fun entries =>
    { t with
      groups := redistribute entries (Array.replicate groups Group.empty)
      tombstones := 0 }

/-- All entries moved to a fresh buffer of `capacity` slots, after which the old buffer is given
back. Nothing is changed unless the allocator grants the new buffer. -/
def moveTo (t : Table) (capacity : Nat) (heap : σ) : Outcome σ Table :=
  match t.geometry.bufferBlock (capacity / groupSize) with
  | .error error => ⟨.error error, t, heap, { log := [.overflow capacity] }⟩
  | .ok block =>
    match A.request block heap with
    | (false, heap) =>
      ⟨.error .outOfMemory, t, heap,
        { heap := [.refused block], log := [.refused block.size capacity] }⟩
    | (true, heap) =>
      let (released, heap) := t.giveBack A heap
      let rehashed := t.rehash (capacity / groupSize)
      ⟨.ok (), rehashed.answer, heap,
        { heap := .granted block :: released
          log := [.resized t.capacity capacity t.count t.tombstones]
          calls := rehashed.calls }⟩

/-- Room for `additional` more entries, so that that many insertions need no growth. -/
def reserve (t : Table) (additional : Nat) (heap : σ) : Outcome σ Table :=
  match checked (t.count + additional) with
  | none => .fail .outOfMemory t heap
  | some needed =>
    let limit := loadLimit t.capacity
    if needed ≤ limit ∧ saturating (needed + t.tombstones) ≤ limit then
      ⟨.ok (), t, heap, .empty⟩
    else if needed ≤ limit / 2 then
      t.moveTo A t.capacity heap
    else
      match grownCapacity needed t.capacity with
      | none => .fail .outOfMemory t heap
      | some capacity => t.moveTo A capacity heap

/-- A table with room for a number of entries. -/
def withRoom (e : EntryLayout) (capacity : Nat) (s : Strategy) (heap : σ) :
    Construction σ Table :=
  match create e s with
  | .error error => ⟨.error error, heap, .empty⟩
  | .ok t =>
    let o := t.reserve A capacity heap
    ⟨o.result.map fun _ => o.after, o.heap, o.trace⟩

/-- A second table with a buffer of its own, slot for slot like the first. -/
def copy (t : Table) (heap : σ) : Construction σ Table :=
  if t.groups.size = 0 then
    ⟨.ok t, heap, .empty⟩
  else
    match t.geometry.bufferBlock t.groups.size with
    | .error error => ⟨.error error, heap, .empty⟩
    | .ok block =>
      match A.request block heap with
      | (false, heap) => ⟨.error .outOfMemory, heap, { heap := [.refused block] }⟩
      | (true, heap) => ⟨.ok t, heap, { heap := [.granted block] }⟩

end Table

end TagTable
