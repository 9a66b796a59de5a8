import TagTable.Table.Growth
import TagTable.Table.Probe

/-!
# Adding and removing entries

Both ways of adding an entry first reserve room for one more, whether the key is present or not.

* `Table.insert`: refuses a key that is present; `Table.set`: replaces its value;
* `Table.take`: removes a key and answers with its value; `Table.remove`: forgets the value.
-/

namespace TagTable

namespace Table

variable {σ : Type} (A : Allocator σ)

/-- Room for one more entry, then the search for `key`, then what `present` does with the slot that
stores it, or else the entry in the empty slot where the search ended. -/
def store (present : Table → Position → Except Error Unit × Table) (t : Table) (key value : Bytes)
    (heap : σ) : Outcome σ Table :=
  if t.fits key value then
    let room := t.reserve A 1 heap
    match room.result with
    | .error _ => room
    | .ok () =>
      let t := room.after
      let p := t.probe key
      let trace := room.trace.addCalls (p.calls t)
      match p.walk.ending with
      | .occupied slot =>
        let (result, t) := present t slot
        ⟨result, t, room.heap, trace⟩
      | .vacant slot =>
        ⟨.ok (), t.occupy slot (Tag.ofHash p.hash) ⟨key, value⟩, room.heap, trace⟩
      | .exhausted => ⟨.error .outOfMemory, t, room.heap, trace⟩
  else .fail .invalidArgument t heap

/-- A new entry; a key that is present keeps its value. -/
def insert (t : Table) (key value : Bytes) (heap : σ) : Outcome σ Table :=
  t.store A (fun t _ => (.error .alreadyExists, t)) key value heap

/-- A new entry, or the value of the key replaced if it is present. -/
def set (t : Table) (key value : Bytes) (heap : σ) : Outcome σ Table :=
  t.store A (fun t slot => (.ok (), t.overwrite slot value)) key value heap

/-- The value of a key that is removed, and the table without it. -/
def take (t : Table) (key : Bytes) : Reply (Except Error Bytes × Table) :=
  if key.length = t.geometry.keySize then
    let p := t.probe key
    let answer :=
      match p.found with
      | some slot => (.ok (t.entryAt slot).value, t.bury slot)
      | none => (.error .notFound, t)
    ⟨answer, p.calls t⟩
  else ⟨(.error .invalidArgument, t), []⟩

/-- The table without the entry of a key. -/
def remove (t : Table) (key : Bytes) : Reply (Except Error Unit × Table) :=
  (t.take key).map fun (result, t) => (result.map fun _ => (), t)

end Table

end TagTable
