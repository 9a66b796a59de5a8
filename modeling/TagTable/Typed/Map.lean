import TagTable.Typed.Plain
import TagTable.Table.Lookup
import TagTable.Table.Update
import TagTable.Table.Visit

/-!
# Typed maps

A map from plain keys to plain values, kept as a table of their byte forms. Its strategy sees keys
only as bytes.

* `Map`, `Map.create`, `Map.withRoom`, `Map.ofLists`;
* `Map.get`, `contains`, `modify`, `insert`, `set`, `remove`;
* `Map.each`, `Map.filter`, `Map.reserve`, `Map.clear`, `Map.setStrategy`, `Map.copy`.
-/

namespace TagTable

/-- A map from `K` to `V`. -/
structure Map (K V : Type) where
  table : Table

/-- What a visitor of a map gives for an entry: its next state, the new value, and whether to
stop. -/
structure Map.Visit (τ V : Type) where
  state : τ
  value : V
  stop : Bool

namespace Map

variable {K V σ τ : Type} [Plain K] [Plain V]

/-- A map without a buffer. -/
def create (K V : Type) [Plain K] [Plain V] (s : Strategy) : Except Error (Map K V) :=
  (Table.create (EntryLayout.ofTypes K V) s).map Map.mk

/-- A map with room for a number of entries. -/
def withRoom (K V : Type) [Plain K] [Plain V] (A : Allocator σ) (capacity : Nat) (s : Strategy)
    (heap : σ) : Construction σ (Map K V) :=
  (Table.withRoom A (EntryLayout.ofTypes K V) capacity s heap).map Map.mk

/-- The number of entries. -/
def size (m : Map K V) : Nat := m.table.count

/-- The value of a key. -/
def get (m : Map K V) (key : K) : Reply (Option V) :=
  (m.table.get (Plain.encode key)).map fun value => value.map Plain.decode

/-- Whether a key has a value. -/
def contains (m : Map K V) (key : K) : Reply Bool := m.table.contains (Plain.encode key)

/-- The value of a key, and the map with `edit` of it in its place. -/
def modify (m : Map K V) (key : K) (edit : V → V) : Reply (Option V × Map K V) :=
  (m.table.modify (Plain.encode key) fun b => Plain.encode (edit (Plain.decode b))).map
    fun (value, table) => (value.map Plain.decode, ⟨table⟩)

/-- A value for a key that has none. -/
def insert (A : Allocator σ) (m : Map K V) (key : K) (value : V) (heap : σ) :
    Outcome σ (Map K V) :=
  (m.table.insert A (Plain.encode key) (Plain.encode value) heap).map Map.mk

/-- A value for a key, whether it has one or not. -/
def set (A : Allocator σ) (m : Map K V) (key : K) (value : V) (heap : σ) : Outcome σ (Map K V) :=
  (m.table.set A (Plain.encode key) (Plain.encode value) heap).map Map.mk

/-- The map without a key, and the value that it had. -/
def remove (m : Map K V) (key : K) : Reply (Except Error V × Map K V) :=
  (m.table.take (Plain.encode key)).map fun (result, table) =>
    (result.map Plain.decode, ⟨table⟩)

/-- Room for a number of further entries. -/
def reserve (A : Allocator σ) (m : Map K V) (additional : Nat) (heap : σ) : Outcome σ (Map K V) :=
  (m.table.reserve A additional heap).map Map.mk

/-- The map without its entries. -/
def clear (m : Map K V) : Map K V := ⟨m.table.clear⟩

/-- Another strategy for a map without entries. -/
def setStrategy (m : Map K V) (s : Strategy) : Except Error (Map K V) :=
  (m.table.setStrategy s).map Map.mk

/-- A copy with a buffer of its own. -/
def copy (A : Allocator σ) (m : Map K V) (heap : σ) : Construction σ (Map K V) :=
  (m.table.copy A heap).map Map.mk

/-- The visitor at all entries in slot order, until it stops. -/
def each (m : Map K V) (visitor : τ → K → V → Map.Visit τ V) (state : τ) : Sweep τ (Map K V) :=
  let sweep := m.table.each (fun state key value =>
    let visit := visitor state (Plain.decode key) (Plain.decode value)
    ⟨visit.state, Plain.encode visit.value, visit.stop⟩) state
  ⟨sweep.state, ⟨sweep.after⟩, sweep.stopped⟩

/-- The entries that a predicate accepts. -/
def filter (m : Map K V) (keep : τ → K → V → Bool × τ) (state : τ) : Selection τ (Map K V) :=
  let selection := m.table.filter (fun state key value =>
    keep state (Plain.decode key) (Plain.decode value)) state
  ⟨selection.state, ⟨selection.after⟩, selection.removed⟩

/-- All pairs set one after the other; when one fails the buffer is given back. -/
def setAll (A : Allocator σ) : List (K × V) → Map K V → σ → Construction σ (Map K V)
  | [], m, heap => ⟨.ok m, heap, .empty⟩
  | (key, value) :: rest, m, heap =>
    let o := m.set A key value heap
    match o.result with
    | .ok () =>
      let c := setAll A rest o.after o.heap
      { c with trace := o.trace ++ c.trace }
    | .error error =>
      let (released, heap) := o.after.table.giveBack A o.heap
      ⟨.error error, heap, o.trace ++ { heap := released }⟩

/-- The map of keys with their values; of a key that repeats the last value counts. -/
def ofLists (A : Allocator σ) (keys : List K) (values : List V) (s : Strategy) (heap : σ) :
    Construction σ (Map K V) :=
  if keys.length = values.length then
    let made := withRoom K V A keys.length s heap
    match made.answer with
    | .error _ => made
    | .ok m =>
      let c := setAll A (keys.zip values) m made.heap
      { c with trace := made.trace ++ c.trace }
  else ⟨.error .invalidArgument, heap, .empty⟩

end Map

end TagTable
