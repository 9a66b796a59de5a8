import TagTable.Table.Cursor
import TagTable.Table.Lookup
import TagTable.Table.Update
import TagTable.Table.Visit

/-!
# Commands

The operations on a table as data, so that sequences of operations can be spoken about.

* `Command`, `Answer`, `Step`, `Table.apply`: one operation;
* `Table.demand`, `Table.prepare`: the reservation it makes;
* `Table.run`, `Table.trail`: one operation after the other, and all their steps;
* `Origin`, `Reachable`: first tables, and those that operations can lead to, whatever the strategies
  and allocators.
-/

namespace TagTable

/-- An operation on a table. -/
inductive Command : Type 1 where
  | insert (key value : Bytes)
  | set (key value : Bytes)
  | get (key : Bytes)
  | modify (key : Bytes) (edit : Bytes → Bytes)
  | contains (key : Bytes)
  | remove (key : Bytes)
  | reserve (additional : Nat)
  | clear
  | each {τ : Type} (visitor : τ → Bytes → Bytes → Visit τ) (state : τ)
  | filter {τ : Type} (keep : τ → Bytes → Bytes → Bool × τ) (state : τ)
  | iterate
  | setStrategy (strategy : Strategy)

/-- What an operation answers. -/
inductive Answer : Type 1 where
  | done (result : Except Error Unit)
  | value (value : Option Bytes)
  | present (present : Bool)
  /-- The visitor's last state, and whether the traversal went to its end. -/
  | swept {τ : Type} (state : τ) (result : Except Error Unit)
  /-- The predicate's last state. -/
  | selected {τ : Type} (state : τ)
  | listed (entries : List Entry)

/-- What an operation leaves behind. -/
structure Step (σ : Type) : Type 1 where
  answer : Answer
  after : Table
  heap : σ
  trace : Trace

namespace Table

variable {σ : Type} (A : Allocator σ)

/-- How many entries an operation reserves room for, if it makes a reservation. -/
def demand (t : Table) : Command → Option Nat
  | .insert key value | .set key value => if t.fits key value then some 1 else none
  | .reserve additional => some additional
  | _ => none

/-- The reservation that an operation makes before anything else. -/
def prepare (t : Table) (c : Command) (heap : σ) : Outcome σ Table :=
  match t.demand c with
  | some additional => t.reserve A additional heap
  | none => ⟨.ok (), t, heap, .empty⟩

/-- One operation on a table. -/
def apply (t : Table) (c : Command) (heap : σ) : Step σ :=
  match c with
  | .insert key value =>
    let o := t.insert A key value heap
    ⟨.done o.result, o.after, o.heap, o.trace⟩
  | .set key value =>
    let o := t.set A key value heap
    ⟨.done o.result, o.after, o.heap, o.trace⟩
  | .get key =>
    let r := t.get key
    ⟨.value r.answer, t, heap, { calls := r.calls }⟩
  | .modify key edit =>
    let r := t.modify key edit
    ⟨.value r.answer.1, r.answer.2, heap, { calls := r.calls }⟩
  | .contains key =>
    let r := t.contains key
    ⟨.present r.answer, t, heap, { calls := r.calls }⟩
  | .remove key =>
    let r := t.remove key
    ⟨.done r.answer.1, r.answer.2, heap, { calls := r.calls }⟩
  | .reserve additional =>
    let o := t.reserve A additional heap
    ⟨.done o.result, o.after, o.heap, o.trace⟩
  | .clear => ⟨.done (.ok ()), t.clear, heap, .empty⟩
  | .each visitor state =>
    let sweep := t.each visitor state
    ⟨.swept sweep.state sweep.result, sweep.after, heap, .empty⟩
  | .filter keep state =>
    let selection := t.filter keep state
    ⟨.selected selection.state, selection.after, heap, .empty⟩
  | .iterate => ⟨.listed t.cursor.drain, t, heap, .empty⟩
  | .setStrategy s =>
    match t.setStrategy s with
    | .ok t' => ⟨.done (.ok ()), t', heap, .empty⟩
    | .error error => ⟨.done (.error error), t, heap, .empty⟩

/-- The table and the allocator's state after operations one after the other. -/
def run : List Command → Table → σ → Table × σ
  | [], t, heap => (t, heap)
  | c :: rest, t, heap => run rest (t.apply A c heap).after (t.apply A c heap).heap

/-- The steps of operations one after the other, each with the table that it found. -/
def trail : List Command → Table → σ → List (Table × Step σ)
  | [], _, _ => []
  | c :: rest, t, heap =>
    (t, t.apply A c heap) :: trail rest (t.apply A c heap).after (t.apply A c heap).heap

end Table

/-- How a first table is made. -/
inductive Origin where
  | empty
  | withRoom (capacity : Nat)

/-- A first table for given entries. -/
def Origin.make {σ : Type} (A : Allocator σ) (e : EntryLayout) (s : Strategy) (o : Origin)
    (heap : σ) : Construction σ Table :=
  match o with
  | .empty => ⟨Table.create e s, heap, .empty⟩
  | .withRoom capacity => Table.withRoom A e capacity s heap

/-- **The tables that operations can lead to.** Each operation may use an allocator of its own in any
state. -/
inductive Reachable : Table → Prop
  | make {σ : Type} {A : Allocator σ} {e : EntryLayout} {s : Strategy} {o : Origin} {heap : σ}
      {t : Table} (h : (o.make A e s heap).answer = .ok t) : Reachable t
  | apply {σ : Type} {t : Table} (ht : Reachable t) (A : Allocator σ) (c : Command) (heap : σ) :
      Reachable (t.apply A c heap).after
  | copy {σ : Type} {A : Allocator σ} {heap : σ} {t u : Table} (ht : Reachable t)
      (h : (t.copy A heap).answer = .ok u) : Reachable u

theorem Reachable.run {σ : Type} (A : Allocator σ) (cs : List Command) {t : Table} (heap : σ)
    (ht : Reachable t) : Reachable (t.run A cs heap).1 := by
  induction cs generalizing t heap with
  | nil => exact ht
  | cons c cs ih => exact ih _ (ht.apply A c heap)

end TagTable
