import TagTable.Proofs.Run.Command

/-!
# Sessions

Several tables, each a copy of an earlier one, that share an allocator.

* `Session`, `Action`, `Report`: the tables, what is done to them, and what that shows;
* `Session.start`, `Session.act`, **`Session.run`**;
* `Strategy.Twin`, `Command.Twin`, `Action.Twin`: the same with other hashes.
-/

namespace TagTable

/-- Tables in order of creation, and the state of their allocator. -/
structure Session (σ : Type) where
  tables : List Table
  heap : σ

/-- An operation on one of the tables, or a copy of it, which becomes the last table. -/
inductive Action : Type 1 where
  | on (table : Nat) (command : Command)
  | copy (table : Nat)

/-- What a step of a session shows. -/
structure Report : Type 1 where
  /-- The answer, unless there is no such table. -/
  answer : Option Answer
  heap : List HeapEvent
  log : List LogLine
  /-- The number of entries, the capacity and the number of tombstones of every table. -/
  sizes : List (Nat × Nat × Nat)

/-- The number of entries, the capacity and the number of tombstones. -/
def Table.sizes (t : Table) : Nat × Nat × Nat := (t.count, t.capacity, t.tombstones)

namespace Session

variable {σ : Type} (A : Allocator σ)

/-- The report of a step that led to a session. -/
def report (w : Session σ) (answer : Option Answer) (trace : Trace) : Report :=
  { answer, heap := trace.heap, log := trace.log, sizes := w.tables.map Table.sizes }

/-- The session with a new table, if it could be made, and the report of making it. -/
def extend (tables : List Table) (made : Construction σ Table) : Report × Session σ :=
  let w : Session σ := { tables := tables ++ made.answer.toOption.toList, heap := made.heap }
  (w.report (some (.done (made.answer.map fun _ => ()))) made.trace, w)

/-- A session with a first table. -/
def start (e : EntryLayout) (s : Strategy) (o : Origin) (heap : σ) : Report × Session σ :=
  extend [] (o.make A e s heap)

/-- One action. -/
def act (w : Session σ) (a : Action) : Report × Session σ :=
  match a with
  | .on i c =>
    match w.tables[i]? with
    | none => (w.report none .empty, w)
    | some t =>
      let step := t.apply A c w.heap
      let after : Session σ := { tables := w.tables.set i step.after, heap := step.heap }
      (after.report (some step.answer) step.trace, after)
  | .copy i =>
    match w.tables[i]? with
    | none => (w.report none .empty, w)
    | some t => extend w.tables (t.copy A w.heap)

/-- **The reports of actions one after the other**, and the session at their end. -/
def run : List Action → Session σ → List Report × Session σ
  | [], w => ([], w)
  | a :: rest, w => ((w.act A a).1 :: (run rest (w.act A a).2).1, (run rest (w.act A a).2).2)

end Session

/-! ## Twins -/

/-- Two lawful strategies that agree on which keys are equal; their hashes have nothing in common. -/
structure Strategy.Twin (size : Nat) (s s' : Strategy) : Prop where
  left : s.Lawful size
  right : s'.Lawful size
  equal : ∀ a b : Bytes, a.length = size → b.length = size → s.equal a b = s'.equal a b

/-- Visitors that only make new values from keys and values, predicates that only test them, and all
operations that neither show an order nor replace the strategy. -/
def Command.OrderFree : Command → Prop
  | .each visitor _ => ∃ update : Bytes → Bytes → Bytes,
    ∀ state key value, visitor state key value = ⟨state, update key value, false⟩
  | .filter keep _ => ∃ test : Bytes → Bytes → Bool,
    ∀ state key value, keep state key value = (test key value, state)
  | .iterate | .setStrategy _ => False
  | _ => True

/-- The same operation, or two new strategies that are twins. -/
inductive Command.Twin (size : Nat) : Command → Command → Prop
  | same {c : Command} (h : c.OrderFree) : Twin size c c
  | setStrategy {s s' : Strategy} (h : s.Twin size s') : Twin size (.setStrategy s) (.setStrategy s')

/-- Twin operations on the same table, or copies of it. -/
inductive Action.Twin (size : Nat) : Action → Action → Prop
  | on (i : Nat) {c c' : Command} (h : c.Twin size c') : Twin size (.on i c) (.on i c')
  | copy (i : Nat) : Twin size (.copy i) (.copy i)

end TagTable
