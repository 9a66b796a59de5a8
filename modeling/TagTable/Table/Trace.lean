import TagTable.Error
import TagTable.Slots.SlotSet
import TagTable.Memory.Allocator
import TagTable.Keys.Strategy

/-!
# Traces

What an operation did besides giving an answer: the uses of the strategy, the requests to the
allocator and the lines written to the log, each in order.

* `Position`, `Call`, `LogLine`, `Trace`;
* `Reply`: an answer with the uses of the strategy that led to it;
* `Outcome`: what an operation that may allocate leaves behind;
* `Construction`: what making something with an allocator gives.
-/

namespace TagTable

/-- A slot of a table. -/
structure Position where
  group : Nat
  slot : SlotIndex
deriving DecidableEq

/-- One use of a strategy. -/
inductive Call where
  | hash (key : Bytes)
  /-- The key stored at a slot was compared with a given key. -/
  | equal (slot : Position) (stored given : Bytes)
deriving DecidableEq

/-- A line of the log. -/
inductive LogLine where
  | resized (old new live discarded : Nat)
  | overflow (capacity : Nat)
  | refused (size capacity : Nat)
deriving DecidableEq

namespace LogLine

/-- The line as it is written, after its level. -/
def text : LogLine → String
  | resized old new live discarded =>
    s!"TRACE hash table resized from {old} to {new} slots ({live} live, {discarded} tombstones discarded)"
  | overflow capacity => s!"DEBUG hash table capacity {capacity} overflows the address space"
  | refused size capacity => s!"DEBUG allocator refused {size} bytes for {capacity} slots"

end LogLine

/-- What an operation did, in order. -/
structure Trace where
  heap : List HeapEvent := []
  log : List LogLine := []
  calls : List Call := []
deriving DecidableEq

namespace Trace

/-- Nothing happened. -/
def empty : Trace := {}

/-- One after the other. -/
def append (s t : Trace) : Trace :=
  { heap := s.heap ++ t.heap, log := s.log ++ t.log, calls := s.calls ++ t.calls }

instance : Append Trace := ⟨append⟩

/-- A trace with more uses of the strategy at its end. -/
def addCalls (t : Trace) (calls : List Call) : Trace := { t with calls := t.calls ++ calls }

end Trace

/-- An answer with the uses of the strategy that led to it. -/
structure Reply (α : Type) where
  answer : α
  calls : List Call

namespace Reply

/-- The same calls with another answer. -/
def map {α β : Type} (f : α → β) (r : Reply α) : Reply β := ⟨f r.answer, r.calls⟩

end Reply

/-- What an operation on a `τ` that may allocate leaves behind. -/
structure Outcome (σ τ : Type) where
  result : Except Error Unit
  after : τ
  heap : σ
  trace : Trace

namespace Outcome

variable {σ τ υ : Type}

/-- The same outcome of another kind of table. -/
def map (f : τ → υ) (o : Outcome σ τ) : Outcome σ υ := ⟨o.result, f o.after, o.heap, o.trace⟩

/-- The outcome of an operation that did nothing but fail. -/
def fail (e : Error) (state : τ) (heap : σ) : Outcome σ τ := ⟨.error e, state, heap, Trace.empty⟩

end Outcome

/-- A `τ` made with the help of an allocator, or the reason why it was not. -/
structure Construction (σ τ : Type) where
  answer : Except Error τ
  heap : σ
  trace : Trace

namespace Construction

variable {σ τ υ : Type}

/-- The same construction of another kind of table. -/
def map (f : τ → υ) (c : Construction σ τ) : Construction σ υ :=
  ⟨c.answer.map f, c.heap, c.trace⟩

end Construction

end TagTable
