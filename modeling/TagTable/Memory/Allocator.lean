import TagTable.Memory.Block

/-!
# Allocators

A table asks an allocator for its buffer and gives it back. The allocator's state is passed along
explicitly, so tables that share an allocator share its state.

* `Allocator`, `HeapEvent`;
* `Allocator.unlimited`: grants every request;
* `Quota`, `Allocator.quota`: grants a number of requests of bounded size and alignment.
-/

namespace TagTable

/-- How requests for memory are answered, in terms of a state. -/
structure Allocator (σ : Type) where
  /-- Whether a block is granted, and the state after the request. -/
  request : Block → σ → Bool × σ
  /-- The state after a block is given back. -/
  release : Block → σ → σ

/-- What happened at an allocator. -/
inductive HeapEvent where
  | granted (block : Block)
  | refused (block : Block)
  | released (block : Block)
deriving DecidableEq

/-- The limits under which requests are granted. -/
structure Quota where
  /-- How many more requests are granted, if that is limited. -/
  budget : Option Nat
  maxSize : Nat
  maxAlign : Nat
deriving DecidableEq

namespace Quota

/-- Whether a block is within the limits. -/
def allows (q : Quota) (block : Block) : Bool :=
  block.size ≤ q.maxSize && block.align ≤ q.maxAlign && q.budget != some 0

/-- One request less to grant. -/
def spend (q : Quota) : Quota := { q with budget := q.budget.map (· - 1) }

end Quota

namespace Allocator

/-- An allocator that grants everything. -/
def unlimited {σ : Type} : Allocator σ :=
  { request := fun _ state => (true, state), release := fun _ state => state }

/-- An allocator that grants what its quota allows. -/
def quota : Allocator Quota :=
  { request := fun block q => if q.allows block then (true, q.spend) else (false, q)
    release := fun _ q => q }

end Allocator

end TagTable
