import TagTable.Memory.Word

/-!
# Blocks of memory

What is asked of an allocator and given back to it.

* `Block`; `Block.ofSizeAlign?`: the blocks that can be asked for.
-/

namespace TagTable

/-- The size and alignment of a block of memory, in bytes. -/
structure Block where
  size : Nat
  align : Nat
deriving DecidableEq

namespace Block

/-- The block of a given size, which must not pass `maxBlockSize` when rounded up to the
alignment. -/
def ofSizeAlign? (size align : Nat) : Option Block :=
  if nextMultiple size align ≤ maxBlockSize then some ⟨size, align⟩ else none

end Block

end TagTable
