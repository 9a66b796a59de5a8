/-!
# Entry layouts

The size and the alignment of one key and of one value, all that a table knows about its entries.

* `EntryLayout`; `EntryLayout.ofSizes`: alignments that default to the sizes.
-/

namespace TagTable

/-- Size and alignment of keys and values, in bytes. -/
structure EntryLayout where
  keySize : Nat
  keyAlign : Nat
  valueSize : Nat
  valueAlign : Nat
deriving DecidableEq

namespace EntryLayout

/-- Each alignment is the size, or one for an empty key or value. -/
def ofSizes (keySize valueSize : Nat) : EntryLayout :=
  { keySize
    keyAlign := if keySize = 0 then 1 else keySize
    valueSize
    valueAlign := if valueSize = 0 then 1 else valueSize }

end EntryLayout

end TagTable
