import TagTable.Bytes
import TagTable.Memory.EntryLayout
import TagTable.Text.Style

/-!
# Plain values

A plain value is nothing but its bytes: every value has a byte form of a fixed size, and every byte
string of that size is the form of a value.

* `Plain`: the size, the alignment and the byte form of a type;
* `Plain.Lawful`: encoding and decoding undo each other;
* `EntryLayout.ofTypes`: the layout of entries with given types of keys and values;
* `DebugText`: the debug text of a value.
-/

namespace TagTable

/-- A type of values of fixed size in memory. -/
class Plain (α : Type) where
  size : Nat
  align : Nat
  encode : α → Bytes
  decode : Bytes → α

/-- Encoding and decoding undo each other on byte strings of the right size. -/
class Plain.Lawful (α : Type) [Plain α] : Prop where
  length_encode : ∀ a : α, (Plain.encode a).length = Plain.size α
  decode_encode : ∀ a : α, Plain.decode (Plain.encode a) = a
  encode_decode : ∀ b : Bytes, b.length = Plain.size α → Plain.encode (Plain.decode b : α) = b

/-- The layout of entries with keys in `K` and values in `V`. -/
def EntryLayout.ofTypes (K V : Type) [Plain K] [Plain V] : EntryLayout :=
  { keySize := Plain.size K
    keyAlign := Plain.align K
    valueSize := Plain.size V
    valueAlign := Plain.align V }

/-- A type whose values have a debug text. -/
class DebugText (α : Type) where
  debugText : Style → α → String

export DebugText (debugText)

end TagTable
