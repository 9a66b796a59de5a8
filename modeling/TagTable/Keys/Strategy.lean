import TagTable.Bytes

/-!
# Key strategies

A table does not interpret its keys: a strategy hashes their bytes and decides which are equal.
Nothing is asked of the two functions by the type; `Strategy.Lawful` says what a caller promises.

* `Strategy`, `Strategy.ofHash`: byte equality with a given hash;
* `Strategy.Lawful`: equality is an equivalence on keys of one size, and equal keys have equal
  hashes; `Strategy.lawful_ofHash`: byte equality is lawful with any hash.
-/

namespace TagTable

/-- How keys are hashed and compared. -/
structure Strategy where
  /-- The text that stands for the strategy in debug output. -/
  label : String
  hash : Bytes → UInt64
  /-- Whether a stored key, given first, equals a key that is looked up. -/
  equal : Bytes → Bytes → Bool

namespace Strategy

/-- Hashes of a given function, with equality of bytes. -/
def ofHash (label : String) (hash : Bytes → UInt64) : Strategy :=
  { label, hash, equal := fun a b => a == b }

/-- On keys of `size` bytes `equal` is an equivalence that the hash respects. -/
structure Lawful (s : Strategy) (size : Nat) : Prop where
  refl : ∀ a : Bytes, a.length = size → s.equal a a = true
  symm : ∀ a b : Bytes, a.length = size → b.length = size → s.equal a b = true → s.equal b a = true
  trans : ∀ a b c : Bytes, a.length = size → b.length = size → c.length = size →
    s.equal a b = true → s.equal b c = true → s.equal a c = true
  hash_eq : ∀ a b : Bytes, a.length = size → b.length = size →
    s.equal a b = true → s.hash a = s.hash b

theorem lawful_ofHash (label : String) (hash : Bytes → UInt64) (size : Nat) :
    (ofHash label hash).Lawful size where
  refl a _ := by simp [ofHash]
  symm a b _ _ h := by simp_all [ofHash]
  trans a b c _ _ _ h₁ h₂ := by simp_all [ofHash]
  hash_eq a b _ _ h := by simp_all [ofHash]

end Strategy

end TagTable
