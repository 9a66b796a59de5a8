import TagTable.Keys.Digest

/-!
# Strategies from two functions

A strategy of any hash and any equality, and a stock of both for keys of which only a part counts.

* `Strategy.ofFunctions`;
* `KeyHash.constant`, `firstByte`, `littleEndian`, `foldedFnv1a`;
* `KeyRelation.bytes`, `firstBytes`, `never`, `always`, `ignoringCase`, `firstAtMost`.
-/

namespace TagTable

/-- The strategy of a hash and an equality, about which nothing is known. -/
def Strategy.ofFunctions (hash : Bytes → UInt64) (equal : Bytes → Bytes → Bool) : Strategy :=
  { label := "FnStrategy \x7b .. \x7d", hash, equal }

/-- An ASCII capital letter as its small letter, any other byte as it is. -/
def foldCase (byte : UInt8) : UInt8 := if 65 ≤ byte ∧ byte ≤ 90 then byte + 32 else byte

namespace KeyHash

/-- The same hash for all keys. -/
def constant (hash : UInt64) : Bytes → UInt64 := fun _ => hash

/-- The first byte of a key, or zero. -/
def firstByte : Bytes → UInt64
  | [] => 0
  | byte :: _ => byte.toUInt64

/-- The first eight bytes of a key as one word. -/
def littleEndian (key : Bytes) : UInt64 := UInt64.ofNat (Bytes.toNat (key.take 8))

/-- FNV-1a of the key with ASCII letters made small. -/
def foldedFnv1a (key : Bytes) : UInt64 := Digest.fnv1a (key.map foldCase)

end KeyHash

namespace KeyRelation

/-- Equality of bytes. -/
def bytes (a b : Bytes) : Bool := a == b

/-- Equality of the first `n` bytes. -/
def firstBytes (n : Nat) (a b : Bytes) : Bool := a.take n == b.take n

/-- No two keys are equal. -/
def never (_ _ : Bytes) : Bool := false

/-- All keys are equal. -/
def always (_ _ : Bytes) : Bool := true

/-- The same bytes up to the case of ASCII letters. -/
def ignoringCase (a b : Bytes) : Bool := a.map foldCase == b.map foldCase

/-- The first byte of `a` is at most that of `b`; a key without bytes is below all others. -/
def firstAtMost : Bytes → Bytes → Bool
  | [], _ => true
  | _ :: _, [] => false
  | x :: _, y :: _ => x ≤ y

end KeyRelation

end TagTable
