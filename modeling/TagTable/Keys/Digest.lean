import TagTable.Keys.Strategy

/-!
# Hashes of byte strings

Hash functions that read a key from its first byte to its last, and the strategies they make
together with byte equality.

* `fnv1a`: 64 bits wide, `djb2` and `sdbm`: 32 bits, `elf`: 28 bits;
* `Hasher`: a state that absorbs bytes, `Hasher.polynomial`: one with multiplier 31.
-/

namespace TagTable

namespace Digest

/-- The hash of no bytes. -/
def fnvOffset : UInt64 := 0xcbf29ce484222325

/-- The factor of each round. -/
def fnvPrime : UInt64 := 0x100000001b3

/-- Each byte is xored into the state, which is then multiplied by a prime. -/
def fnv1a (key : Bytes) : UInt64 :=
  key.foldl (fun hash byte => (hash ^^^ byte.toUInt64) * fnvPrime) fnvOffset

/-- Each byte is added to 33 times the state, by a shift and an addition. -/
def djb2 (key : Bytes) : UInt64 :=
  (key.foldl (fun (hash : UInt32) byte => (hash <<< 5) + hash + byte.toUInt32) 5381).toUInt64

/-- Each byte is added to 65599 times the state, by two shifts and a subtraction. -/
def sdbm (key : Bytes) : UInt64 :=
  (key.foldl (fun (hash : UInt32) byte =>
    byte.toUInt32 + (hash <<< 6) + (hash <<< 16) - hash) 0).toUInt64

/-- Each byte is added to the state shifted by four; the top four bits are folded back. -/
def elf (key : Bytes) : UInt64 :=
  (key.foldl (fun (hash : UInt32) byte =>
    let hash := (hash <<< 4) + byte.toUInt32
    let high := hash &&& 0xf0000000
    (hash ^^^ (high >>> 24)) &&& ~~~high) 0).toUInt64

end Digest

/-- A hash state that absorbs bytes one by one. -/
structure Hasher where
  start : UInt64
  absorb : UInt64 → UInt8 → UInt64

namespace Hasher

/-- The hash of a key, byte by byte. -/
def run (h : Hasher) (key : Bytes) : UInt64 := key.foldl h.absorb h.start

/-- Each byte, plus one, is added to 31 times the state. -/
def polynomial (seed : UInt64) : Hasher :=
  { start := seed, absorb := fun state byte => state * 31 + byte.toUInt64 + 1 }

end Hasher

namespace Strategy

/-- Keys hashed by `Digest.fnv1a`. -/
def fnv1a : Strategy := ofHash "Fnv1a" Digest.fnv1a

/-- Keys hashed by `Digest.djb2`. -/
def djb2 : Strategy := ofHash "Djb2" Digest.djb2

/-- Keys hashed by `Digest.sdbm`. -/
def sdbm : Strategy := ofHash "Sdbm" Digest.sdbm

/-- Keys hashed by `Digest.elf`. -/
def elf : Strategy := ofHash "Elf" Digest.elf

/-- Keys hashed by a given hasher. -/
def hashed (h : Hasher) : Strategy := ofHash "hashed" h.run

/-- The strategy of tables whose maker asks for no other. -/
def standard : Strategy := ofHash "default" Digest.fnv1a

end Strategy

end TagTable
