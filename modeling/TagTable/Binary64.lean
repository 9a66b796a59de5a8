import TagTable.Bytes

/-!
# Double precision numbers

A double as its 64 bits, so that every not-a-number keeps its payload when it is stored.

* `Binary64`, `Binary64.isNaN`, `significand`, `exponent`: the parts of the bits;
* `Binary64.addInt`: the sum with a signed integer.
-/

namespace TagTable

/-- A double, given by its bits. -/
structure Binary64 where
  bits : UInt64
deriving DecidableEq

namespace Binary64

variable (x : Binary64)

/-- The sign bit. -/
def negative : Bool := x.bits >>> 63 != 0

/-- The eleven bits of the exponent. -/
def field : Nat := ((x.bits >>> 52) &&& 0x7ff).toNat

/-- The bits below the exponent. -/
def fraction : Nat := (x.bits &&& 0xfffffffffffff).toNat

/-- Not a number. -/
def isNaN : Bool := x.field == 2047 && x.fraction != 0

/-- One of the two infinities. -/
def isInfinite : Bool := x.field == 2047 && x.fraction == 0

/-- The integer that, times two to the power `exponent`, is the magnitude of a finite number. -/
def significand : Nat := if x.field = 0 then x.fraction else x.fraction + 4503599627370496

/-- The power of two by which `significand` is scaled. -/
def exponent : Int := (max x.field 1 : Nat) - 1075

/-- The bits of a number of the machine. -/
def ofFloat (f : Float) : Binary64 := ⟨f.toBits⟩

/-- The number of the machine with these bits. -/
def toFloat : Float := Float.ofBits x.bits

/-- The sum with a signed integer, rounded to a double after each step. A not-a-number keeps its
payload and becomes a quiet one. -/
def addInt (n : Int64) : Binary64 :=
  if x.isNaN then ⟨x.bits ||| 0x0008000000000000⟩ else ofFloat (x.toFloat + n.toFloat)

end Binary64

end TagTable
