/-!
# Doubles

A double is its 64-bit pattern.  Nothing here computes with machine floats: patterns are
compared through the integer `Double.key`, which puts the numbers in their order and
makes the two zeros one.  A pattern above infinity is not a number, and neither equals nor
precedes anything.
-/

namespace KeyServer

/-- A double-precision number, as the bits that stand for it. -/
structure Double where
  bits : UInt64
  deriving DecidableEq, Repr, Inhabited

namespace Double

/-- The weight of the sign bit. -/
def signWeight : Nat := 0x8000000000000000

/-- The distance of two magnitudes that differ by one in the exponent. -/
def binade : Nat := 0x10000000000000

/-- The bits below the sign. -/
def magnitude (d : Double) : Nat := d.bits.toNat % signWeight

/-- Whether the sign bit is set. -/
def isNegative (d : Double) : Bool := signWeight ≤ d.bits.toNat

/-- The magnitude of infinity; greater ones are not numbers. -/
def infiniteMagnitude : Nat := 0x7FF * binade

/-- The double with a given sign and magnitude. -/
def ofMagnitude (negative : Bool) (magnitude : Nat) : Double :=
  ⟨UInt64.ofNat (magnitude + if negative then signWeight else 0)⟩

/-- Whether the pattern is not a number. -/
def isNaN (d : Double) : Bool := infiniteMagnitude < d.magnitude

/-- The place of a number in the order of the numbers. -/
def key (d : Double) : Int := if d.isNegative then -d.magnitude else d.magnitude

/-- Numeric equality: both are numbers, and the same one. -/
def equals (a b : Double) : Bool := !a.isNaN && !b.isNaN && a.key == b.key

/-- Numeric order: both are numbers, and the first is smaller. -/
def less (a b : Double) : Bool := !a.isNaN && !b.isNaN && decide (a.key < b.key)

end Double

end KeyServer
