import KeyServer.Text.Ascii

/-!
# Integer numerals

An integer is written as an optional sign and one or more ASCII digits, in any number and
with any leading zeros.  `Integer.ofBytes?` reads the numerals of the integers that fit
into a signed 64-bit word, and nothing else.
-/

namespace KeyServer.Integer

/-- The natural number written by one or more digits. -/
def digits? (b : Bytes) : Option Nat :=
  if !b.isEmpty && b.all Ascii.isDigit then some (Ascii.digitsValue b) else none

/-- The integer written by an optional sign and digits. -/
def signed? : Bytes → Option Int
  | [] => none
  | b :: bs =>
    if b = 43 then (digits? bs).map Int.ofNat
    else if b = 45 then (digits? bs).map fun n => -Int.ofNat n
    else (digits? (b :: bs)).map Int.ofNat

/-- Whether an integer fits into a signed 64-bit word. -/
def fitsWord (i : Int) : Bool := -0x8000000000000000 ≤ i && i < 0x8000000000000000

/-- The integer that a numeral denotes, if it fits into a signed 64-bit word. -/
def ofBytes? (b : Bytes) : Option Int := (signed? b).filter fitsWord

end KeyServer.Integer
