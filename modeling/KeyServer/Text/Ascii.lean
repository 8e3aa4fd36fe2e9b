import KeyServer.Bytes

/-!
# ASCII letters and digits

Command names and numerals arrive as byte strings.  Only ASCII counts: a byte of 128 or
more is no letter and no digit, and equals only itself.
-/

namespace KeyServer.Ascii

/-- A capital letter becomes small; every other byte stays. -/
def lower (b : UInt8) : UInt8 := if 65 ≤ b ∧ b ≤ 90 then b + 32 else b

/-- The same bytes up to the case of ASCII letters. -/
def sameLetters (a b : Bytes) : Bool := a.map lower == b.map lower

/-- Whether a byte is one of the digits from zero to nine. -/
def isDigit (b : UInt8) : Bool := 48 ≤ b && b ≤ 57

/-- The number a string of digits denotes. -/
def digitsValue (digits : Bytes) : Nat := digits.foldl (fun n d => 10 * n + (d.toNat - 48)) 0

/-- The bytes of an ASCII text. -/
def bytes (text : String) : Bytes := text.toList.map fun c => UInt8.ofNat c.toNat

end KeyServer.Ascii
