import KeyServer.Double.Nearest
import KeyServer.Text.Ascii

/-!
# Numerals of doubles

A double is written as an optional sign and one of

* digits with at most one point among or around them, at least one digit, and an optional
  exponent: `e` or `E`, an optional sign, digits;
* `inf`, `infinity` or `nan` in any case of the letters.

The value of a numeral is rounded once, from the exact quotient, however many digits it
has.  Numerals far outside the range of the doubles are decided by their length alone, so
that no power of ten of astronomic size is ever computed.
-/

namespace KeyServer.Double

/-- The number `digits * 10 ^ exponent`, with the digits as bytes. -/
structure Scientific where
  digits : Bytes
  exponent : Int

/-- The exponent part of a numeral: nothing, or a mark and a signed string of digits. -/
def exponentPart? : Bytes → Option Int
  | [] => some 0
  | mark :: rest =>
    if mark = 101 ∨ mark = 69 then
      let (negative, digits) : Bool × Bytes := match rest with
        | 43 :: digits => (false, digits)
        | 45 :: digits => (true, digits)
        | digits => (false, digits)
      if !digits.isEmpty && digits.all Ascii.isDigit then
        let n : Int := Ascii.digitsValue digits
        some (if negative then -n else n)
      else none
    else none

/-- A numeral without sign that has digits. -/
def scientific? (b : Bytes) : Option Scientific :=
  let whole := b.takeWhile Ascii.isDigit
  let afterWhole := b.dropWhile Ascii.isDigit
  let (places, rest) : Bytes × Bytes := match afterWhole with
    | 46 :: r => (r.takeWhile Ascii.isDigit, r.dropWhile Ascii.isDigit)
    | r => ([], r)
  let digits := whole ++ places
  if digits.isEmpty then none
  else (exponentPart? rest).map fun e => ⟨digits, e - places.length⟩

/-- The magnitude of the double nearest to a numeral. -/
def Scientific.magnitude (s : Scientific) : Nat :=
  let significant := s.digits.dropWhile (· = 48)
  let top : Int := significant.length + s.exponent
  if significant.isEmpty ∨ top < -330 then 0
  else if 310 < top then infiniteMagnitude
  else
    let n := Ascii.digitsValue significant
    if 0 ≤ s.exponent then nearest (n * Nat.pow 10 s.exponent.toNat) 1
    else nearest n (Nat.pow 10 (-s.exponent).toNat)

/-- The magnitude of a pattern that is not a number. -/
def quietNaN : Nat := infiniteMagnitude + binade / 2

/-- The magnitude written by a numeral without sign. -/
def magnitude? (b : Bytes) : Option Nat :=
  if Ascii.sameLetters b (Ascii.bytes "inf") || Ascii.sameLetters b (Ascii.bytes "infinity") then
    some infiniteMagnitude
  else if Ascii.sameLetters b (Ascii.bytes "nan") then some quietNaN
  else (scientific? b).map Scientific.magnitude

/-- The double that a numeral denotes. -/
def ofBytes? (b : Bytes) : Option Double :=
  match b with
  | 43 :: rest => (magnitude? rest).map (ofMagnitude false)
  | 45 :: rest => (magnitude? rest).map (ofMagnitude true)
  | rest => (magnitude? rest).map (ofMagnitude false)

end KeyServer.Double
