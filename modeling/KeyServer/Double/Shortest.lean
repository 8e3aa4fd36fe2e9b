import KeyServer.Double

/-!
# The shortest text of a double

The text of a double has the fewest digits that read back as the same double, and of
these the ones nearest to it; of two equally near ones it has the greater.  It is
positional for every size, with a point only where places follow it.

The search works on exact integers.  A double `m * 2 ^ q` is the middle of the numbers
that round to it, and they reach half a step to both sides, a quarter step below a power
of two; the ends belong to it iff `m` is even.  The powers of ten are tried from a coarse
one downwards, and the first one with a multiple in that interval has the fewest digits.
-/

namespace KeyServer.Double

/-- The numbers that round to a double: the double is `centre * 2 ^ scale`, and the ends
of the interval are `low` and `high` in the same unit. -/
structure Interval where
  low : Nat
  centre : Nat
  high : Nat
  scale : Int
  closed : Bool

/-- The interval of a finite magnitude. -/
def interval (magnitude : Nat) : Interval :=
  let field : Nat := magnitude / binade
  let fraction : Nat := magnitude % binade
  let m := if field = 0 then fraction else fraction + binade
  let q : Int := if field = 0 then -1074 else (field : Int) - 1075
  let below := if fraction = 0 ∧ 1 < field then 1 else 2
  ⟨4 * m - below, 4 * m, 4 * m + 2, q - 2, m % 2 = 0⟩

/-- The multiple of `10 ^ k` in the interval that is nearest to its centre, divided by
`10 ^ k`; the second part tells whether there is one. -/
def Interval.onGrid (i : Interval) (k : Int) : Nat × Bool :=
  let a := Nat.pow 2 i.scale.toNat * Nat.pow 10 (-k).toNat
  let b := Nat.pow 2 (-i.scale).toNat * Nat.pow 10 k.toNat
  let inside (x : Nat) : Bool :=
    if i.closed then i.low * a ≤ x * b && x * b ≤ i.high * a
    else i.low * a < x * b && x * b < i.high * a
  let down := i.centre * a / b
  let up := down + 1
  let upIsNearer := b ≤ 2 * (i.centre * a - down * b)
  match inside down, inside up with
  | true, true => (if upIsNearer then up else down, true)
  | true, false => (down, true)
  | false, true => (up, true)
  | false, false => (down, false)

/-- Tries the powers of ten from `10 ^ k` downwards. -/
def Interval.search (i : Interval) : (tries : Nat) → (k : Int) → Nat × Int
  | 0, k => ((i.onGrid k).1, k)
  | tries + 1, k =>
    let (digits, found) := i.onGrid k
    if found then (digits, k) else i.search tries (k - 1)

/-- An exponent of ten at most three above that of the first digit, from the exponent of
two and the logarithm of two. -/
def coarseExponent (i : Interval) : Int := ((i.centre.log2 : Int) + i.scale) * 30103 / 100000 + 2

/-- The shortest digits of a positive finite magnitude, and the power of ten of the last. -/
def shortest (magnitude : Nat) : Nat × Int :=
  let i := interval magnitude
  i.search 24 (coarseExponent i)

/-- The positional text of `digits * 10 ^ exponent`. -/
def positional (digits : Nat) (exponent : Int) : String :=
  let ds := Nat.toDigits 10 digits
  let zeros (n : Nat) : List Char := List.replicate n '0'
  let places := (-exponent).toNat
  String.ofList <|
    if 0 ≤ exponent then ds ++ zeros exponent.toNat
    else if places < ds.length then
      ds.take (ds.length - places) ++ '.' :: ds.drop (ds.length - places)
    else '0' :: '.' :: zeros (places - ds.length) ++ ds

/-- The text of a double. -/
def text (d : Double) : String :=
  let sign := if d.isNegative then "-" else ""
  let m := d.magnitude
  if d.isNaN then "NaN"
  else if m = infiniteMagnitude then sign ++ "inf"
  else if m = 0 then sign ++ "0"
  else
    let (digits, exponent) := shortest m
    sign ++ positional digits exponent

end KeyServer.Double
