import KeyServer.Double

/-!
# Rounding a quotient to a double

`Double.nearest num den` is the magnitude of the double nearest to `num / den`; of two
equally near ones the even one, and infinity from half a step above the greatest finite
double on.  The magnitude of `m * 2 ^ (e - 1074)` with `m` below `2 ^ 53` and, unless `e`
is zero, not below `2 ^ 52`, is `e * 2 ^ 52 + m`; rounding up into the next binade is
then a carry and needs no case of its own.
-/

namespace KeyServer.Double

/-- The nearest integer to `num / den`, to the even one of two. -/
def divideToEven (num den : Nat) : Nat :=
  let q := num / den
  let r := num % den
  if 2 * r > den ∨ 2 * r = den ∧ q % 2 = 1 then q + 1 else q

/-- The greatest `k` with `2 ^ k ≤ num / den`, for positive numbers. -/
def binaryExponent (num den : Nat) : Int :=
  let k : Int := num.log2 - den.log2
  let reached := if 0 ≤ k then den <<< k.toNat ≤ num else den ≤ num <<< (-k).toNat
  if reached then k else k - 1

/-- The magnitude of the double nearest to `num / den`, for a positive `den`. -/
def nearest (num den : Nat) : Nat :=
  if num = 0 then 0
  else
    let e := (binaryExponent num den + 1022).toNat
    let m := if e ≤ 1074 then divideToEven (num <<< (1074 - e)) den
      else divideToEven num (den <<< (e - 1074))
    min (e * binade + m) infiniteMagnitude

end KeyServer.Double
