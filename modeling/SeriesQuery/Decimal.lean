/-!
Decimal numbers, and which of them a double can hold.

A number is taken for the double nearest to it. The largest finite one is
`2 ^ 1024 - 2 ^ 971`; from half a step beyond it on, that is from `2 ^ 1024 - 2 ^ 970`
on, the nearest one is infinite.
-/

namespace SeriesQuery

/-- The number `mantissa * 10 ^ exponent`. -/
structure Decimal where
  mantissa : Int
  exponent : Int
deriving DecidableEq, Repr, Inhabited

namespace Decimal

/-- The least size of a number that is taken for an infinity. -/
def doubleLimit : Nat :=
  (1 <<< 1024) - (1 <<< 970)

/-- How many digits stand in front of the point, where a number below one tenth has a
negative count. -/
def wholeDigits (d : Decimal) : Int :=
  (toString d.mantissa.natAbs).length + d.exponent

/-- Whether the nearest double is finite. A number with `n` digits in front of the point
is at least `10 ^ (n - 1)` and below `10 ^ n`, and the limit has 309 of them. -/
def isFinite (d : Decimal) : Bool :=
  d.mantissa = 0 || d.wholeDigits < 309 ||
    (d.wholeDigits = 309 &&
      d.mantissa.natAbs * Nat.pow 10 d.exponent.toNat <
        doubleLimit * Nat.pow 10 (-d.exponent).toNat)

end Decimal

end SeriesQuery
