/-!
Decimal numerals: reading and bounding natural numbers.
-/

namespace SeriesQuery.Text

/-- The value of a numeral written most significant digit first. -/
def digitsValue (digits : List Char) : Nat :=
  digits.foldl (fun value c => 10 * value + (c.toNat - '0'.toNat)) 0

/-- The number below `bound` that `text` writes in decimal digits. -/
def natBelow? (bound : Nat) (text : String) : Option Nat :=
  let digits := text.toList
  if digits ≠ [] ∧ digits.all Char.isDigit ∧ digitsValue digits < bound then
    some (digitsValue digits)
  else
    none

theorem lt_of_natBelow? {bound n : Nat} {text : String} (h : natBelow? bound text = some n) :
    n < bound := by
  simp only [natBelow?, Option.ite_none_right_eq_some, Option.some.injEq] at h
  omega

end SeriesQuery.Text
