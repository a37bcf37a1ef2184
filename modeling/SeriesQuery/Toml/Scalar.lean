import SeriesQuery.Toml

/-!
Values written as a single word: truth values, numbers, dates and times.
-/

namespace SeriesQuery.Toml

/-! ### Digits -/

/-- The digits of a numeral, in which single underscores may stand between digits. -/
def digits? (isDigit : Char → Bool) : List Char → Option (List Char)
  | [] => none
  | [c] => if isDigit c then some [c] else none
  | c :: '_' :: cs => if isDigit c then (digits? isDigit cs).map (c :: ·) else none
  | c :: cs => if isDigit c then (digits? isDigit cs).map (c :: ·) else none

/-- The value of a hexadecimal digit. -/
def digitValue (c : Char) : Nat :=
  if c.isDigit then c.toNat - 48 else if c.isLower then c.toNat - 87 else c.toNat - 55

/-- The value of digits in a base, the most significant first. -/
def valueOf (base : Nat) (digits : List Char) : Nat :=
  digits.foldl (fun value c => base * value + digitValue c) 0

/-- A hexadecimal digit. -/
def isHexDigit (c : Char) : Bool :=
  c.isDigit || ('a' ≤ c && c ≤ 'f') || ('A' ≤ c && c ≤ 'F')

/-- A digit below `base`, for a base up to ten. -/
def isDigitBelow (base : Nat) (c : Char) : Bool :=
  c.isDigit && decide (digitValue c < base)

/-! ### Numbers -/

/-- The sign of a numeral and what follows it. -/
def signed : List Char → Bool × List Char
  | '-' :: cs => (true, cs)
  | '+' :: cs => (false, cs)
  | cs => (false, cs)

/-- The number of a sign and a size. -/
def withSign (negative : Bool) (size : Nat) : Int :=
  if negative then -(size : Int) else size

/-- The digits of a decimal numeral without a sign; it starts with a zero only if it is
one. -/
def wholeDigits? (cs : List Char) : Option (List Char) :=
  match digits? Char.isDigit cs with
  | some ('0' :: _ :: _) => none
  | digits => digits

/-- The integer that a word is. -/
def integer? : List Char → Option Int
  | '0' :: 'x' :: cs => (digits? isHexDigit cs).map fun ds => (valueOf 16 ds : Int)
  | '0' :: 'o' :: cs => (digits? (isDigitBelow 8) cs).map fun ds => (valueOf 8 ds : Int)
  | '0' :: 'b' :: cs => (digits? (isDigitBelow 2) cs).map fun ds => (valueOf 2 ds : Int)
  | cs =>
    (wholeDigits? (signed cs).2).map fun digits => withSign (signed cs).1 (valueOf 10 digits)

/-- Whether the letter starts an exponent. -/
def isExponentMark (c : Char) : Bool :=
  c == 'e' || c == 'E'

/-- The exponent that the characters are with its letter; zero if there are none. -/
def exponent? : List Char → Option Int
  | [] => some 0
  | c :: cs =>
    if isExponentMark c then
      (digits? Char.isDigit (signed cs).2).map fun digits =>
        withSign (signed cs).1 (valueOf 10 digits)
    else none

/-- The digits behind the point and the exponent that the characters are, which are a
fraction with its point, or an exponent, or both. -/
def fraction? : List Char → Option (List Char × Int)
  | [] => none
  | '.' :: cs => do
    let digits ← digits? Char.isDigit (cs.takeWhile fun c => !isExponentMark c)
    return (digits, ← exponent? (cs.dropWhile fun c => !isExponentMark c))
  | cs => (exponent? cs).map fun exponent => ([], exponent)

/-- The decimal number that a word is, with a point or an exponent. -/
def decimal? (cs : List Char) : Option Decimal := do
  let (negative, body) := signed cs
  let ends (c : Char) := c == '.' || isExponentMark c
  let whole ← wholeDigits? (body.takeWhile fun c => !ends c)
  let (fraction, exponent) ← fraction? (body.dropWhile fun c => !ends c)
  return ⟨withSign negative (valueOf 10 (whole ++ fraction)), exponent - fraction.length⟩

/-- Whether a word is an infinity, or stands for what is no number. -/
def isSpecial (cs : List Char) : Bool :=
  (signed cs).2 == "inf".toList || (signed cs).2 == "nan".toList

/-! ### Dates and times -/

/-- The number that two digits write. -/
def twoDigits? (a b : Char) : Option Nat :=
  if a.isDigit && b.isDigit then some (valueOf 10 [a, b]) else none

/-- Whether a year has a 29th of February. -/
def isLeapYear (year : Nat) : Bool :=
  (year % 4 == 0 && year % 100 != 0) || year % 400 == 0

/-- How many days a month has. -/
def daysIn (year month : Nat) : Nat :=
  if month = 2 then if isLeapYear year then 29 else 28
  else if month ∈ [4, 6, 9, 11] then 30
  else 31

/-- What follows a date. -/
def afterDate? : List Char → Option (List Char)
  | a :: b :: c :: d :: '-' :: m :: n :: '-' :: p :: q :: rest => do
    let year := 100 * (← twoDigits? a b) + (← twoDigits? c d)
    let month ← twoDigits? m n
    let day ← twoDigits? p q
    if 1 ≤ month ∧ month ≤ 12 ∧ 1 ≤ day ∧ day ≤ daysIn year month then some rest else none
  | _ => none

/-- What follows the fraction of a second, if there is one. -/
def afterSecondFraction? : List Char → Option (List Char)
  | '.' :: c :: cs => if c.isDigit then some (cs.dropWhile Char.isDigit) else none
  | '.' :: [] => none
  | cs => some cs

/-- What follows the seconds, which may be missing. -/
def afterSeconds? : List Char → Option (List Char)
  | ':' :: a :: b :: rest => do
    if (← twoDigits? a b) ≤ 60 then afterSecondFraction? rest else none
  | ':' :: _ => none
  | cs => some cs

/-- What follows hours and minutes. -/
def afterMinutes? : List Char → Option (List Char)
  | a :: b :: ':' :: c :: d :: rest => do
    if (← twoDigits? a b) < 24 ∧ (← twoDigits? c d) < 60 then some rest else none
  | _ => none

/-- What follows a time. -/
def afterTime? (cs : List Char) : Option (List Char) :=
  (afterMinutes? cs).bind afterSeconds?

/-- Whether the characters are the distance from universal time, or none. -/
def isOffset : List Char → Bool
  | [] => true
  | [c] => c == 'Z' || c == 'z'
  | c :: cs => (c == '+' || c == '-') && afterMinutes? cs == some []

/-- Whether the character may stand between a date and a time. -/
def isDateSeparator (c : Char) : Bool :=
  c == 'T' || c == 't' || c == ' '

/-- Whether the characters are a date. -/
def isDate (cs : List Char) : Bool :=
  afterDate? cs == some []

/-- Whether the characters are a date, a time, or both. -/
def isDateTime (cs : List Char) : Bool :=
  match afterDate? cs with
  | some [] => true
  | some (c :: rest) => isDateSeparator c && (afterTime? rest).any isOffset
  | none => afterTime? cs == some []

/-! ### Words -/

/-- A character of a word. -/
def isWordChar (c : Char) : Bool :=
  c.isAlphanum || c == '_' || c == '+' || c == '-' || c == '.' || c == ':'

/-- The value that a word is. -/
def ofWord? (cs : List Char) : Option Toml :=
  if cs = "true".toList then some (.boolean true)
  else if cs = "false".toList then some (.boolean false)
  else if isSpecial cs then some (.float none)
  else if isDateTime cs then some (.dateTime (String.ofList cs))
  else match integer? cs with
    | some n => some (.integer n)
    | none => (decimal? cs).map fun value => .float (some value)

end SeriesQuery.Toml
