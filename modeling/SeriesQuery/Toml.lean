import SeriesQuery.Decimal

/-!
Values of the TOML format.

Numbers are kept as they are written, of whatever size they are, and so are dates. Which
sizes are in range is a question for those who read a value.
-/

namespace SeriesQuery

/-- A TOML value. -/
inductive Toml where
  | string (value : String)
  | integer (value : Int)
  /-- A number with a point or an exponent. Infinities and what is no number have no
  value. -/
  | float (value : Option Decimal)
  | boolean (value : Bool)
  /-- A date, a time, or both. -/
  | dateTime (text : String)
  | array (items : List Toml)
  | table (members : List (String × Toml))
deriving BEq, Repr, Inhabited

namespace Toml

/-! ### The range of numbers -/

/-- How many values 128 bits can hold. -/
def wideSize : Nat :=
  UInt64.size * UInt64.size

/-- Whether 128 bits can hold an integer, with a sign or without one. -/
def isWide (n : Int) : Bool :=
  -((wideSize / 2 : Nat) : Int) ≤ n && n < (wideSize : Int)

mutual

/-- Whether 128 bits can hold every integer in a value, and a double every float. -/
def isInRange : Toml → Bool
  | integer n => isWide n
  | float value => value.all Decimal.isFinite
  | array items => areInRange items
  | table members => membersAreInRange members
  | _ => true

/-- Whether every number in the items is in range. -/
def areInRange : List Toml → Bool
  | [] => true
  | item :: items => item.isInRange && areInRange items

/-- Whether every number in the members is in range. -/
def membersAreInRange : List (String × Toml) → Bool
  | [] => true
  | (_, value) :: members => value.isInRange && membersAreInRange members

end

/-! ### Reading values as data -/

/-- The string that a value is. -/
def string? : Toml → Option String
  | string value => some value
  | _ => none

/-- The truth value that a value is. -/
def boolean? : Toml → Option Bool
  | boolean value => some value
  | _ => none

/-- The items of an array. -/
def items? : Toml → Option (List Toml)
  | array items => some items
  | _ => none

/-- The natural number below `bound` that a value is. -/
def natBelow? (bound : Nat) : Toml → Option Nat
  | integer value => if 0 ≤ value ∧ value < bound then some value.toNat else none
  | _ => none

/-- The name of a choice among named alternatives: a string, or the only member of a
table if nothing is in it. -/
def choice? : Toml → Option String
  | string name => some name
  | table [(name, table [])] => some name
  | table [(name, array [])] => some name
  | _ => none

/-- The fields of a record: the members of a table, or the items of an array in the
order of the field names. A date is a record without any of them. Members of other names
mean nothing, but their numbers must be in range. -/
def fields? (names : List String) : Toml → Option (List (String × Toml))
  | table members =>
    if members.all fun (name, value) => names.contains name || value.isInRange then
      some members
    else none
  | array items => some (names.zip items)
  | dateTime _ => some []
  | _ => none

/-- A field read by `read`, or `standard` if it is missing. -/
def field? {α : Type} (fields : List (String × Toml)) (name : String)
    (read : Toml → Option α) (standard : α) : Option α :=
  match fields.lookup name with
  | some value => read value
  | none => some standard

/-- A field read by `read`, which must be there. -/
def required? {α : Type} (fields : List (String × Toml)) (name : String)
    (read : Toml → Option α) : Option α :=
  (fields.lookup name).bind read

/-- The items of an array, each read by `read`. -/
def listOf? {α : Type} (read : Toml → Option α) (value : Toml) : Option (List α) :=
  value.items?.bind fun items => items.mapM read

end Toml

end SeriesQuery
