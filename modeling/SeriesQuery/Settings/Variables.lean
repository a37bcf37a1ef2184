/-!
The variables of an environment.

An environment is kept as texts in which a name and a value stand on both sides of an
equals sign. A variable is looked for by its name and the sign after it, so a name with
an equals sign in it can reach into the value of another variable.
-/

namespace SeriesQuery

/-- The variables of an environment. -/
structure Variables where
  /-- Names, none of which has an equals sign in it, and values. -/
  entries : List (String × String)
deriving DecidableEq, Repr, Inhabited

namespace Variables

/-- The text in which a variable is kept. -/
def entryText (name value : String) : List Char :=
  name.toList ++ '=' :: value.toList

/-- The value of a variable: what follows the name and an equals sign in an entry. No
variable is without a name. -/
def value? (v : Variables) (name : String) : Option String :=
  if name = "" then none
  else v.entries.findSome? fun (other, value) =>
    ((name.toList ++ ['=']).isPrefixOf? (entryText other value)).map String.ofList

end Variables

end SeriesQuery
