import SeriesQuery.Settings
import SeriesQuery.Text.Alphanumeric

/-!
Variables in the text of a setting.

`$NAME` and `${NAME}` stand for the value of a variable of the environment.
Without braces a name goes as far as letters, numbers and underscores do; a dollar
sign that no name follows stands for itself. With braces a name is all up to the
closing one, or to the end of the text.
-/

namespace SeriesQuery

/-- A part of a text with variables. -/
inductive TextPart where
  | literal (c : Char)
  | variable (name : String)
deriving DecidableEq, Repr, Inhabited

namespace TextPart

/-- A character of a name without braces. -/
def isNameChar (c : Char) : Bool :=
  Text.isAlphanumeric c || c == '_'

/-- A character of a name in braces. -/
def isBracedChar (c : Char) : Bool :=
  c != '\x7d'

/-- The parts of a text. -/
def ofChars : List Char → List TextPart
  | [] => []
  | '$' :: '\x7b' :: cs =>
    .variable (String.ofList (cs.takeWhile isBracedChar)) ::
      ofChars (cs.dropWhile isBracedChar).tail
  | '$' :: cs =>
    match cs.takeWhile isNameChar with
    | [] => .literal '$' :: ofChars cs
    | name => .variable (String.ofList name) :: ofChars (cs.dropWhile isNameChar)
  | c :: cs => .literal c :: ofChars cs
termination_by cs => cs.length
decreasing_by
  · have := (List.dropWhile_sublist (l := cs) isBracedChar).length_le
    simp
    omega
  · simp
  · have := (List.dropWhile_sublist (l := cs) isNameChar).length_le
    simp
    omega
  · simp

/-- The variables that parts name, in order. -/
def names (parts : List TextPart) : List String :=
  parts.filterMap fun
    | .literal _ => none
    | .variable name => some name

/-- The text of parts, with `value?` for the values of variables. -/
def fill (value? : String → Option String) : List TextPart → Except SettingsError (List Char)
  | [] => .ok []
  | .literal c :: parts => do return c :: (← fill value? parts)
  | .variable name :: parts =>
    match value? name with
    | none => .error (.missingVariable name)
    | some value => do return value.toList ++ (← fill value? parts)

end TextPart

/-- The variables that a text names, in order. -/
def variableNames (text : String) : List String :=
  TextPart.names (TextPart.ofChars text.toList)

/-- A text with its variables replaced by their values. -/
def expand (value? : String → Option String) (text : String) : Except SettingsError String := do
  return String.ofList (← TextPart.fill value? (TextPart.ofChars text.toList))

/-- The file that holds the tables, with its variables replaced. -/
def Settings.catalogPath (value? : String → Option String) (s : Settings) :
    Except SettingsError (Option String) :=
  match s.catalog with
  | none => .ok none
  | some text => do return some (← expand value? text)

end SeriesQuery
