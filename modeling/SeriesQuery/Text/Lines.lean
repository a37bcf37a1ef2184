/-!
The lines of a text.
-/

namespace SeriesQuery.Text

/-- The characters between line feeds. -/
def cutLines : List Char → List (List Char)
  | [] => [[]]
  | c :: cs =>
    match c, cutLines cs with
    | '\n', lines => [] :: lines
    | c, line :: lines => (c :: line) :: lines
    | c, [] => [[c]]

/-- A line without a carriage return at its end. -/
def withoutReturn (line : List Char) : List Char :=
  if line.getLast? = some '\r' then line.dropLast else line

/-- The lines of a text. A line ends at a line feed, with or without a carriage return
in front; after the last line feed there is one more unless nothing follows. -/
def lines (s : String) : List String :=
  let pieces := cutLines s.toList
  let ended := pieces.dropLast.map withoutReturn
  let rest := (pieces.getLast?.toList).filter fun line => !line.isEmpty
  (ended ++ rest).map String.ofList

/-- The text with blanks in front, up to `width` characters. -/
def padLeft (width : Nat) (s : String) : String :=
  String.ofList (List.replicate (width - s.length) ' ') ++ s

end SeriesQuery.Text
