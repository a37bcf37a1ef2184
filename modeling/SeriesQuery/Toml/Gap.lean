/-!
What may stand between the parts of a TOML document: blanks, line ends and comments.

A line ends with a line feed, in front of which a carriage return may stand. A carriage
return elsewhere is part of nothing.
-/

namespace SeriesQuery.Toml

/-- A blank within a line. -/
def isLineBlank (c : Char) : Bool :=
  c == ' ' || c == '\t'

/-- A character that may stand in a comment, and in a string. -/
def isTextChar (c : Char) : Bool :=
  c == '\t' || (0x20 ≤ c.toNat && c.toNat != 0x7f)

/-- What follows a line end. -/
def afterLineEnd? : List Char → Option (List Char)
  | '\n' :: cs => some cs
  | '\r' :: '\n' :: cs => some cs
  | _ => none

/-- What follows blanks and comments, and line ends if `lines` says so. The flag `comment`
says whether a comment has started. -/
def afterGap? (lines comment : Bool) : List Char → Option (List Char)
  | [] => some []
  | '\n' :: cs => if lines then afterGap? lines false cs else some ('\n' :: cs)
  | '\r' :: '\n' :: cs => if lines then afterGap? lines false cs else some ('\r' :: '\n' :: cs)
  | c :: cs =>
    if comment then
      if isTextChar c then afterGap? lines true cs else none
    else if isLineBlank c then afterGap? lines false cs
    else if c = '#' then afterGap? lines true cs
    else some (c :: cs)

end SeriesQuery.Toml
