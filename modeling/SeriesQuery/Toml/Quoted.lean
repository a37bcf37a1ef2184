import SeriesQuery.Toml.Gap
import SeriesQuery.Toml.Scalar

/-!
Strings: their raw text up to the closing quotes, and what it stands for.

A basic string stands between double quotes and has escapes; a literal one stands
between single quotes and has none. Tripled quotes let a string go over several
lines. A line end right after the opening quotes is not part of it, and a backslash at
the end of a line takes away what is blank up to the next character. Other line ends are
kept as they are.
-/

namespace SeriesQuery.Toml

/-! ### Raw text -/

/-- The raw text of a basic string, and what follows its closing quote. -/
def rawBasic? : List Char → Option (List Char × List Char)
  | [] => none
  | '\x22' :: rest => some ([], rest)
  | '\\' :: c :: rest => (rawBasic? rest).map fun (raw, rest) => ('\\' :: c :: raw, rest)
  | c :: rest => (rawBasic? rest).map fun (raw, rest) => (c :: raw, rest)

/-- The raw text of a literal string, and what follows its closing quote. -/
def rawLiteral? : List Char → Option (List Char × List Char)
  | [] => none
  | '\x27' :: rest => some ([], rest)
  | c :: rest => (rawLiteral? rest).map fun (raw, rest) => (c :: raw, rest)

/-- The raw text of a basic string over several lines, and what follows its closing
quotes. Up to two more quotes in front of those are part of the string. -/
def rawBasicLines? : List Char → Option (List Char × List Char)
  | [] => none
  | '\x22' :: '\x22' :: '\x22' :: '\x22' :: '\x22' :: rest => some (['\x22', '\x22'], rest)
  | '\x22' :: '\x22' :: '\x22' :: '\x22' :: rest => some (['\x22'], rest)
  | '\x22' :: '\x22' :: '\x22' :: rest => some ([], rest)
  | '\\' :: c :: rest => (rawBasicLines? rest).map fun (raw, rest) => ('\\' :: c :: raw, rest)
  | c :: rest => (rawBasicLines? rest).map fun (raw, rest) => (c :: raw, rest)

/-- The raw text of a literal string over several lines, and what follows its closing
quotes. -/
def rawLiteralLines? : List Char → Option (List Char × List Char)
  | [] => none
  | '\x27' :: '\x27' :: '\x27' :: '\x27' :: '\x27' :: rest => some (['\x27', '\x27'], rest)
  | '\x27' :: '\x27' :: '\x27' :: '\x27' :: rest => some (['\x27'], rest)
  | '\x27' :: '\x27' :: '\x27' :: rest => some ([], rest)
  | c :: rest => (rawLiteralLines? rest).map fun (raw, rest) => (c :: raw, rest)

/-- Whether raw text holds only what a string may hold, which may go over several lines if
`lines` says so. -/
def isText (lines : Bool) : List Char → Bool
  | [] => true
  | '\n' :: cs => lines && isText lines cs
  | '\r' :: '\n' :: cs => lines && isText lines cs
  | c :: cs => isTextChar c && isText lines cs

/-- The raw text of a string on one line. -/
def onLine? (raw : List Char) : Option (List Char) :=
  if isText false raw then some raw else none

/-- The raw text of a string over several lines, without a line end at its start. -/
def onLines? (raw : List Char) : Option (List Char) :=
  if isText true raw then some ((afterLineEnd? raw).getD raw) else none

/-! ### Escapes -/

/-- The character with the code that hexadecimal digits write. -/
def codeChar? (digits : List Char) : Option Char :=
  let code := valueOf 16 digits
  if digits.all isHexDigit ∧ code.isValidChar then some (Char.ofNat code) else none

/-- The character that a letter after a backslash stands for. -/
def escaped? : Char → Option Char
  | 'b' => some '\x08'
  | 't' => some '\t'
  | 'n' => some '\n'
  | 'f' => some '\x0c'
  | 'r' => some '\r'
  | 'e' => some '\x1b'
  | '\x22' => some '\x22'
  | '\\' => some '\\'
  | _ => none

/-- Whether the rest of a line is blank and another line follows. -/
def isLineRest (cs : List Char) : Bool :=
  (afterLineEnd? (cs.dropWhile isLineBlank)).isSome

/-- A blank or a part of a line end. -/
def isBlankOrEnd (c : Char) : Bool :=
  isLineBlank c || c == '\n' || c == '\r'

/-- The text that raw text stands for. -/
def unescape? : List Char → Option (List Char)
  | [] => some []
  | '\\' :: 'x' :: a :: b :: cs => do return (← codeChar? [a, b]) :: (← unescape? cs)
  | '\\' :: 'u' :: a :: b :: c :: d :: cs => do
    return (← codeChar? [a, b, c, d]) :: (← unescape? cs)
  | '\\' :: 'U' :: a :: b :: c :: d :: e :: f :: g :: h :: cs => do
    return (← codeChar? [a, b, c, d, e, f, g, h]) :: (← unescape? cs)
  | '\\' :: cs =>
    if isLineRest cs then unescape? (cs.dropWhile isBlankOrEnd)
    else match cs with
      | [] => none
      | c :: cs => do return (← escaped? c) :: (← unescape? cs)
  | c :: cs => do return c :: (← unescape? cs)
termination_by cs => cs.length
decreasing_by
  all_goals simp only [List.length_cons]
  · omega
  · omega
  · omega
  · have := (List.dropWhile_sublist (l := cs) isBlankOrEnd).length_le
    omega
  · omega
  · omega

/-! ### Strings -/

/-- A string, and what follows it. -/
def afterString? : List Char → Option (String × List Char)
  | '\x22' :: '\x22' :: '\x22' :: cs => do
    let (raw, rest) ← rawBasicLines? cs
    return (String.ofList (← unescape? (← onLines? raw)), rest)
  | '\x22' :: cs => do
    let (raw, rest) ← rawBasic? cs
    return (String.ofList (← unescape? (← onLine? raw)), rest)
  | '\x27' :: '\x27' :: '\x27' :: cs => do
    let (raw, rest) ← rawLiteralLines? cs
    return (String.ofList (← onLines? raw), rest)
  | '\x27' :: cs => do
    let (raw, rest) ← rawLiteral? cs
    return (String.ofList (← onLine? raw), rest)
  | _ => none

/-- A string on one line, and what follows it. -/
def afterLineString? : List Char → Option (String × List Char)
  | '\x22' :: '\x22' :: '\x22' :: _ => none
  | '\x27' :: '\x27' :: '\x27' :: _ => none
  | cs => afterString? cs

end SeriesQuery.Toml
