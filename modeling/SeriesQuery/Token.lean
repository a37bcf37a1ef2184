import SeriesQuery.Text.Ascii

/-!
Tokens of a statement text.

No word is reserved: `select`, `from` and their like are identifiers, and the
grammar recognises them without regard to case. A qualified name such as `a.b`
is one identifier.
-/

namespace SeriesQuery

/-- A token, with the text it was written as. -/
inductive Token where
  /-- A word or a qualified name. -/
  | ident (text : String)
  /-- A number, perhaps with a fraction and a unit: `10`, `1.5`, `2m`. -/
  | number (text : String)
  /-- A string between single quotes, which are part of the text. -/
  | string (text : String)
  /-- A reference to a query between back quotes, which are part of the text. -/
  | queryRef (text : String)
  /-- An operator sign. -/
  | op (text : String)
  | leftParen
  | rightParen
  | comma
  | semicolon
deriving DecidableEq, Repr, Inhabited

namespace Token

/-- The text of a token as it stands in the statement. -/
def text : Token → String
  | ident s | number s | string s | queryRef s | op s => s
  | leftParen => "("
  | rightParen => ")"
  | comma => ","
  | semicolon => ";"

/-- Whether the token is the given word, in any case. -/
def isWord (keyword : String) : Token → Bool
  | ident s => Ascii.same s keyword
  | _ => false

/-- Whether the token is the given operator sign. -/
def isSign (sign : String) : Token → Bool
  | op s => s == sign
  | _ => false

end Token

/-- A token and the bytes of the statement text it covers. -/
structure Lexeme where
  token : Token
  /-- Where the token starts. -/
  start : Nat
  /-- Where the token ends; the byte there is no longer part of it. -/
  stop : Nat
deriving DecidableEq, Repr, Inhabited

namespace Lexeme

/-- The text of the token. -/
def text (l : Lexeme) : String :=
  l.token.text

/-- Whether the token is the given word, in any case. -/
def isWord (keyword : String) (l : Lexeme) : Bool :=
  l.token.isWord keyword

end Lexeme

end SeriesQuery
