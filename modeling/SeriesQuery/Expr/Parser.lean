import SeriesQuery.Expr
import SeriesQuery.Token.Cursor

/-!
Reading expressions.

From the loosest to the tightest:

    or   and   not   = != <> < <= > >= ~ in   + -   * / % ^   unary -   operands

Apart from the operator words no word is reserved. An expression ends in front
of the first token that cannot continue it, so `a b` reads `a` and leaves `b`.

The contents of parentheses, calls and list tests and the operand of a sign in
front are read one nesting level down. `Grammar` holds the two readers that such
a place needs; `Grammar.above` describes the grammar in terms of those of the
level below, and `Grammar.deep` puts as many levels on top of each other as the
cursor allows, so nothing is ever read by the lowest one.
-/

namespace SeriesQuery

open SeriesQuery.Parser

/-- The readers of one nesting level. -/
structure Grammar where
  /-- An expression whose operators bind at least as tightly as given. -/
  expr : Nat → Parser Expr
  /-- An operand with any number of minus signs in front. -/
  unary : Parser Expr

namespace Grammar

/-- The strength of `in`, a comparison. -/
def inStrength : Nat := 4

/-- The strength of `not`, between the comparisons and `and`. -/
def notStrength : Nat := 3

/-- The strength of the operators that bind tightest. -/
def maxStrength : Nat := 6

/-- The words that are constants and never columns. -/
def constantWords : List String := ["NaN", "null", "true", "false"]

/-- Takes the parenthesis that closes an expression. -/
def needClosing : Parser Unit := do
  if ← accept (· = .rightParen) then return ()
  else fail (← position) .unbalancedExpression

/-- The arguments of a call, after its opening parenthesis. -/
def arguments (inner : Grammar) : Parser (List Expr) := do
  if ← accept (· = .rightParen) then
    return []
  else
    let args ← commaList (inner.expr 1)
    needClosing
    return args

/-- The parenthesized list after `in`. -/
def listItems (inner : Grammar) : Parser (List Expr) := do
  let opening ← needToken .leftParen
  let items ← nested opening.start (commaList (inner.expr 1))
  needClosing
  return items

/-- The expression a word starts: a constant, a call or a column. -/
def word (inner : Grammar) (text : String) (position : Nat) : Parser Expr := do
  let _ ← next
  if constantWords.any (Ascii.same text) then
    return .constant text position
  else if ← accept (· = .leftParen) then
    return .call text (← nested position (arguments inner)) position
  else
    return .column (.ofText text) position

/-- An operand without a sign in front. -/
def primary (inner : Grammar) : Parser Expr := do
  match ← peek with
  | none => fail (← get).endPosition .expressionExpected
  | some l =>
    match l.token with
    | .ident text =>
        if Ascii.same text "and" || Ascii.same text "or" then fail l.start .expressionExpected
        else word inner text l.start
    | .number text | .string text => do
        let _ ← next
        return .constant text l.start
    | .queryRef text => do
        let _ ← next
        return .queryRef text l.start
    | .leftParen => do
        let _ ← next
        let e ← nested l.start (inner.expr 1)
        needClosing
        return e
    | _ => fail l.start .expressionExpected

/-- An operand with any number of minus signs in front. -/
def signed (inner : Grammar) : Parser Expr := do
  match ← peek with
  | some l =>
    if l.token.isSign "-" then do
      let _ ← next
      return .unary .neg (← nested l.start inner.unary) l.start
    else
      primary inner
  | none => primary inner

/-- An operand with any number of signs in front. -/
def operand (inner : Grammar) : Parser Expr := do
  match ← peek with
  | some l =>
    if l.isWord "not" then do
      let _ ← next
      return .notOf (← nested l.start (inner.expr notStrength)) l.start
    else
      signed inner
  | none => signed inner

/-- The operator that a token stands for. -/
def operator? : Token → Option BinaryOp
  | .op text | .ident text => BinaryOp.ofText? text
  | _ => none

/-- Continues `left` by one operator of at least the strength `least`: a list
test, or an operator with a right side read by `right` at the strength above. -/
def continuation (inner : Grammar) (right : Nat → Parser Expr) (least : Nat) (left : Expr) :
    Parser (Option Expr) := do
  match ← peek with
  | none => return none
  | some l =>
    if l.isWord "in" then
      if inStrength < least then
        return none
      else do
        let _ ← next
        return some (.inList left (← listItems inner) l.start)
    else
      match operator? l.token with
      | none => return none
      | some op =>
        if op.strength < least then
          return none
        else do
          let _ ← next
          return some (.binary op left (← right (op.strength + 1)) l.start)

/-- Continues `left` by operators of at least the strength `least`, for `rounds`
rounds or until none follows. -/
def continuations (inner : Grammar) (right : Nat → Parser Expr) (least : Nat) :
    Nat → Expr → Parser Expr
  | 0, left => return left
  | rounds + 1, left => do
    match ← continuation inner right least left with
    | none => return left
    | some e => continuations inner right least rounds e

/-- An expression whose operators have at least the strength `least`, where
`strengths` bounds how many strengths lie from there to `maxStrength`. -/
def climb (inner : Grammar) : Nat → Nat → Parser Expr
  | 0, _ => operand inner
  | strengths + 1, least => do
    let left ← operand inner
    continuations inner (climb inner strengths) least ((← get).after.length + 1) left

/-- The readers of a level, in terms of those one level down. -/
def above (inner : Grammar) : Grammar where
  expr := climb inner maxStrength
  unary := signed inner

/-- The readers below the deepest level: nothing may be read there. -/
def bottom : Grammar where
  expr _ := do fail (← position) (.nestingTooDeep maxNesting)
  unary := do fail (← position) (.nestingTooDeep maxNesting)

/-- The readers of a level with `levels` levels from it to the deepest. -/
def deep : Nat → Grammar
  | 0 => bottom
  | levels + 1 => above (deep levels)

end Grammar

/-- One expression. -/
def Expr.parser : Parser Expr :=
  (Grammar.deep (maxNesting + 1)).expr 1

/-- Expressions separated by commas, at least one. -/
def Expr.listParser : Parser (List Expr) :=
  commaList Expr.parser

/-- The expression at the start of a text; what follows it is not looked at. -/
def Expr.ofText (source : String) : Except SqlError Expr :=
  match Cursor.ofText source with
  | .error e => .error e
  | .ok cursor =>
    match Expr.parser cursor with
    | .ok e _ => .ok e
    | .error e _ => .error e

end SeriesQuery
