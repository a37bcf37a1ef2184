import SeriesQuery.Token.Lexer

/-!
A cursor over the lexemes of a statement, and the parsers that move it.

A `Parser` reads from a cursor and answers a value or an error; either way it
says where the cursor is left. Nesting constructs run their contents through
`Parser.nested`, which refuses to go deeper than `maxNesting` and leaves the
depth as it found it.
-/

namespace SeriesQuery

/-- The deepest nesting of sub-queries, parentheses and signs in front. -/
def maxNesting : Nat := 64

/-- A place between the lexemes of a statement. -/
structure Cursor where
  /-- The lexemes already taken, the latest first. -/
  before : List Lexeme
  /-- The lexemes still to come. -/
  after : List Lexeme
  /-- Where a missing lexeme is reported. -/
  endPosition : Nat
  /-- The nesting constructs open at this place. -/
  depth : Nat
deriving DecidableEq, Repr, Inhabited

namespace Cursor

/-- Where a lexeme missing after `lexemes` is reported, in a text of `size`
bytes: after the last lexeme if more text follows it, else at its start. -/
def endOf (size : Nat) (lexemes : List Lexeme) : Nat :=
  match lexemes.getLast? with
  | none => 0
  | some last => if last.stop < size then last.stop else last.start

/-- The cursor in front of the first lexeme of `source`. -/
def ofText (source : String) : Except SqlError Cursor :=
  match lex source with
  | .ok lexemes => .ok ⟨[], lexemes, endOf source.utf8ByteSize lexemes, 0⟩
  | .error e => .error e

/-- How many lexemes have been taken. -/
def index (c : Cursor) : Nat :=
  c.before.length

/-- Where the next lexeme starts, or where a missing one is reported. -/
def position (c : Cursor) : Nat :=
  match c.after with
  | l :: _ => l.start
  | [] => c.endPosition

/-- Whether no lexeme is left. -/
def atEnd (c : Cursor) : Bool :=
  c.after.isEmpty

/-- The cursor past the next lexeme, if there is one. -/
def advance (c : Cursor) : Cursor :=
  match c.after with
  | l :: rest => { c with before := l :: c.before, after := rest }
  | [] => c

/-- The cursor with the first `index` lexemes taken, or all of them. -/
def reset (c : Cursor) (index : Nat) : Cursor :=
  let lexemes := c.before.reverse ++ c.after
  { c with before := (lexemes.take index).reverse, after := lexemes.drop index }

/-- From anywhere among the same lexemes the place of a cursor is found again. -/
theorem reset_index_eq {c c' : Cursor}
    (hlexemes : c'.before.reverse ++ c'.after = c.before.reverse ++ c.after)
    (hend : c'.endPosition = c.endPosition) (hdepth : c'.depth = c.depth) :
    c'.reset c.index = c := by
  obtain ⟨before, after, endPosition, depth⟩ := c
  simp only [reset, index, hlexemes]
  have hlength : before.length = before.reverse.length := List.length_reverse.symm
  rw [hlength, List.take_left, List.drop_left]
  simp [hend, hdepth]

/-- Going back by one lexeme undoes taking it. -/
theorem reset_advance {c : Cursor} (h : c.after ≠ []) :
    c.advance.reset (c.advance.index - 1) = c := by
  obtain ⟨before, after, endPosition, depth⟩ := c
  cases after with
  | nil => exact absurd rfl h
  | cons l rest => exact reset_index_eq (by simp [advance]) rfl rfl

end Cursor

/-- A reader of lexemes. -/
abbrev Parser := EStateM SqlError Cursor

namespace Parser

variable {α : Type}

/-- Stops with `fault` at `position`. -/
def fail (position : Nat) (fault : Fault) : Parser α :=
  throw ⟨position, fault⟩

/-- The next lexeme, which stays in place. -/
def peek : Parser (Option Lexeme) :=
  fun c => .ok c.after.head? c

/-- The next lexeme, which is taken. -/
def next : Parser (Option Lexeme) :=
  fun c => .ok c.after.head? c.advance

/-- Where the next lexeme starts, or where a missing one is reported. -/
def position : Parser Nat :=
  fun c => .ok c.position c

/-- Goes back, or forward, to the place after the first `index` lexemes. -/
def reset (index : Nat) : Parser Unit :=
  fun c => .ok () (c.reset index)

/-- Puts the last lexeme back, if one has been taken. -/
def stepBack : Parser Unit := do
  reset ((← get).index - 1)

/-- Taking a lexeme and putting it back is looking at it. -/
theorem next_stepBack {c : Cursor} (h : c.after ≠ []) :
    (do let l ← next; stepBack; return l) c = peek c := by
  change EStateM.Result.ok c.after.head? (c.advance.reset (c.advance.index - 1)) = _
  rw [Cursor.reset_advance h]
  rfl

/-- Takes the next lexeme; there must be one. -/
def needNext : Parser Lexeme := do
  match ← next with
  | some l => return l
  | none => fail (← get).endPosition .unexpectedEndOfInput

/-- Takes the next lexeme if its token satisfies `p`. -/
def accept (p : Token → Bool) : Parser Bool := do
  match ← peek with
  | some l => if p l.token then do let _ ← next; return true else return false
  | none => return false

/-- Takes the next lexeme if it is the given word. -/
def takeWord (keyword : String) : Parser Bool :=
  accept (Token.isWord keyword)

/-- Takes the next lexeme, which must be the given word. -/
def needWord (keyword : String) : Parser Lexeme := do
  let l ← needNext
  if l.isWord keyword then return l
  else fail l.start (.expectedToken ("'" ++ keyword ++ "'"))

/-- Takes the next lexeme, which must be the given token. -/
def needToken (token : Token) : Parser Lexeme := do
  let l ← needNext
  if l.token = token then return l
  else fail l.start (.expectedToken ("'" ++ token.text ++ "'"))

/-- Runs `p` one nesting level down. At the deepest level it fails at `position`
instead; the depth is the same afterwards in every case. -/
def nested (position : Nat) (p : Parser α) : Parser α := fun c =>
  if c.depth < maxNesting then
    match p { c with depth := c.depth + 1 } with
    | .ok a c' => .ok a { c' with depth := c'.depth - 1 }
    | .error e c' => .error e { c' with depth := c'.depth - 1 }
  else
    .error ⟨position, .nestingTooDeep maxNesting⟩ c

/-! ### Repetition

A step that takes at least one lexeme whenever it answers a value runs fewer
times than there are lexemes left, plus once to stop; that bound is the number
of rounds `many` allows. -/

/-- The answers of `step`, for `rounds` rounds or until it answers none. -/
def collect (step : Parser (Option α)) : Nat → Parser (List α)
  | 0 => return []
  | rounds + 1 => do
    match ← step with
    | none => return []
    | some a => return a :: (← collect step rounds)

/-- The answers of `step` until it answers none. -/
def many (step : Parser (Option α)) : Parser (List α) := do
  collect step ((← get).after.length + 1)

/-- One `item`, and one more after every comma. -/
def commaList (item : Parser α) : Parser (List α) := do
  let first ← item
  let others ← many do
    if ← accept (· = .comma) then return some (← item) else return none
  return first :: others

/-- Items separated by commas and ended by a token that satisfies `isEnd`, which
is taken too; any other token after an item is answered by `expected`. -/
def listUntil (isEnd : Token → Bool) (expected : String) (item : Parser α) :
    Parser (List α) := do
  let first ← item
  let others ← many do
    let l ← needNext
    if l.token = .comma then return some (← item)
    else if isEnd l.token then return none
    else fail l.start (.expectedToken expected)
  return first :: others

end Parser

end SeriesQuery
