import SeriesQuery.Toml.Quoted
import SeriesQuery.Toml.Tree

/-!
Reading TOML documents.

A document is a list of entries, one a line: headers and members. `Document.read`
splits a text into entries, and `Toml.ofText?` builds the table they describe.
-/

namespace SeriesQuery.Toml

/-- A reader of characters, which takes them from the front of what is left. -/
abbrev Reader := StateT (List Char) Option

namespace Reader

/-- The reader of what a function finds at the front. -/
def of {α : Type} (f : List Char → Option (α × List Char)) : Reader α :=
  f

/-- Whether nothing is left. -/
def atEnd : Reader Bool :=
  return (← get).isEmpty

/-- Takes a character if it comes next. -/
def accept (c : Char) : Reader Bool := do
  match ← get with
  | d :: rest => if c = d then do set rest; return true else return false
  | [] => return false

/-- Takes a character, which must come next. -/
def expect (c : Char) : Reader Unit := do
  if ← accept c then return () else failure

/-- Takes blanks. -/
def blanks : Reader Unit := do
  set ((← get).dropWhile isLineBlank)

/-- Takes blanks, comments and line ends. -/
def gap : Reader Unit := do
  match afterGap? true false (← get) with
  | some rest => set rest
  | none => failure

/-- Takes blanks and a comment up to the end of the line. -/
def lineEnd : Reader Unit := do
  match afterGap? false false (← get) with
  | some [] => set ([] : List Char)
  | some rest =>
    match afterLineEnd? rest with
    | some rest => set rest
    | none => failure
  | none => failure

/-! ### Repetition

An item takes at least one character, so fewer items follow than characters are left. -/

/-- Items with commas between them, perhaps one after the last, up to a closing
bracket. -/
def itemsUntil {α : Type} (closing : Char) (item : Reader α) : Nat → Reader (List α)
  | 0 => failure
  | rounds + 1 => do
    gap
    if ← accept closing then
      return []
    else
      let a ← item
      gap
      if ← accept ',' then return a :: (← itemsUntil closing item rounds)
      else do
        expect closing
        return [a]

/-- The items of a bracket that has been opened. -/
def items {α : Type} (closing : Char) (item : Reader α) : Reader (List α) := do
  itemsUntil closing item ((← get).length + 1)

/-! ### Keys -/

/-- A character of a key without quotes. -/
def isKeyChar (c : Char) : Bool :=
  c.isAlphanum || c == '_' || c == '-'

/-- A single key. -/
def key : Reader String := do
  let cs ← get
  match cs.takeWhile isKeyChar with
  | [] => of afterLineString?
  | word => do
    set (cs.dropWhile isKeyChar)
    return String.ofList word

/-- The keys after a point, fewer than so many. -/
def furtherKeys : Nat → Reader (List String)
  | 0 => failure
  | count + 1 => do
    blanks
    if ← accept '.' then do
      blanks
      let name ← key
      return name :: (← furtherKeys count)
    else return []

/-- The most keys that may be joined by points. -/
def maxKeys : Nat := 80

/-- Keys with points between them. -/
def keyPath : Reader KeyPath := do
  blanks
  let first ← key
  let others ← furtherKeys maxKeys
  return ⟨(first :: others).dropLast, (first :: others).getLast (by simp)⟩

/-! ### Values -/

/-- The deepest nesting of arrays and tables in one value. -/
def maxNesting : Nat := 80

/-- Whether a word is a date that the character after a blank continues. -/
def continuesDate (word rest : List Char) : Bool :=
  match rest with
  | ' ' :: c :: _ => isDate word && c.isDigit
  | _ => false

/-- A value written as a word, or as a date and a time with a blank between them. -/
def word : Reader Toml := do
  let cs ← get
  let first := cs.takeWhile isWordChar
  let rest := cs.dropWhile isWordChar
  if continuesDate first rest then do
    let second := rest.tail
    set (second.dropWhile isWordChar)
    StateT.lift (ofWord? (first ++ ' ' :: second.takeWhile isWordChar))
  else do
    set rest
    StateT.lift (ofWord? first)

/-- A value without other values in it. -/
def scalar : Reader Toml := do
  match (← get).head? with
  | some '\x22' | some '\x27' => return .string (← of afterString?)
  | _ => word

/-- A member of a table: its key and its value, read by `value`, with what `space` takes
on both sides of the equals sign. -/
def member (space : Reader Unit) (value : Reader Toml) : Reader (KeyPath × Toml) := do
  let path ← keyPath
  space
  expect '='
  space
  return (path, ← value)

/-- The table with the given members, if their keys go together. -/
def inlineTable? (members : List (KeyPath × Toml)) : Option Toml :=
  (members.foldlM (fun table (path, value) => Members.define path value table) []).map
    fun table => .table (closeMembers table)

/-- A value in which arrays and tables are nested no more than `levels` deep. -/
def value : Nat → Reader Toml
  | 0 => scalar
  | levels + 1 => do
    if ← accept '[' then
      return .array (← items ']' (value levels))
    else if ← accept '\x7b' then do
      let members ← items '\x7d' (member gap (value levels))
      StateT.lift (inlineTable? members)
    else scalar

/-! ### Entries -/

/-- A line of a document. -/
inductive Entry where
  /-- A line `[path]`: the members that follow belong to the table `path`. -/
  | header (path : KeyPath)
  /-- A line `[[path]]`: the members that follow belong to one more table of `path`. -/
  | itemHeader (path : KeyPath)
  /-- A line `path = value`. -/
  | member (path : KeyPath) (value : Toml)
deriving Repr, Inhabited

/-- An entry without the end of its line. -/
def entryBody : Reader Entry := do
  if ← accept '[' then
    if ← accept '[' then do
      let path ← keyPath
      expect ']'
      expect ']'
      return .itemHeader path
    else do
      let path ← keyPath
      expect ']'
      return .header path
  else do
    let (path, value) ← member blanks (value maxNesting)
    return .member path value

/-- The entries of a document, for so many rounds. -/
def entries : Nat → Reader (List Entry)
  | 0 => failure
  | rounds + 1 => do
    gap
    if ← atEnd then
      return []
    else do
      let entry ← entryBody
      lineEnd
      return entry :: (← entries rounds)

end Reader

/-! ### Documents -/

/-- What has been built, and the path of the table that members go to. -/
structure Document where
  members : Members
  current : List String
deriving Repr, Inhabited

namespace Document

/-- The document with one more entry. -/
def add (d : Document) : Reader.Entry → Option Document
  | .header path =>
    (d.members.openTable path).map fun members => ⟨members, path.parents ++ [path.key]⟩
  | .itemHeader path =>
    (d.members.appendTable path).map fun members => ⟨members, path.parents ++ [path.key]⟩
  | .member path value =>
    (d.members.defineIn d.current path value).map fun members => { d with members }

/-- The document that entries make. -/
def ofEntries? (entries : List Reader.Entry) : Option Document :=
  entries.foldlM add ⟨[], []⟩

end Document

/-- The text without a byte order mark at its start. -/
def withoutMark : List Char → List Char
  | '\ufeff' :: cs => cs
  | cs => cs

/-- The members of the table that a text describes. -/
def ofText? (text : String) : Option Toml := do
  let cs := withoutMark text.toList
  let (entries, _) ← (Reader.entries (cs.length + 1)).run cs
  let document ← Document.ofEntries? entries
  return .table (closeMembers document.members)

end SeriesQuery.Toml
