import SeriesQuery.Expr.Parser
import SeriesQuery.Statement
import SeriesQuery.Text.Digits

/-!
Reading statements.

    statement   := create_table | query [';']
    query       := ['select' items 'from'] source [alias] ['timestamp' '(' expr ')']
                   ['latest' 'by' exprs] join* ['where' expr] ['sample' 'by' value]
                   ['order' 'by' order_items] ['limit' expr [',' expr]]
    source      := name | '(' query ')'
    item        := expr [['as'] alias]
                   ['over' '(' ['partition' 'by' exprs] ['order' 'by' order_items] ')']
    join        := ['inner' | 'outer' | 'asof' | 'splice' | 'cross'] 'join' source [alias]
                   ['on' (expr | '(' names ')')]
    create_table := 'create' 'table' name '(' columns ')' (',' 'index' '(' name index ')')*
                   ['timestamp' '(' name ')'] ['partition' 'by' value]
                   ['record' 'hint' number]

A query in parentheses is read one nesting level down; `Query.around` describes the
grammar of a query in terms of the queries below it.
-/

namespace SeriesQuery

open SeriesQuery.Parser

/-! ### Parts of a query -/

/-- The words that end a source and are never its alias. -/
def clauseKeywords : List String :=
  ["where", "join", "inner", "outer", "asof", "splice", "cross", "on", "sample", "order",
    "limit", "latest", "timestamp", "select", "from"]

/-- Whether a token is one of the words that start a clause. -/
def Token.startsClause (t : Token) : Bool :=
  clauseKeywords.any fun keyword => t.isWord keyword

/-- Whether a name is qualified. -/
def hasDot (name : String) : Bool :=
  name.toList.contains '.'

/-- Takes the next lexeme, which must be a word. -/
def needName : Parser Ident := do
  let l ← needNext
  match l.token with
  | .ident text => return ⟨text, l.start⟩
  | _ => fail l.start (.unexpectedToken l.text)

/-- A column name with `asc` or `desc`; anything but a word is `notAName`. -/
def OrderItem.parser (notAName : Fault) : Parser OrderItem := do
  let l ← needNext
  match l.token with
  | .ident text =>
    let expr := Expr.column (.ofText text) l.start
    if ← takeWord "desc" then
      return ⟨expr, true⟩
    else
      let _ ← takeWord "asc"
      return ⟨expr, false⟩
  | _ => fail l.start notAName

/-- The alias after a source, if there is one. -/
def sourceAlias : Parser (Option Ident) := do
  match ← peek with
  | none => return none
  | some l =>
    match l.token with
    | .ident text =>
      if l.token.startsClause then return none
      else if hasDot text then fail l.start (.invalidAlias text)
      else do
        let _ ← next
        return some ⟨text, l.start⟩
    | .string text => do
        let _ ← next
        return some ⟨text, l.start⟩
    | _ => return none

/-- The window of `partition by` and `order by` between parentheses. -/
def Window.parser : Parser Window := do
  let _ ← needToken .leftParen
  let partitionBy ←
    if ← takeWord "partition" then do
      let _ ← needWord "by"
      Expr.listParser
    else pure []
  let orderBy ←
    if ← takeWord "order" then do
      let _ ← needWord "by"
      commaList (OrderItem.parser (.expectedToken "literal"))
    else pure []
  let _ ← needToken .rightParen
  return ⟨partitionBy, orderBy⟩

/-- Whether a token after a select item is its alias even without an `as`. -/
def Token.mayNameColumn (t : Token) : Bool :=
  match t with
  | .string _ => true
  | .ident _ => !t.isWord "from" && !t.isWord "over"
  | _ => false

/-- The alias of a select item, if there is one. -/
def columnAlias : Parser (Option Ident) := do
  let explicit ← takeWord "as"
  match ← peek with
  | none => if explicit then fail (← get).endPosition .unexpectedEndOfInput else return none
  | some l =>
    if explicit || l.token.mayNameColumn then do
      let _ ← next
      match l.token with
      | .ident text =>
          if hasDot text then fail l.start .dotNotAllowed else return some ⟨text, l.start⟩
      | .string text => return some ⟨text, l.start⟩
      | _ => fail l.start (.invalidAlias l.text)
    else return none

/-- Whether an expression is a call. -/
def Expr.isCall : Expr → Bool
  | .call .. => true
  | _ => false

/-- An item of a select list. -/
def SelectItem.parser : Parser SelectItem := do
  let expr ← Expr.parser
  let givenName ← columnAlias
  if ← takeWord "over" then
    if expr.isCall then return ⟨expr, givenName, some (← Window.parser)⟩
    else fail expr.position .analyticFunctionExpected
  else
    return ⟨expr, givenName, none⟩

/-- What follows a `select` at `position`, through `from`; none for `select *`. -/
def SelectClause.parser (position : Nat) : Parser (Option SelectClause) := do
  match ← peek with
  | none => fail (← Parser.position) .missingColumns
  | some l =>
    if l.isWord "from" then
      fail l.start .missingColumns
    else if l.token.isSign "*" then do
      let _ ← next
      let _ ← needWord "from"
      return none
    else do
      let items ← listUntil (Token.isWord "from") ",|from" SelectItem.parser
      return some ⟨position, items⟩

/-- A parenthesized list of unqualified names; none if the lexemes are no such
list, wherever that leaves the cursor. -/
def nameList? : Parser (Option (List Ident)) := do
  if ← accept (· = .leftParen) then
    names ((← get).after.length + 1)
  else
    return none
where
  /-- The names and the parenthesis that closes the list, for at most `rounds`
  names. -/
  names : Nat → Parser (Option (List Ident))
    | 0 => return none
    | rounds + 1 => do
      match ← next with
      | some ⟨.ident text, start, _⟩ =>
        if hasDot text then return none
        else
          match ← next with
          | some ⟨.comma, _, _⟩ => return (← names rounds).map (⟨text, start⟩ :: ·)
          | some ⟨.rightParen, _, _⟩ => return some [⟨text, start⟩]
          | _ => return none
      | _ => return none

/-- The condition after `on`. -/
def JoinCondition.parser : Parser JoinCondition := do
  let mark := (← get).index
  match ← nameList? with
  | some names => return .columns names
  | none => do
    reset mark
    return .on (← Expr.parser)

/-- The kind of join that a word starts. -/
def joinKind? (l : Lexeme) : Option JoinKind :=
  if l.isWord "join" || l.isWord "inner" then some .inner
  else if l.isWord "outer" then some .outer
  else if l.isWord "asof" then some .asof
  else if l.isWord "splice" then some .splice
  else if l.isWord "cross" then some .cross
  else none

/-- The condition of a join of the given kind: inner and outer joins need one, cross
joins have none, and time-ordered joins may have one. -/
def joinCondition (kind : JoinKind) : Parser (Option JoinCondition) := do
  let hasOn := (← peek).any (·.isWord "on")
  match kind with
  | .cross => if hasOn then fail (← position) .crossJoinCondition else return none
  | .inner | .outer =>
    if hasOn then do
      let _ ← next
      return some (← JoinCondition.parser)
    else fail (← position) .joinConditionRequired
  | .asof | .splice =>
    if hasOn then do
      let _ ← next
      return some (← JoinCondition.parser)
    else return none

/-! ### Queries -/

namespace Query

/-- A source, with queries in parentheses read by `inner` one level down. -/
def sourceParser (inner : Parser Query) : Parser (SourceOf Query) := do
  let l ← needNext
  match l.token with
  | .leftParen => do
    let query ← nested l.start inner
    let _ ← needToken .rightParen
    return .query query
  | .ident name => return .table ⟨name, l.start⟩
  | _ => fail l.start (.unexpectedToken l.text)

/-- A join, if one follows. -/
def join? (inner : Parser Query) : Parser (Option (JoinOf Query)) := do
  match ← peek with
  | none => return none
  | some first =>
    match joinKind? first with
    | none => return none
    | some kind => do
      let _ ← next
      if !first.isWord "join" then
        let _ ← needWord "join"
      let source ← sourceParser inner
      let givenName ← sourceAlias
      let condition ← joinCondition kind
      return some ⟨kind, first.start, source, givenName, condition⟩

/-- The select list, if the query starts with one. -/
def selectClause : Parser (Option SelectClause) := do
  match ← peek with
  | some l =>
    if l.isWord "select" then do
      let _ ← next
      SelectClause.parser l.start
    else return none
  | none => return none

/-- The `timestamp (...)` of a source, if it has one. -/
def timestampClause : Parser (Option Expr) := do
  if ← takeWord "timestamp" then do
    let _ ← needToken .leftParen
    let column ← Expr.parser
    let _ ← needToken .rightParen
    return some column
  else return none

/-- The `latest by` of a source, which must be a table to have one. -/
def latestByClause (source : SourceOf Query) : Parser (List Expr) := do
  match ← peek with
  | some l =>
    if l.isWord "latest" then
      match source with
      | .query _ => fail l.start .latestByNotAllowedOnSubquery
      | .table _ => do
        let _ ← next
        let _ ← needWord "by"
        Expr.listParser
    else return []
  | none => return []

/-- The `where` condition, if there is one. -/
def whereClause : Parser (Option Expr) := do
  if ← takeWord "where" then return some (← Expr.parser) else return none

/-- The interval of `sample by`, which is one token. -/
def sampleByClause : Parser (Option Expr) := do
  if ← takeWord "sample" then do
    let _ ← needWord "by"
    let value ← needNext
    return some (.constant value.text value.start)
  else return none

/-- The `order by` list; empty if there is none. -/
def orderByClause : Parser (List OrderItem) := do
  if ← takeWord "order" then do
    let _ ← needWord "by"
    commaList (OrderItem.parser .expressionExpected)
  else return []

/-- The `limit`, if there is one. -/
def limitClause : Parser (Option Limit) := do
  if ← takeWord "limit" then do
    let lo ← Expr.parser
    let hi ← if ← accept (· = .comma) then some <$> Expr.parser else pure none
    return some ⟨lo, hi⟩
  else return none

/-- A query, with queries in parentheses read by `inner` one level down. -/
def around (inner : Parser Query) : Parser Query := do
  let position ← Parser.position
  let select ← selectClause
  let source ← sourceParser inner
  let givenName ← sourceAlias
  let timestamp ← timestampClause
  let latestBy ← latestByClause source
  let joins ← many (join? inner)
  let filter ← whereClause
  let sampleBy ← sampleByClause
  let orderBy ← orderByClause
  let limit ← limitClause
  return { position, select, source, givenName, timestamp, latestBy, joins, filter, sampleBy,
           orderBy, limit }

/-- A query with `levels` levels from it to the deepest one. -/
def deep : Nat → Parser Query
  | 0 => do fail (← Parser.position) (.nestingTooDeep maxNesting)
  | levels + 1 => around (deep levels)

/-- A query. -/
def parser : Parser Query :=
  deep (maxNesting + 1)

end Query

/-! ### Table declarations -/

/-- Takes the next lexeme, which must be a number that 64 bits can hold. -/
def needNumber : Parser (Nat × Lexeme) := do
  let l ← needNext
  match Text.natBelow? UInt64.size l.text with
  | some n => return (n, l)
  | none => fail l.start (.invalidNumber l.text)

/-- What follows `index`: perhaps a block size, which 32 bits can hold. -/
def IndexSpec.parser : Parser IndexSpec := do
  if ← takeWord "block" then do
    let _ ← needWord "size"
    let (size, l) ← needNumber
    if size < UInt32.size then return ⟨some size⟩ else fail l.start (.invalidNumber l.text)
  else return ⟨none⟩

/-- A declared column. -/
def ColumnDeclaration.parser : Parser ColumnDeclaration := do
  let name ← needName
  let l ← needNext
  match ColumnType.ofName? l.text with
  | none => fail l.start (.invalidColumnType l.text)
  | some type =>
    let index ← if ← takeWord "index" then some <$> IndexSpec.parser else pure none
    return ⟨name, type, index⟩

/-- An index declared after the columns, if a comma promises one. -/
def IndexDeclaration.parser? : Parser (Option IndexDeclaration) := do
  if ← accept (· = .comma) then do
    let _ ← needWord "index"
    let _ ← needToken .leftParen
    let column ← needName
    let spec ← IndexSpec.parser
    let _ ← needToken .rightParen
    return some ⟨column, spec⟩
  else return none

namespace TableDeclaration

/-- The designated timestamp, if one is declared. -/
def timestampClause : Parser (Option Ident) := do
  if ← takeWord "timestamp" then do
    let _ ← needToken .leftParen
    let column ← needName
    let _ ← needToken .rightParen
    return some column
  else return none

/-- The partitioning and its position, if one is declared. -/
def partitionClause : Parser (Option (Partition × Nat)) := do
  if ← takeWord "partition" then do
    let _ ← needWord "by"
    let l ← needNext
    match Partition.ofName? l.text with
    | some partition => return some (partition, l.start)
    | none => fail l.start (.invalidPartition l.text)
  else return none

/-- The expected number of records, if one is declared. -/
def recordHintClause : Parser (Option Nat) := do
  if ← takeWord "record" then do
    let _ ← needWord "hint"
    return some (← needNumber).1
  else return none

/-- A table declaration, after its `create`. -/
def parser : Parser TableDeclaration := do
  let target ← needNext
  if !target.isWord "table" then
    fail target.start .unsupportedCreateTarget
  let name ← needName
  let _ ← needToken .leftParen
  let columns ← listUntil (· = .rightParen) "',' or ')'" ColumnDeclaration.parser
  let indexes ← many IndexDeclaration.parser?
  let timestamp ← timestampClause
  let partitionBy ← partitionClause
  let recordHint ← recordHintClause
  return { name, columns, indexes, timestamp, partitionBy, recordHint }

end TableDeclaration

/-! ### Statements -/

namespace Statement

/-- A statement without what may follow it. -/
def bodyParser : Parser Statement := do
  if ← takeWord "create" then
    return .createTable (← TableDeclaration.parser)
  else
    return .query (← Query.parser)

/-- A statement and perhaps a semicolon, after which nothing may follow. -/
def parser : Parser Statement := do
  let statement ← bodyParser
  let _ ← accept (· = .semicolon)
  match ← next with
  | some extra => fail extra.start (.unexpectedToken extra.text)
  | none => return statement

/-- The statement that a text writes. -/
def ofText (sql : String) : Except SqlError Statement :=
  match Cursor.ofText sql with
  | .error e => .error e
  | .ok cursor =>
    match parser cursor with
    | .ok statement _ => .ok statement
    | .error e _ => .error e

/-- The query that a text writes, if a test holds of it. -/
theorem exists_query (sql : String) (p : Query → Bool)
    (h : (match ofText sql with
      | .ok (.query q) => p q
      | _ => false) = true) :
    ∃ q, ofText sql = .ok (.query q) ∧ p q = true := by
  split at h
  · next q hq => exact ⟨q, hq, h⟩
  · cases h

end Statement

end SeriesQuery
