import SeriesQuery.Expr
import SeriesQuery.Table

/-!
Statements as they are written, with the positions of their parts.

A query reads a source, which is a table or another query, and sources joined to
it; a table declaration lists columns, indexes and how the table is kept.
-/

namespace SeriesQuery

/-- A name and the position it is written at. -/
structure Ident where
  name : String
  position : Nat
deriving DecidableEq, Repr, Inhabited

/-- An item of an `order by` list. -/
structure OrderItem where
  expr : Expr
  descending : Bool
deriving BEq, Repr, Inhabited

/-- The rows a `limit` lets through: the first `lo`, or those from `lo` to `hi`. -/
structure Limit where
  lo : Expr
  hi : Option Expr
deriving BEq, Repr, Inhabited

/-- The rows a window function sees: `over (partition by ... order by ...)`. -/
structure Window where
  partitionBy : List Expr
  orderBy : List OrderItem
deriving BEq, Repr, Inhabited

/-- The ways to join a source. -/
inductive JoinKind where
  | inner
  | outer
  | asof
  | splice
  | cross
deriving DecidableEq, Repr, Inhabited

namespace JoinKind

/-- Joins that must stay where they are written. -/
def keepsPlace : JoinKind → Bool
  | outer | asof | splice => true
  | inner | cross => false

/-- Joins that match rows by their timestamps. -/
def matchesByTime : JoinKind → Bool
  | asof | splice => true
  | inner | outer | cross => false

/-- The words the join is written with. -/
def keyword : JoinKind → String
  | inner => "join"
  | outer => "outer join"
  | asof => "asof join"
  | splice => "splice join"
  | cross => "cross join"

end JoinKind

/-- The condition of a join. -/
inductive JoinCondition where
  /-- A condition `on expr`. -/
  | on (condition : Expr)
  /-- A condition `on (a, b)`: columns of these names are equal. -/
  | columns (names : List Ident)
deriving BEq, Repr, Inhabited

/-- An item of a select list. -/
structure SelectItem where
  expr : Expr
  givenName : Option Ident
  window : Option Window
deriving BEq, Repr, Inhabited

/-- A select list and the position of its `select`. -/
structure SelectClause where
  position : Nat
  items : List SelectItem
deriving BEq, Repr, Inhabited

/-- Where the rows of a query come from, with queries of type `Q`. -/
inductive SourceOf (Q : Type) where
  | table (name : Ident)
  | query (query : Q)
deriving BEq, Repr

/-- A joined source, with queries of type `Q`. -/
structure JoinOf (Q : Type) where
  kind : JoinKind
  position : Nat
  source : SourceOf Q
  givenName : Option Ident
  condition : Option JoinCondition
deriving BEq, Repr

/-- One query level: `[select ...] source [alias]` and its clauses. -/
structure Query where
  position : Nat
  /-- Absent when every column is selected. -/
  select : Option SelectClause
  source : SourceOf Query
  givenName : Option Ident
  timestamp : Option Expr
  latestBy : List Expr
  joins : List (JoinOf Query)
  filter : Option Expr
  sampleBy : Option Expr
  orderBy : List OrderItem
  limit : Option Limit
deriving BEq, Repr

/-- The index of a declared column. -/
structure IndexSpec where
  blockSize : Option Nat
deriving DecidableEq, Repr, Inhabited

/-- A declared column. -/
structure ColumnDeclaration where
  name : Ident
  type : ColumnType
  /-- Present when the column is declared with an index. -/
  index : Option IndexSpec
deriving DecidableEq, Repr, Inhabited

/-- An index declared after the columns. -/
structure IndexDeclaration where
  column : Ident
  spec : IndexSpec
deriving DecidableEq, Repr, Inhabited

/-- A `create table` statement. -/
structure TableDeclaration where
  name : Ident
  columns : List ColumnDeclaration
  indexes : List IndexDeclaration
  timestamp : Option Ident
  /-- The partitioning and the position it is written at. -/
  partitionBy : Option (Partition × Nat)
  recordHint : Option Nat
deriving DecidableEq, Repr, Inhabited

/-- A statement. -/
inductive Statement where
  | query (query : Query)
  | createTable (declaration : TableDeclaration)
deriving BEq, Repr

end SeriesQuery
