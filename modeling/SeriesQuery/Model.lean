import SeriesQuery.Statement

/-!
Compiled queries.

A `Model` is a tree. A model without a projection is a row source: a table or a
nested model, its alias, the sources joined to it and its filters. A model with
a projection computes columns over a nested row source.

Two models are equal for `==` when they agree in everything, positions included,
except that a table counts by its name alone.
-/

namespace SeriesQuery

/-- A column of a projection: an expression and the name it is published under. -/
structure PublishedColumn where
  name : String
  expr : Expr
deriving BEq, Repr, Inhabited

/-- A column of an analytic projection; a plain column has no window. -/
structure WindowedColumn where
  name : String
  expr : Expr
  window : Option Window
deriving BEq, Repr, Inhabited

/-- The columns a model computes. -/
inductive Projection where
  /-- Columns selected and renamed. -/
  | choose (columns : List PublishedColumn)
  /-- Columns computed row by row. -/
  | virtual (columns : List PublishedColumn)
  /-- Aggregates over groups with equal other columns. -/
  | groupBy (columns : List PublishedColumn)
  /-- Window functions over the rows. -/
  | analytic (columns : List WindowedColumn)
deriving BEq, Repr, Inhabited

namespace Projection

/-- The word the projection is printed with. -/
def keyword : Projection → String
  | choose _ => "select-choose"
  | virtual _ => "select-virtual"
  | groupBy _ => "select-group-by"
  | analytic _ => "select-analytic"

/-- The published names and the expressions under them, in order. -/
def columns : Projection → List (String × Expr)
  | choose cs | virtual cs | groupBy cs => cs.map fun c => (c.name, c.expr)
  | analytic cs => cs.map fun c => (c.name, c.expr)

/-- The published names, in order. -/
def aliases (p : Projection) : List String :=
  p.columns.map Prod.fst

/-- The expression published under a name, in any case. -/
def column? (p : Projection) (name : String) : Option Expr :=
  (p.columns.find? fun c => Ascii.same c.1 name).map Prod.snd

/-- The projection with one more column. -/
def push (p : Projection) (name : String) (expr : Expr) : Projection :=
  match p with
  | choose cs => choose (cs ++ [⟨name, expr⟩])
  | virtual cs => virtual (cs ++ [⟨name, expr⟩])
  | groupBy cs => groupBy (cs ++ [⟨name, expr⟩])
  | analytic cs => analytic (cs ++ [⟨name, expr, none⟩])

/-- Whether the projection groups rows. -/
def isGroupBy : Projection → Bool
  | groupBy _ => true
  | _ => false

/-- Whether the projection has window functions. -/
def isAnalytic : Projection → Bool
  | analytic _ => true
  | _ => false

end Projection

/-- Where the rows of a model come from, with models of type `M`. -/
inductive RowSource (M : Type) where
  | table (name : String) (table : Table)
  | nested (model : M)
deriving Repr

instance {M : Type} [BEq M] : BEq (RowSource M) where
  beq
    | .table a _, .table b _ => a == b
    | .nested a, .nested b => a == b
    | _, _ => false

/-- Whether a join was written or is what is left of one without criteria. -/
inductive Provenance where
  | explicit
  /-- No equality relates the joined source to the sources before it. -/
  | implicitCross
deriving DecidableEq, Repr, Inhabited

/-- A joined row source, with models of type `M`. -/
structure JoinClause (M : Type) where
  kind : JoinKind
  model : M
  /-- Equalities of a column of the joined source, on the left, with columns of
  earlier ones. -/
  criteria : List Expr
  /-- A filter on the rows that the join has produced. -/
  postJoinFilter : Option Expr
  provenance : Provenance
  position : Nat
deriving BEq, Repr

/-- The words a join is printed with: one without order sensitivity is a cross join
exactly when it has no criteria. -/
def JoinClause.keyword {M : Type} (j : JoinClause M) : String :=
  match j.kind with
  | .inner | .cross => if j.criteria.isEmpty then JoinKind.cross.keyword else JoinKind.inner.keyword
  | kind => kind.keyword

/-- A compiled query. -/
structure Model where
  projection : Option Projection
  source : RowSource Model
  givenName : Option String
  timestamp : Option Expr
  latestBy : List Expr
  joins : List (JoinClause Model)
  filter : Option Expr
  /-- A filter that looks at no column. -/
  constFilter : Option Expr
  sampleBy : Option Expr
  orderBy : List OrderItem
  limit : Option Limit
deriving BEq, Repr

namespace Model

/-- A model of a row source alone. -/
def ofSource (source : RowSource Model) : Model where
  projection := none
  source := source
  givenName := none
  timestamp := none
  latestBy := []
  joins := []
  filter := none
  constFilter := none
  sampleBy := none
  orderBy := []
  limit := none

/-- The rows of a table, under the name it is written with. -/
def ofTable (name : String) (table : Table) : Model :=
  ofSource (.table name table)

/-- The rows of another model. -/
def nested (model : Model) : Model :=
  ofSource (.nested model)

/-- A projection over the rows of another model. -/
def select (projection : Projection) (body : Model) : Model :=
  { nested body with projection := some projection }

/-- The name of the table the model reads. -/
def tableName? (m : Model) : Option String :=
  match m.source with
  | .table name _ => some name
  | .nested _ => none

/-- The model that the rows come from. -/
def nested? (m : Model) : Option Model :=
  match m.source with
  | .table .. => none
  | .nested inner => some inner

/-- The name of the model in its scope: its alias, else the name of its table. -/
def name? (m : Model) : Option String :=
  m.givenName <|> m.tableName?

/-- Whether a qualifier, in any case, names the model. -/
def isNamed (m : Model) (qualifier : String) : Bool :=
  m.name?.any fun name => Ascii.same name qualifier

/-- Whether the model has clauses besides its alias, timestamp and joins. -/
def hasClauses (m : Model) : Bool :=
  m.filter.isSome || m.constFilter.isSome || !m.latestBy.isEmpty || m.sampleBy.isSome ||
    !m.orderBy.isEmpty || m.limit.isSome

/-- Whether the model groups rows. -/
def isGrouped (m : Model) : Bool :=
  m.projection.any Projection.isGroupBy

/-- Whether the model has window functions. -/
def isAnalytic (m : Model) : Bool :=
  m.projection.any Projection.isAnalytic

/-- The model with one more conjunct in its filter. -/
def withFilter (m : Model) (conjunct : Expr) : Model :=
  { m with filter := some (Expr.narrow m.filter conjunct) }

/-- The designated timestamp of the table the model reads. -/
def timestampOfTable? (m : Model) : Option Expr :=
  match m.source with
  | .table _ table => table.designatedTimestamp?.map fun name => .column (.plain name) 0
  | .nested _ => none

/-- The timestamp of a row source: the one it carries, else the designated timestamp
of the table it reads without joins. -/
def designatedTimestamp? (m : Model) : Option Expr :=
  match m.timestamp with
  | some column => some column
  | none => if m.joins.isEmpty then m.timestampOfTable? else none

/-- Induction along the nested sources of a model. -/
theorem nestedInduct {P : Model → Prop}
    (step : ∀ m, (∀ inner, m.source = .nested inner → P inner) → P m) : ∀ m, P m
  | { source := .table .., .. } => step _ fun _ h => by cases h
  | { source := .nested inner, .. } =>
      step _ fun _ h => RowSource.nested.inj h ▸ nestedInduct step inner

end Model

end SeriesQuery
