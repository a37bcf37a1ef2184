import SeriesQuery.Model

/-!
The columns of a model and their types.

A column that a model shows has a type when it is a column of a table or passes
one through; a computed column has none.
-/

namespace SeriesQuery

/-- A column that a source shows to the scope it stands in. -/
structure ShownColumn where
  name : String
  type : Option ColumnType
deriving DecidableEq, Repr, Inhabited

/-- The columns of a table as a source shows them. -/
def Table.shownColumns (t : Table) : List ShownColumn :=
  t.columns.map fun c => ⟨c.name, some c.type⟩

/-- The first of `columns` with the given name, in any case. -/
def ShownColumn.find? (columns : List ShownColumn) (name : String) : Option ShownColumn :=
  columns.find? fun c => Ascii.same c.name name

/-- The type of the first of `columns` with the given name, in any case. -/
def ShownColumn.typeOf (columns : List ShownColumn) (name : String) : Option ColumnType :=
  (ShownColumn.find? columns name).bind ShownColumn.type

/-- A source as its scope sees it: its alias or table name, which a sub-query may be
without, and its columns. -/
structure ScopeEntry where
  name : Option String
  columns : List ShownColumn
deriving DecidableEq, Repr, Inhabited

/-- Whether a qualifier, in any case, names the source. -/
def ScopeEntry.isNamed (e : ScopeEntry) (qualifier : String) : Bool :=
  e.name.any fun name => Ascii.same name qualifier

/-- The type of the first column that a reference may mean among `entries`. -/
def ScopeEntry.typeOf (entries : List ScopeEntry) (ref : ColumnRef) : Option ColumnType :=
  let visible : List ScopeEntry := match ref.qualifier with
    | some q => entries.filter fun e => e.isNamed q
    | none => entries
  ShownColumn.typeOf (visible.flatMap ScopeEntry.columns) ref.name

/-- The columns that a projection shows, when `typeOf` gives the types of the columns
it reads. -/
def Projection.shownColumns (p : Projection) (typeOf : ColumnRef → Option ColumnType) :
    List ShownColumn :=
  p.columns.map fun (name, expr) => ⟨name, expr.column?.bind typeOf⟩

namespace Model

mutual

/-- The columns that a model shows: those of its projection, else those of its own
source and of every joined one. -/
def shownColumns : Model → List ShownColumn
  | { projection := none, source, joins, .. } => ownColumnsOf source ++ joinedColumns joins
  | { projection := some p, source := .nested body, .. } =>
      if body.projection.isSome then
        let columns := shownColumns body
        p.shownColumns fun ref => ShownColumn.typeOf columns ref.name
      else
        p.shownColumns (ScopeEntry.typeOf (sources body))
  | { projection := some p, source := .table name table, givenName, joins, .. } =>
      p.shownColumns <|
        ScopeEntry.typeOf (⟨givenName <|> some name, table.shownColumns⟩ :: joinedSources joins)

/-- The columns of a source without what is joined to it. -/
def ownColumnsOf : RowSource Model → List ShownColumn
  | .table _ table => table.shownColumns
  | .nested inner => shownColumns inner

/-- The columns that the joined models show, in order. -/
def joinedColumns : List (JoinClause Model) → List ShownColumn
  | [] => []
  | { model, .. } :: joins => shownColumns model ++ joinedColumns joins

/-- The sources of a row source: its own and every joined one. -/
def sources : Model → List ScopeEntry
  | { source := .table name table, givenName, joins, .. } =>
      ⟨givenName <|> some name, table.shownColumns⟩ :: joinedSources joins
  | { source := .nested inner, givenName, joins, .. } =>
      ⟨givenName, shownColumns inner⟩ :: joinedSources joins

/-- The joined models as sources. -/
def joinedSources : List (JoinClause Model) → List ScopeEntry
  | [] => []
  | { model := { source := .table name table, givenName, .. }, .. } :: joins =>
      ⟨givenName <|> some name, table.shownColumns⟩ :: joinedSources joins
  | { model := { source := .nested inner, givenName, .. }, .. } :: joins =>
      ⟨givenName, shownColumns inner⟩ :: joinedSources joins

end

/-- The columns of the model's own source. -/
def ownColumns (m : Model) : List ShownColumn :=
  ownColumnsOf m.source

/-- The type of a column as the model's own expressions see it. -/
def typeOf (m : Model) (ref : ColumnRef) : Option ColumnType :=
  match m.projection, m.source with
  | some _, .nested body =>
      if body.projection.isSome then ShownColumn.typeOf body.shownColumns ref.name
      else ScopeEntry.typeOf body.sources ref
  | _, _ => ScopeEntry.typeOf m.sources ref

end Model

end SeriesQuery
