import SeriesQuery.Clauses
import SeriesQuery.Model.Json
import SeriesQuery.Model.Order
import SeriesQuery.Model.Printer
import SeriesQuery.Placement
import SeriesQuery.Pushdown
import SeriesQuery.Statement.Parser
import SeriesQuery.TableDefinition
import SeriesQuery.Catalog

/-!
Compiling a statement.

The levels of a query are compiled from the inside out, each in the same steps:

    sources, scope, conditions, placement, joins, select list, sample by,
    order by, limit

and then the orders that nobody can see are dropped from the whole tree. The
numbers of made-up aliases and of sentinels run through the statement; nothing
else is carried from one level to the next.
-/

namespace SeriesQuery

/-- What the compiler is given besides the statement. -/
structure Environment where
  table? : String → Option Table
  settings : CompilerSettings

/-- The environment of a catalog and settings. -/
def Environment.of (catalog : Catalog) (settings : CompilerSettings) : Environment :=
  ⟨catalog.table?, settings⟩

namespace Compile

/-- The numbers given out so far in a statement. -/
structure Counters where
  /-- How many aliases have been made up. -/
  aliases : Nat
  /-- How many sentinels have been added. -/
  sentinels : Nat
deriving DecidableEq, Repr, Inhabited

/-- A step of the compilation of a statement. -/
abbrev CompileM := StateT Counters (Except SqlError)

/-! ### Sources -/

/-- A made-up alias. -/
def madeUpAlias : CompileM String :=
  modifyGet fun c => ("_xQdbA" ++ toString c.aliases, { c with aliases := c.aliases + 1 })

/-- The rows of a table that the environment must have. -/
def modelOfTable (env : Environment) (name : Ident) : Except SqlError Model :=
  match env.table? name.name with
  | some table => .ok (.ofTable name.name table)
  | none => .error ⟨name.position, .tableDoesNotExist name.name⟩

/-- A source under its alias; one without any name is given one if `needsName`. -/
def nameSource (m : Model) (given : Option Ident) (needsName : Bool) : CompileM Model := do
  let m := { m with givenName := given.map Ident.name }
  if needsName && m.name?.isNone then
    return { m with givenName := some (← madeUpAlias) }
  else
    return m

/-! ### Joins -/

/-- A joined source that waits for its place in the order. -/
structure UnplacedJoin where
  kind : JoinKind
  position : Nat
  model : Model
deriving BEq, Repr

/-- The sources of a level while they are declared. -/
structure Sources where
  scope : Scope
  /-- The joined sources in the order in which they are declared. -/
  joins : List UnplacedJoin
  /-- The conjuncts of their conditions. -/
  conjuncts : List Conjunct

/-- Whether a join names the columns it equates. -/
def namesColumns (condition : Option JoinCondition) : Bool :=
  match condition with
  | some (.columns _) => true
  | _ => false

/-- The equality of the columns of one name of a joined source and the master. -/
def sharedColumn (joined master : Model) (column : Ident) : Expr :=
  let side (m : Model) :=
    Expr.column (.qualified (m.name?.getD "") column.name) column.position
  .equality (side joined) (side master)

/-- The conjuncts of the condition of the joined source number `index`. -/
def onConjuncts (index : Nat) (joined master : Model) :
    Option JoinCondition → List Conjunct
  | none => []
  | some (.on condition) => Conjunct.ofCondition (.on index) condition
  | some (.columns names) => names.map fun name => ⟨sharedColumn joined master name, .on index⟩

/-- Declares a joined source whose model is `m`. -/
def addJoin (master : Model) (j : JoinOf Query) (m : Model) (s : Sources) :
    CompileM Sources := do
  let m ← nameSource m j.givenName (namesColumns j.condition)
  let scope ← s.scope.declare m.name? j.givenName m.ownColumns
  return {
    scope
    joins := s.joins ++ [⟨j.kind, j.position, m⟩]
    conjuncts := s.conjuncts ++ onConjuncts s.scope.entries.length m master j.condition }

/-- The sentinel number `n`: a condition that always holds. -/
def sentinel (n : Nat) (position : Nat) : Expr :=
  .equality (.constant (toString n) position) (.constant (toString n) position)

/-- The join of the source number `source` as it is placed. -/
def placedJoin (placement : Placement) (source : Nat) (pending : UnplacedJoin) :
    JoinClause Model :=
  let criteria := placement.criteria.getD source []
  { kind := pending.kind
    model := pending.model.addFilters (placement.filters.getD source [])
    criteria
    postJoinFilter := Expr.conjunction (placement.postJoin.getD source [])
    provenance :=
      if !pending.kind.keepsPlace && criteria.isEmpty then .implicitCross else .explicit
    position := pending.position }

/-- The joins in their final order. -/
def placedJoins (placement : Placement) (pending : List UnplacedJoin) :
    List (JoinClause Model) :=
  placement.order.tail.filterMap fun source =>
    pending[source - 1]?.map (placedJoin placement source)

/-- The sentinels of the joins without criteria. -/
def sentinels (enabled : Bool) : List (JoinClause Model) → CompileM (List Expr)
  | [] => return []
  | j :: joins =>
    if enabled && j.provenance = .implicitCross then do
      let n ← modifyGet fun c => (c.sentinels + 1, { c with sentinels := c.sentinels + 1 })
      return sentinel n j.position :: (← sentinels enabled joins)
    else
      sentinels enabled joins

/-- The master with its filters and with the joins in their final order. -/
def joinSources (env : Environment) (master : Model) (pending : List UnplacedJoin)
    (placement : Placement) : CompileM Model := do
  let filtered := master.addFilters (placement.filters.getD 0 [])
  let master := (placement.postJoin.getD 0 []).foldl Model.withFilter filtered
  let joins := placedJoins placement pending
  let added ← sentinels env.settings.synthesizeCrossJoinSentinels joins
  return { master with
    joins
    constFilter := Expr.conjunction (placement.constFilters ++ added) }

/-! ### Query levels -/

/-- The model of a level with its select list, if it has one, and the clauses after it.
`nested` says whether another level encloses it. -/
def finishLevel (env : Environment) (nested : Bool) (scope : Scope) (q : Query) (body : Model) :
    Except SqlError Model := do
  let maxColumns := env.settings.maxOrderByColumns
  match q.select with
  | some select => do
    let (key, body) ← match q.sampleBy with
      | some interval => do
        let (key, body) ← Clause.setSampleBy select scope body interval
        pure (some key, body)
      | none => pure (none, body)
    let layers ← Layers.ofSelect select scope key
    let layers := { layers with sampleBy := q.sampleBy }
    Clause.checkSampleBelow (some layers) nested body
    let layers ← Clause.orderLayers scope maxColumns q.orderBy layers
    let (layers, body) := Clause.setLimit q.limit layers body
    return layers.onto body
  | none => do
    let body ← match q.sampleBy with
      | some interval => Clause.leaveSampleBy scope nested body interval
      | none => pure body
    Clause.checkSampleBelow none nested body
    let body ← Clause.orderBody scope maxColumns q.orderBy body
    return { body with limit := q.limit }

/-- The master of a level with its timestamp and `latest by`, and the scope that holds
it alone. -/
def addMaster (q : Query) (m : Model) : CompileM (Model × Scope) := do
  let master ← nameSource m q.givenName (!q.joins.isEmpty)
  let scope ← Scope.empty.declare master.name? q.givenName master.ownColumns
  let master ← Clause.setTimestamp scope q.timestamp master
  let master ← Clause.setLatestBy scope q.latestBy master
  return (master, scope)

/-- The model of a level whose sources have been declared. -/
def modelOfLevel (env : Environment) (nested : Bool) (q : Query) (master : Model)
    (s : Sources) : CompileM Model := do
  let conjuncts := s.conjuncts ++ match q.filter with
    | some filter => Conjunct.ofCondition .whereClause filter
    | none => []
  let kinds := none :: s.joins.map fun j => some j.kind
  let placement ← Placement.place s.scope kinds conjuncts
  let body ← joinSources env master s.joins placement
  finishLevel env nested s.scope q (Clause.fillTimestamps body)

mutual

/-- The model of a query. -/
def modelOfQuery (env : Environment) (nested : Bool) : Query → CompileM Model
  | q@{ source, joins, .. } => do
    let m ← modelOfSource env source
    let (master, scope) ← addMaster q m
    let sources ← sourcesOfJoins env master joins ⟨scope, [], []⟩
    modelOfLevel env nested q master sources

/-- The model of a source. -/
def modelOfSource (env : Environment) : SourceOf Query → CompileM Model
  | .table name => modelOfTable env name
  | .query q => return .nested (← modelOfQuery env true q)

/-- Declares joined sources from left to right. -/
def sourcesOfJoins (env : Environment) (master : Model) :
    List (JoinOf Query) → Sources → CompileM Sources
  | [], s => return s
  | j@{ source, .. } :: joins, s => do
    let m ← modelOfSource env source
    let s ← addJoin master j m s
    sourcesOfJoins env master joins s

end

end Compile

/-- A compiled statement. -/
inductive Compiled where
  | query (model : Model)
  | createTable (definition : TableDefinition)
deriving BEq, Repr

namespace Compiled

/-- The canonical text. -/
def text : Compiled → String
  | query model => model.text
  | createTable definition => definition.text

/-- The compiled statement as a value. -/
def toJson : Compiled → Json
  | query model => .object [("kind", .string "query"), ("model", model.toJson)]
  | createTable definition =>
      .object [("kind", .string "create_table"), ("model", definition.toJson)]

end Compiled

/-- The model of a query, with the orders that nobody can see dropped. -/
def Query.compile (env : Environment) (q : Query) : Except SqlError Model := do
  let (model, _) ← (Compile.modelOfQuery env false q).run ⟨0, 0⟩
  return model.eliminateOrders false

/-- Compiles a statement. -/
def Statement.compile (env : Environment) : Statement → Except SqlError Compiled
  | .query q => do return .query (← q.compile env)
  | .createTable d => do return .createTable (← TableDefinition.ofDeclaration env.settings d)

/-- Compiles the statement that a text writes. -/
def compile (env : Environment) (sql : String) : Except SqlError Compiled := do
  let statement ← Statement.ofText sql
  statement.compile env

end SeriesQuery
