import SeriesQuery.Scope
import SeriesQuery.Select.Layers

/-!
How a select list is laid out in layers.

A list without aggregates and window functions is a `select-choose` if every item
is a plain column and a `select-virtual` otherwise. A list with aggregates is
grouped: its other items are the keys, and an item that computes with aggregates
is computed in a layer on top of the groups. A list with window functions is
analytic. Under a layer that computes, columns first get the names they are
published with, unless every one of them has its own name already.
-/

namespace SeriesQuery

/-! ### The select list as written -/

namespace SelectClause

/-- Resolves the columns of every expression. -/
def resolveAll (scope : Scope) : List Expr → Except SqlError Unit
  | [] => .ok ()
  | e :: es =>
    match scope.sourcesIn e with
    | .error error => .error error
    | .ok _ => resolveAll scope es

/-- The expressions of an item: its own and those of its window. -/
def itemExprs (item : SelectItem) : List Expr :=
  item.expr :: match item.window with
    | some w => w.partitionBy ++ w.orderBy.map OrderItem.expr
    | none => []

/-- The names that items are given, each of which must be free. -/
def explicitAliases : List Ident → AliasSet → Except SqlError AliasSet
  | [], taken => .ok taken
  | given :: aliases, taken =>
    if taken.isFree given.name then explicitAliases aliases (taken.insert given.name)
    else .error ⟨given.position, .duplicateColumn given.name⟩

/-- The names that the select list gives. -/
def takenAliases (select : SelectClause) : Except SqlError AliasSet :=
  explicitAliases (select.items.filterMap SelectItem.givenName) .empty

/-- Whether the select list has window functions. -/
def isAnalytic (select : SelectClause) : Bool :=
  select.items.any fun item => item.window.isSome

/-- Whether the select list aggregates outside of windows. -/
def hasAggregate (select : SelectClause) : Bool :=
  select.items.any fun item => item.window.isNone && item.expr.hasAggregate

/-- Checks a select list against a scope and says whether it aggregates. Window
functions and aggregates exclude each other. -/
def resolve (select : SelectClause) (scope : Scope) : Except SqlError Bool := do
  resolveAll scope (select.items.flatMap itemExprs)
  let _ ← select.takenAliases
  if select.isAnalytic && select.hasAggregate then
    throw ⟨select.position, .analyticFunctionNotAllowed⟩
  return select.hasAggregate

end SelectClause

namespace Select

/-! ### Items under their names -/

/-- An item of a select list under the name it is published with. -/
structure Item where
  name : String
  expr : Expr
  window : Option Window
deriving BEq, Repr, Inhabited

/-- Whether the item is a plain column. -/
def Item.isColumn (item : Item) : Bool :=
  item.expr.column?.isSome

/-- An item under its given name, or under one made of its default name. -/
def nameItem (item : SelectItem) : StateM AliasSet Item := do
  match item.givenName with
  | some given => return ⟨given.name, item.expr, item.window⟩
  | none => do
    let (name, taken) := (← get).claimFresh item.expr.defaultName
    set taken
    return ⟨name, item.expr, item.window⟩

/-- The sample key under a name made of its default name. -/
def nameKey (key : Expr) : StateM AliasSet Item :=
  nameItem ⟨key, none, none⟩

/-- The items of a select list, behind the sample key if there is one. -/
def nameItems (key : Option Expr) (items : List SelectItem) : StateM AliasSet (List Item) := do
  let keys ← key.toList.mapM nameKey
  let items ← items.mapM nameItem
  return keys ++ items

/-! ### The naming layer -/

/-- An item that reads from a naming layer: a renamed column is published there
under its new name. -/
def rename (item : Item) : StateM Layer Item := do
  let renamed := item.window.isNone && item.expr.column?.any fun ref => ref.name != item.name
  let expr ←
    if renamed then Layer.publish item.name item.expr else Layer.carry item.expr
  let window ← match item.window with
    | some w => some <$> Layer.carryWindow w
    | none => pure none
  return ⟨item.name, expr, window⟩

/-- The items that read from a naming layer, and that layer; the items as they are
if it would do nothing. -/
def renameItems (items : List Item) : List Item × Option Layer :=
  let (renamed, layer) := (items.mapM rename).run Layer.empty
  if layer.changesNothing then (items, none) else (renamed, some layer)

/-! ### Groups -/

/-- What grows while the items of a grouped select list are laid out. -/
structure Grouping where
  aliases : AliasSet
  inner : Option Layer
  main : List PublishedColumn
deriving BEq, Repr, Inhabited

/-- Carries the columns of an expression through the inner layer, if there is one. -/
def carryInner (e : Expr) : StateM Grouping Expr := do
  let g ← get
  let (e, inner) := Layer.carryThrough g.inner e
  set { g with inner := inner }
  return e

/-- Adds a column to the groups. -/
def addMain (name : String) (e : Expr) : StateM Grouping Unit :=
  modify fun g => { g with main := g.main ++ [⟨name, e⟩] }

/-- Computes an aggregate call as a column of the groups and refers to it. -/
def liftCall (call : Expr) : StateM Grouping Expr := do
  let g ← get
  let (name, aliases) := g.aliases.claimFresh call.defaultName
  set { g with aliases := aliases }
  addMain name (← carryInner call)
  return Layer.reference name call.position

/-- Computes every aggregate call in an expression as a column of the groups. -/
def liftAggregates (e : Expr) : StateM Grouping Expr :=
  e.replaceM fun part => if part.isAggregate then some (liftCall part) else none

/-- The input of the groups for a key: a computed key is computed in the inner layer,
which there is then. -/
def keyInput (item : Item) : StateM Grouping Expr := do
  let g ← get
  match g.inner with
  | none => return item.expr
  | some layer =>
    let (e, layer) :=
      (if item.isColumn then Layer.forward item.expr
        else Layer.publish item.name item.expr).run layer
    set { g with inner := some layer }
    return e

/-- Adds an item to the groups; the answer is its column in a layer on top of them. -/
def groupItem (item : Item) : StateM Grouping PublishedColumn := do
  if item.expr.isAggregate then
    addMain item.name (← carryInner item.expr)
    return ⟨item.name, Layer.reference item.name item.expr.position⟩
  else if item.expr.hasAggregate then
    return ⟨item.name, ← liftAggregates item.expr⟩
  else
    addMain item.name (← keyInput item)
    return ⟨item.name, Layer.reference item.name item.expr.position⟩

/-- The projections of a grouped select list. -/
def group (aliases : AliasSet) (items : List Item) :
    Option Layer × Projection × Option Projection :=
  let needsInner := items.any fun item => !item.expr.hasAggregate && !item.isColumn
  let needsOuter := items.any fun item =>
    item.expr.hasAggregate && !item.expr.isAggregate
  let start : Grouping := ⟨aliases, if needsInner then some .empty else none, []⟩
  let (outer, g) := (items.mapM groupItem).run start
  (g.inner, .groupBy g.main, if needsOuter then some (.virtual outer) else none)

/-! ### Window functions -/

/-- An item of an analytic projection that reads from the inner layer. -/
def windowItem (item : Item) : StateM Layer WindowedColumn := do
  match item.window with
  | some w =>
    let expr ← Layer.carry item.expr
    let window ← Layer.carryWindow w
    return ⟨item.name, expr, some window⟩
  | none =>
    let expr ← if item.isColumn then Layer.forward item.expr
      else Layer.publish item.name item.expr
    return ⟨item.name, expr, none⟩

/-- The projections of a select list with window functions. -/
def analyze (items : List Item) : Option Layer × Projection :=
  if items.any fun item => item.window.isNone && !item.isColumn then
    let (columns, layer) := (items.mapM windowItem).run Layer.empty
    (some layer, .analytic columns)
  else
    (none, .analytic (items.map fun item => ⟨item.name, item.expr, item.window⟩))

/-! ### The whole list -/

/-- The projections of a select list: the inner layer, the main one and the outer one. -/
def project (aggregate analytic plain : Bool) (aliases : AliasSet) (items : List Item) :
    Option Layer × Projection × Option Projection :=
  if aggregate then
    group aliases items
  else if analytic then
    let (inner, main) := analyze items
    (inner, main, none)
  else
    let columns := items.map fun item => (⟨item.name, item.expr⟩ : PublishedColumn)
    (none, if plain then .choose columns else .virtual columns, none)

end Select

/-- The layers of a select list over a scope. A sample key becomes the first item and
takes its default name before any item without a name does. -/
def Layers.ofSelect (select : SelectClause) (scope : Scope) (key : Option Expr) :
    Except SqlError Layers := do
  let aggregate ← select.resolve scope
  let explicit ← select.takenAliases
  let (named, aliases) := (Select.nameItems key select.items).run explicit
  let analytic := named.any fun item => item.window.isSome
  let plain := named.all Select.Item.isColumn
  let (items, naming) :=
    if aggregate || analytic || !plain then Select.renameItems named else (named, none)
  let (inner, main, outer) := Select.project aggregate analytic plain aliases items
  return {
    naming, inner, main, outer
    items := named.map fun item => (item.name, item.expr)
    wrap := false
    timestamp := if key.isSome then main.columns.head?.map Prod.snd else none
    sampleBy := none
    orderBy := []
    limit := none }

end SeriesQuery
