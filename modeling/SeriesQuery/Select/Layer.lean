import SeriesQuery.Alias
import SeriesQuery.Expr.Printer
import SeriesQuery.Model

/-!
A projection that feeds the one above it.

A layer is grown while the expressions above it are changed to read from it: a
column that is carried through is published once, under its default name or the
nearest free one, and a computed expression under a name it is given.
-/

namespace SeriesQuery

/-- Whether the column republishes a column under its own name. -/
def PublishedColumn.keepsName (c : PublishedColumn) : Bool :=
  c.expr.column?.any fun ref => ref.text == c.name

/-- The columns that a layer publishes and the names it has taken. -/
structure Layer where
  columns : List PublishedColumn
  aliases : AliasSet
deriving BEq, Repr, Inhabited

namespace Layer

/-- The layer that publishes nothing yet. -/
def empty : Layer :=
  ⟨[], .empty⟩

/-- A reference to what is published under a name. -/
def reference (name : String) (position : Nat) : Expr :=
  .column (.plain name) position

/-- Publishes an expression under a name made of `base`, and refers to it. -/
def publish (base : String) (e : Expr) : StateM Layer Expr := do
  let layer ← get
  let (name, aliases) := layer.aliases.claimFresh base
  set ({ columns := layer.columns ++ [⟨name, e⟩], aliases := aliases } : Layer)
  return reference name e.position

/-- Refers to an expression that is written like `e`; publishes it if none is. -/
def forward (e : Expr) : StateM Layer Expr := do
  match (← get).columns.find? fun c => c.expr.sameText e with
  | some c => return reference c.name e.position
  | none => publish e.defaultName e

/-- Carries every column of an expression through the layer. -/
def carry (e : Expr) : StateM Layer Expr :=
  e.replaceColumnsM fun ref position => forward (.column ref position)

/-- Carries every column of an `order by` item through the layer. -/
def carryOrderItem (item : OrderItem) : StateM Layer OrderItem :=
  return { item with expr := ← carry item.expr }

/-- Carries every column of a window through the layer. -/
def carryWindow (w : Window) : StateM Layer Window := do
  let partitionBy ← w.partitionBy.mapM carry
  let orderBy ← w.orderBy.mapM carryOrderItem
  return ⟨partitionBy, orderBy⟩

/-- Whether the layer republishes columns under their own names and does nothing
else. -/
def changesNothing (layer : Layer) : Bool :=
  layer.columns.all PublishedColumn.keepsName

/-- Carries every column of an expression through a layer, if there is one. -/
def carryThrough (layer : Option Layer) (e : Expr) : Expr × Option Layer :=
  match layer with
  | some layer =>
    let (e, layer) := (carry e).run layer
    (e, some layer)
  | none => (e, none)

end Layer

end SeriesQuery
