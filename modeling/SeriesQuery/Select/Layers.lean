import SeriesQuery.Select.Layer

/-!
The projections that a select list becomes, and the clauses bound to them.

From the top to the row source:

    outer         virtual    arithmetic over aggregates      sum + 25 total
    main                     the projection itself           x, sum(z) sum
    inner         virtual    computed keys and arguments     a + b x, z
    naming        choose     renamed and qualified columns   c.id id

Layers with nothing to do are left out. An `order by` column that the select list
does not publish is added to the main layer as a hidden column, and a last
projection then takes it away again.
-/

namespace SeriesQuery

/-- The layers of one query level. -/
structure Layers where
  naming : Option Layer
  inner : Option Layer
  main : Projection
  outer : Option Projection
  /-- The names of the select list and the expressions written under them. -/
  items : List (String × Expr)
  /-- Whether a last projection has to take hidden columns away. -/
  wrap : Bool
  timestamp : Option Expr
  sampleBy : Option Expr
  orderBy : List OrderItem
  limit : Option Limit
deriving BEq, Repr, Inhabited

namespace Layers

/-- The projection that makes the rows of the select list. -/
def top (l : Layers) : Projection :=
  l.outer.getD l.main

/-- Whether the main layer looks at more than one row. -/
def combinesRows (l : Layers) : Bool :=
  l.main.isGroupBy || l.main.isAnalytic

/-- The published name that an `order by` column means: one it spells, in any case, or
the one of an item written as that column. -/
def publishedName? (l : Layers) (ref : ColumnRef) : Option String :=
  let byName :=
    if ref.qualifier.isNone then l.top.aliases.find? fun name => Ascii.same name ref.name
    else none
  let byColumn := l.items.find? fun item =>
    item.2.column?.any fun written => Ascii.same written.text ref.text
  byName <|> byColumn.map Prod.fst

/-- Carries a source column through the layers below the main one. -/
def bringUp (l : Layers) (e : Expr) : Expr × Layers :=
  let (e, naming) := Layer.carryThrough l.naming e
  let (e, inner) := Layer.carryThrough l.inner e
  (e, { l with naming := naming, inner := inner })

/-- A layer that publishes what a projection does. -/
def copyOf (p : Projection) : Layer where
  columns := p.columns.map fun c => ⟨c.1, c.2⟩
  aliases := .ofList p.aliases

/-- The input of the main layer for a hidden column. A computing layer without one
below it reads the column from a copy of itself. -/
def hiddenInput (l : Layers) (e : Expr) : Expr × Layers :=
  match l.naming, l.main with
  | none, .virtual _ =>
    let (e, layer) := (Layer.forward e).run (copyOf l.main)
    (e, { l with naming := some layer })
  | _, _ => l.bringUp e

/-- Publishes a source column that only the order needs, and its name; none if the main
layer cannot carry more columns. -/
def publishHidden (l : Layers) (e : Expr) : Option String × Layers :=
  if l.combinesRows || l.outer.isSome then
    (none, l)
  else
    match l.main.columns.find? fun c => c.2.sameText e with
    | some c => (some c.1, l)
    | none =>
      let (routed, l) := l.hiddenInput e
      let name := (AliasSet.ofList l.main.aliases).freeName e.defaultName
      (some name, { l with main := l.main.push name routed, wrap := true })

/-- A model with one more projection on top, if there is one. -/
def stack (projection : Option Projection) (m : Model) : Model :=
  match projection with
  | some p => .select p m
  | none => m

/-- The select list again, by its names, without the hidden columns. -/
def visible (l : Layers) : Projection :=
  .choose (l.items.map fun item => ⟨item.1, Layer.reference item.1 0⟩)

/-- The layers put on a row source. -/
def onto (l : Layers) (body : Model) : Model :=
  let body := stack (l.naming.map fun layer => .choose layer.columns) body
  let body := stack (l.inner.map fun layer => .virtual layer.columns) body
  let main := { Model.select l.main body with timestamp := l.timestamp, sampleBy := l.sampleBy }
  let top := { stack l.outer main with orderBy := l.orderBy, limit := l.limit }
  if l.wrap then .select l.visible top else top

end Layers

end SeriesQuery
