import SeriesQuery.Expr.Json
import SeriesQuery.Model

/-!
Models as JSON values. A table is written as its name alone.
-/

namespace SeriesQuery

/-- The name of a way to join. -/
def JoinKind.label : JoinKind → String
  | inner => "Inner"
  | outer => "Outer"
  | asof => "Asof"
  | splice => "Splice"
  | cross => "Cross"

/-- The name of where a join comes from. -/
def Provenance.label : Provenance → String
  | explicit => "Explicit"
  | implicitCross => "ImplicitCross"

/-- An `order by` item as a value. -/
def OrderItem.toJson (item : OrderItem) : Json :=
  .object [("expr", item.expr.toJson), ("descending", .bool item.descending)]

/-- A `limit` as a value. -/
def Limit.toJson (l : Limit) : Json :=
  .object [("lo", l.lo.toJson), ("hi", .ofOption Expr.toJson l.hi)]

/-- A window as a value. -/
def Window.toJson (w : Window) : Json :=
  .object [("partition_by", .ofList Expr.toJson w.partitionBy),
    ("order_by", .ofList OrderItem.toJson w.orderBy)]

/-- A column of a projection as a value. -/
def PublishedColumn.toJson (c : PublishedColumn) : Json :=
  .object [("alias", .string c.name), ("expr", c.expr.toJson)]

/-- A column of an analytic projection as a value. -/
def WindowedColumn.toJson (c : WindowedColumn) : Json :=
  .object [("alias", .string c.name), ("expr", c.expr.toJson),
    ("window", .ofOption Window.toJson c.window)]

/-- A projection as a value. -/
def Projection.toJson : Projection → Json
  | choose cs => .variant "Choose" (.ofList PublishedColumn.toJson cs)
  | virtual cs => .variant "Virtual" (.ofList PublishedColumn.toJson cs)
  | groupBy cs => .variant "GroupBy" (.ofList PublishedColumn.toJson cs)
  | analytic cs => .variant "Analytic" (.ofList WindowedColumn.toJson cs)

namespace Model

/-- A model as a value, given its source and its joins as values. -/
def jsonWith (m : Model) (source : Json) (joins : List Json) : Json :=
  .object [
    ("projection", .ofOption Projection.toJson m.projection),
    ("source", source),
    ("alias", .ofOption .string m.givenName),
    ("timestamp", .ofOption Expr.toJson m.timestamp),
    ("latest_by", .ofList Expr.toJson m.latestBy),
    ("joins", .array joins),
    ("where_clause", .ofOption Expr.toJson m.filter),
    ("const_where", .ofOption Expr.toJson m.constFilter),
    ("sample_by", .ofOption Expr.toJson m.sampleBy),
    ("order_by", .ofList OrderItem.toJson m.orderBy),
    ("limit", .ofOption Limit.toJson m.limit)]

/-- A join as a value, given the joined model as a value. -/
def joinJsonWith (j : JoinClause Model) (model : Json) : Json :=
  .object [
    ("kind", .string j.kind.label),
    ("model", model),
    ("criteria", .ofList Expr.toJson j.criteria),
    ("post_join_where", .ofOption Expr.toJson j.postJoinFilter),
    ("provenance", .string j.provenance.label),
    ("position", .number j.position)]

mutual

/-- A model as a value. -/
def toJson : Model → Json
  | m@{ source, joins, .. } => m.jsonWith (sourceToJson source) (joinsToJson joins)

/-- A source as a value. -/
def sourceToJson : RowSource Model → Json
  | .table name _ => .variant "Table" (.object [("name", .string name)])
  | .nested body => .variant "Nested" body.toJson

/-- Joins as values. -/
def joinsToJson : List (JoinClause Model) → List Json
  | [] => []
  | j@{ model, .. } :: joins => joinJsonWith j model.toJson :: joinsToJson joins

end

end Model

end SeriesQuery
