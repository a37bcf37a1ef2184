import SeriesQuery.Expr.Printer
import SeriesQuery.Model

/-!
The canonical text of a model.

    select-<kind> column [alias], ... from (<body>) [clauses]
    <table | (nested)> [alias] [timestamp (c)] [latest by ...] [joins] [where e]
        [const-where e] [sample by v] [order by ...] [limit lo[,hi]]

A joined model with clauses of its own stands in parentheses with its alias
after them. The text is a function of the model, so it serves as a key.
-/

namespace SeriesQuery

/-- The texts with `, ` between them. -/
def commaSeparated (texts : List String) : String :=
  ", ".intercalate texts

/-- The text of an `order by` item. -/
def OrderItem.text (item : OrderItem) : String :=
  if item.descending then item.expr.text ++ " desc" else item.expr.text

/-- The text of an `order by` list. -/
def orderByText (items : List OrderItem) : String :=
  commaSeparated (items.map OrderItem.text)

/-- The text of a list of expressions. -/
def expressionsText (es : List Expr) : String :=
  commaSeparated (es.map Expr.text)

/-- The text of a window. -/
def Window.text (w : Window) : String :=
  let partitions :=
    if w.partitionBy.isEmpty then [] else ["partition by " ++ expressionsText w.partitionBy]
  let orders := if w.orderBy.isEmpty then [] else ["order by " ++ orderByText w.orderBy]
  " over (" ++ " ".intercalate (partitions ++ orders) ++ ")"

/-- The text of a published column: a column under its own name needs no alias. -/
def publishedText (name : String) (expr : Expr) : String :=
  if expr.column?.isSome && expr.text == name then expr.text else expr.text ++ " " ++ name

/-- The text of a column of an analytic projection. -/
def WindowedColumn.text (c : WindowedColumn) : String :=
  publishedText c.name c.expr ++ (c.window.map Window.text).getD ""

/-- The text of a projection. -/
def Projection.text (p : Projection) : String :=
  p.keyword ++ " " ++ match p with
    | .choose cs | .virtual cs | .groupBy cs =>
        commaSeparated (cs.map fun c => publishedText c.name c.expr)
    | .analytic cs => commaSeparated (cs.map WindowedColumn.text)

/-- A clause, if there is one: a word and its text. -/
def clauseText (word : String) (text : Option String) : String :=
  match text with
  | some t => " " ++ word ++ t
  | none => ""

/-- A clause over a list, if the list is not empty. -/
def listClauseText (word : String) (isEmpty : Bool) (text : String) : String :=
  clauseText word (if isEmpty then none else some text)

/-- The text of a `limit`. -/
def Limit.text (l : Limit) : String :=
  match l.hi with
  | some hi => l.lo.text ++ "," ++ hi.text
  | none => l.lo.text

/-- The text of join criteria. -/
def criteriaText (criteria : List Expr) : String :=
  clauseText "on "
    (if criteria.isEmpty then none else some (" and ".intercalate (criteria.map Expr.text)))

namespace Model

/-- The text of a model, given the texts of its source and its joins. -/
def textWith (m : Model) (source joins : String) : String :=
  source ++ clauseText "" m.givenName ++
    clauseText "timestamp (" (m.timestamp.map fun t => t.text ++ ")") ++
    listClauseText "latest by " m.latestBy.isEmpty (expressionsText m.latestBy) ++ joins ++
    clauseText "where " (m.filter.map Expr.text) ++
    clauseText "const-where " (m.constFilter.map Expr.text) ++
    clauseText "sample by " (m.sampleBy.map Expr.text) ++
    listClauseText "order by " m.orderBy.isEmpty (orderByText m.orderBy) ++
    clauseText "limit " (m.limit.map Limit.text)

/-- The text of a join, given the text of the joined model. -/
def joinText (j : JoinClause Model) (model : String) : String :=
  " " ++ j.keyword ++ " " ++
    (if j.model.hasClauses then "(" ++ model ++ ")" ++ clauseText "" j.model.givenName
      else model) ++
    criteriaText j.criteria ++ clauseText "post-join-where " (j.postJoinFilter.map Expr.text)

mutual

/-- The canonical text of a model. -/
def text : Model → String
  | m@{ projection, source, joins, .. } =>
      m.textWith (sourceText projection source) (joinsText joins)

/-- The text of a source, under a projection if there is one. -/
def sourceText : Option Projection → RowSource Model → String
  | some p, .table name _ => p.text ++ " from (" ++ name ++ ")"
  | some p, .nested body => p.text ++ " from (" ++ text body ++ ")"
  | none, .table name _ => name
  | none, .nested body => "(" ++ text body ++ ")"

/-- The texts of joins, one after the other. -/
def joinsText : List (JoinClause Model) → String
  | [] => ""
  | j@{ model, .. } :: joins => joinText j (text model) ++ joinsText joins

end

end Model

end SeriesQuery
