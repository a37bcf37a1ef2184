import SeriesQuery.Model

/-!
Filters moved into sub-queries.

A filter on a source belongs in the sub-query that the source reads if it selects
the same rows there. That is so below projections that pass the filter's columns
through unchanged and above no joins, as long as nothing on the way looks at more
than one row: no limit, `latest by`, `sample by` or window function.
-/

namespace SeriesQuery

namespace Projection

/-- A condition on the output of a projection as a condition on its input; none if it
refers to an output that is not a plain column. -/
def through? (p : Projection) (condition : Expr) : Option Expr :=
  condition.replaceColumnsM (m := Option) fun ref position =>
    ((p.column? ref.name).bind Expr.column?).map fun input => .column input position

end Projection

namespace Model

/-- Whether the rows of the model depend on more than one row of its source. -/
def keepsFiltersOut (m : Model) : Bool :=
  m.limit.isSome || !m.latestBy.isEmpty || m.sampleBy.isSome || m.isAnalytic

/-- A condition with the qualifiers of its columns taken away. -/
def unqualified (condition : Expr) : Expr :=
  condition.replaceColumns fun ref position => .column (.plain ref.name) position

/-- The model with a condition on its output moved inside; none if it cannot be. In a
row source without joins it goes as deep as it can, and stays as a filter where it
cannot go deeper. -/
def pushInto? : Model → Expr → Option Model
  | m@{ projection := none, source := .table .., joins, .. }, condition =>
    if m.keepsFiltersOut || !joins.isEmpty then none
    else some (m.withFilter (unqualified condition))
  | m@{ projection := none, source := .nested inner, joins, .. }, condition =>
    if m.keepsFiltersOut || !joins.isEmpty then none
    else match pushInto? inner (unqualified condition) with
      | some inner => some { m with source := .nested inner }
      | none => some (m.withFilter (unqualified condition))
  | { projection := some _, source := .table .., .. }, _ => none
  | m@{ projection := some p, source := .nested body, .. }, condition =>
    if m.keepsFiltersOut then none
    else match p.through? condition with
      | none => none
      | some condition =>
        match pushInto? body condition with
        | some body => some { m with source := .nested body }
        | none => none

/-- A row source with one more filter, which goes into the sub-query it reads if it
can. -/
def addFilter (m : Model) (condition : Expr) : Model :=
  match m.source with
  | .table .. => m.withFilter condition
  | .nested inner =>
    match inner.pushInto? condition with
    | some inner => { m with source := .nested inner }
    | none => m.withFilter condition

/-- A row source with more filters, in order. -/
def addFilters (m : Model) (conditions : List Expr) : Model :=
  conditions.foldl addFilter m

end Model

end SeriesQuery
