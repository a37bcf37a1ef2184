import SeriesQuery.Model

/-!
Orders that nobody can see.

An `order by` is dropped where an enclosing model orders or groups the rows again.
It stays under a `limit`, `sample by` or window function, which look at the order,
and on the way into time-ordered joins.
-/

namespace SeriesQuery.Model

/-- Whether the model makes an order of its own: it sorts, or it groups other than by
time. -/
def ordersRows (m : Model) : Bool :=
  !m.orderBy.isEmpty || (m.isGrouped && m.sampleBy.isNone)

/-- Whether the order of the rows that the model reads is thrown away, when
`orderedAbove` says whether that of its own rows is. -/
def ordersBelow (m : Model) (orderedAbove : Bool) : Bool :=
  if m.sampleBy.isSome || m.isAnalytic then false
  else if m.limit.isSome then m.ordersRows
  else orderedAbove || m.ordersRows

/-- The model without its own `order by`, if its order is thrown away and no `limit`
looks at it. -/
def dropOrder (m : Model) (orderedAbove : Bool) : Model :=
  if orderedAbove && m.limit.isNone then { m with orderBy := [] } else m

/-- Whether a joined source of the model is joined by time. -/
def hasTimeJoin (m : Model) : Bool :=
  m.joins.any fun j => j.kind.matchesByTime

mutual

/-- The model without the orders that are thrown away, when `orderedAbove` says whether
that of its own rows is. -/
def eliminateOrders (orderedAbove : Bool) : Model → Model
  | m@{ source, joins, .. } =>
    let kept := m.dropOrder orderedAbove
    let below := kept.ordersBelow orderedAbove
    { kept with
      source := eliminateInSource (below && !m.hasTimeJoin) source
      joins := eliminateInJoins below joins }

/-- Applies `eliminateOrders` in a nested source. -/
def eliminateInSource (orderedAbove : Bool) : RowSource Model → RowSource Model
  | .table name table => .table name table
  | .nested inner => .nested (inner.eliminateOrders orderedAbove)

/-- Applies `eliminateOrders` in joined sources; sources joined by time keep their orders. -/
def eliminateInJoins (orderedAbove : Bool) : List (JoinClause Model) → List (JoinClause Model)
  | [] => []
  | j@{ kind, model, .. } :: joins =>
      { j with model := model.eliminateOrders (orderedAbove && !kind.matchesByTime) } ::
        eliminateInJoins orderedAbove joins

end

end SeriesQuery.Model
