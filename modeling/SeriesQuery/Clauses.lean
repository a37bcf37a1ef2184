import SeriesQuery.Select.Layering

/-!
The clauses of a query level bound to its model or its layers: `timestamp`,
`latest by`, `sample by`, `order by` and `limit`.
-/

namespace SeriesQuery

namespace Clause

/-! ### Columns of the master -/

/-- Checks that an expression is a column of the master. -/
def inMaster (scope : Scope) (e : Expr) : Except SqlError Unit :=
  match e.column? with
  | none => .error ⟨e.position, .invalidColumn e.text⟩
  | some ref =>
    match scope.resolve ref e.position with
    | .error error => .error error
    | .ok resolved =>
      if resolved.source = 0 then .ok () else .error ⟨e.position, .invalidColumn ref.text⟩

/-- Checks that expressions are columns of the master. -/
def allInMaster (scope : Scope) : List Expr → Except SqlError Unit
  | [] => .ok ()
  | e :: es =>
    match inMaster scope e with
    | .error error => .error error
    | .ok _ => allInMaster scope es

/-- Gives the master the timestamp that `timestamp (...)` nominates. -/
def setTimestamp (scope : Scope) (timestamp : Option Expr) (m : Model) :
    Except SqlError Model :=
  match timestamp with
  | none => .ok m
  | some e =>
    match inMaster scope e with
    | .error error => .error error
    | .ok _ => .ok { m with timestamp := some e }

/-- Gives the master its `latest by` columns. -/
def setLatestBy (scope : Scope) (columns : List Expr) (m : Model) : Except SqlError Model :=
  match allInMaster scope columns with
  | .error error => .error error
  | .ok _ => .ok (if columns.isEmpty then m else { m with latestBy := columns })

/-! ### Timestamps of time-ordered joins -/

/-- The model with the designated timestamp of the table it reads, unless it carries a
timestamp already. -/
def fillTimestamp (m : Model) : Model :=
  if m.timestamp.isSome then m else { m with timestamp := m.timestampOfTable? }

/-- Whether a join matches rows by their timestamps. -/
def joinsByTime (j : JoinClause Model) : Bool :=
  j.kind.matchesByTime

/-- Gives the master of a time-ordered join, and each source joined in that way, the
timestamp of its table. -/
def fillTimestamps (m : Model) : Model :=
  if m.joins.any joinsByTime then
    { fillTimestamp m with
      joins := m.joins.map fun j =>
        if joinsByTime j then { j with model := fillTimestamp j.model } else j }
  else m

/-! ### `sample by` -/

/-- The error of a `sample by` that nothing aggregates. -/
def needsAggregate (interval : Expr) : SqlError :=
  ⟨interval.position, .atLeastOneAggregateRequired⟩

/-- Checks that a column that a type is known for is a timestamp. -/
def checkTimestamp (scope : Scope) (timestamp : Expr) : Except SqlError Unit :=
  match timestamp.column? with
  | none => .ok ()
  | some ref =>
    match scope.resolve ref timestamp.position with
    | .error error => .error error
    | .ok resolved =>
      if resolved.type.any fun t => t ≠ .timestamp then
        .error ⟨timestamp.position, .notATimestamp ref.name⟩
      else .ok ()

/-- The column that `sample by` groups on: the timestamp of the level. -/
def sampleColumn (scope : Scope) (body : Model) (interval : Expr) : Except SqlError Expr :=
  match body.designatedTimestamp? with
  | none => .error ⟨interval.position, .timestampNotDefined⟩
  | some timestamp =>
    match checkTimestamp scope timestamp with
    | .error error => .error error
    | .ok _ => .ok timestamp

/-- The sample key of a select list, which must aggregate, and the row source without
the timestamp that the key takes over. -/
def setSampleBy (select : SelectClause) (scope : Scope) (body : Model) (interval : Expr) :
    Except SqlError (Expr × Model) := do
  if ← select.resolve scope then
    let key ← sampleColumn scope body interval
    return (key, { body with timestamp := none })
  else
    throw (needsAggregate interval)

/-- Keeps a `sample by` without a select list on its row source, for an enclosing level
to aggregate. -/
def leaveSampleBy (scope : Scope) (nested : Bool) (body : Model) (interval : Expr) :
    Except SqlError Model := do
  if nested then
    let key ← sampleColumn scope body interval
    return { body with timestamp := some key, sampleBy := some interval }
  else
    throw (needsAggregate interval)

/-- The interval of a `sample by` that the row sources of a model defer. -/
def pendingSampleBy? : Model → Option Expr
  | { projection := some _, .. } => none
  | { projection := none, sampleBy := some interval, .. } => some interval
  | { projection := none, sampleBy := none, source := .table .., .. } => none
  | { projection := none, sampleBy := none, source := .nested inner, .. } =>
      pendingSampleBy? inner

/-- Checks that a deferred `sample by` is aggregated by this level, or deferred again. -/
def checkSampleBelow (layers : Option Layers) (nested : Bool) (body : Model) :
    Except SqlError Unit :=
  match pendingSampleBy? body with
  | none => .ok ()
  | some interval =>
    let aggregated := match layers with
      | some l => l.main.isGroupBy
      | none => nested
    if aggregated then .ok () else .error (needsAggregate interval)

/-! ### `order by` -/

/-- The published name that an `order by` column means, where a qualifier that names a
source of the scope may be dropped. -/
def orderAlias? (l : Layers) (scope : Scope) (ref : ColumnRef) : Option String :=
  match l.publishedName? ref with
  | some name => some name
  | none =>
    match ref.qualifier with
    | none => none
    | some qualifier =>
      if scope.hasName qualifier then l.publishedName? (.plain ref.name) else none

/-- Binds an `order by` column to a published name, or adds it as a hidden column. -/
def orderColumn (scope : Scope) (e : Expr) (l : Layers) : Except SqlError (Expr × Layers) :=
  match e.column? with
  | none => .error ⟨e.position, .invalidColumn e.text⟩
  | some ref =>
    match orderAlias? l scope ref with
    | some name => .ok (Layer.reference name e.position, l)
    | none =>
      match scope.resolve ref e.position with
      | .error error => .error error
      | .ok _ =>
        match l.publishHidden e with
        | (some name, l) => .ok (Layer.reference name e.position, l)
        | (none, _) => .error ⟨e.position, .invalidColumn ref.text⟩

/-- Binds `order by` columns from left to right. -/
def orderColumns (scope : Scope) :
    List OrderItem → Layers → Except SqlError (List OrderItem × Layers)
  | [], l => .ok ([], l)
  | item :: items, l => do
    let (e, l) ← orderColumn scope item.expr l
    let (items, l) ← orderColumns scope items l
    return ({ item with expr := e } :: items, l)

/-- Checks that `order by` names no more than `limit` columns. -/
def checkOrderCount (limit : Nat) (items : List OrderItem) : Except SqlError Unit :=
  match items[limit]? with
  | some extra => .error ⟨extra.expr.position, .tooManyColumns limit⟩
  | none => .ok ()

/-- Binds the `order by` of a select list. -/
def orderLayers (scope : Scope) (maxColumns : Nat) (items : List OrderItem) (l : Layers) :
    Except SqlError Layers := do
  if items.isEmpty then
    return l
  else
    checkOrderCount maxColumns items
    let (items, l) ← orderColumns scope items l
    return { l with orderBy := items }

/-- Binds the `order by` of a level without a select list. -/
def orderBody (scope : Scope) (maxColumns : Nat) (items : List OrderItem) (m : Model) :
    Except SqlError Model := do
  if items.isEmpty then
    return m
  else
    checkOrderCount maxColumns items
    SelectClause.resolveAll scope (items.map OrderItem.expr)
    return { m with orderBy := items }

/-! ### `limit` -/

/-- Whether a `limit` applies to what the layers make and not to the rows they read. -/
def limitsLayers (l : Layers) : Bool :=
  !l.orderBy.isEmpty || l.combinesRows

/-- Binds the `limit` of a select list over a row source. -/
def setLimit (limit : Option Limit) (l : Layers) (body : Model) : Layers × Model :=
  match limit with
  | none => (l, body)
  | some limit =>
    if limitsLayers l then ({ l with limit := some limit }, body)
    else (l, { body with limit := some limit })

end Clause

end SeriesQuery
