import SeriesQuery.Model.Columns
import SeriesQuery.Model.Order
import SeriesQuery.Model.Printer
import SeriesQuery.Proofs.Positions.Statement
import SeriesQuery.Proofs.Pushdown

/-!
Models without positions.

A model shows the same columns and has the same text as without positions, and the same orders are
dropped from it.
-/

namespace SeriesQuery

/-! ### Projections -/

/-- A published column without positions. -/
def PublishedColumn.erase (c : PublishedColumn) : PublishedColumn :=
  ⟨c.name, c.expr.erase⟩

/-- A column of an analytic projection without positions. -/
def WindowedColumn.erase (c : WindowedColumn) : WindowedColumn :=
  ⟨c.name, c.expr.erase, c.window.map Window.erase⟩

namespace Projection

/-- A projection without positions. -/
def erase : Projection → Projection
  | choose cs => choose (cs.map PublishedColumn.erase)
  | virtual cs => virtual (cs.map PublishedColumn.erase)
  | groupBy cs => groupBy (cs.map PublishedColumn.erase)
  | analytic cs => analytic (cs.map WindowedColumn.erase)

@[simp] theorem columns_erase (p : Projection) :
    p.erase.columns = p.columns.map (Prod.map id Expr.erase) := by
  cases p <;> simp [erase, columns, PublishedColumn.erase, WindowedColumn.erase]

@[simp] theorem aliases_erase (p : Projection) : p.erase.aliases = p.aliases := by
  simp [aliases]

@[simp] theorem column?_erase (p : Projection) (name : String) :
    p.erase.column? name = (p.column? name).map Expr.erase := by
  simp only [column?, columns_erase, List.find?_map, Option.map_map]
  rfl

@[simp] theorem isGroupBy_erase (p : Projection) : p.erase.isGroupBy = p.isGroupBy := by
  cases p <;> rfl

@[simp] theorem isAnalytic_erase (p : Projection) : p.erase.isAnalytic = p.isAnalytic := by
  cases p <;> rfl

@[simp] theorem erase_push (p : Projection) (name : String) (e : Expr) :
    (p.push name e).erase = p.erase.push name e.erase := by
  cases p <;> simp [erase, push, PublishedColumn.erase, WindowedColumn.erase]

@[simp] theorem shownColumns_erase (p : Projection) (typeOf : ColumnRef → Option ColumnType) :
    p.erase.shownColumns typeOf = p.shownColumns typeOf := by
  simp [shownColumns]

end Projection

namespace Model

/-! ### The tree -/

mutual

/-- A model without positions. -/
def erase : Model → Model
  | { projection, source, givenName, timestamp, latestBy, joins, filter, constFilter, sampleBy,
      orderBy, limit } =>
    { projection := projection.map Projection.erase
      source := eraseSource source
      givenName
      timestamp := timestamp.map Expr.erase
      latestBy := latestBy.map Expr.erase
      joins := eraseJoins joins
      filter := filter.map Expr.erase
      constFilter := constFilter.map Expr.erase
      sampleBy := sampleBy.map Expr.erase
      orderBy := orderBy.map OrderItem.erase
      limit := limit.map Limit.erase }

/-- A row source without positions. -/
def eraseSource : RowSource Model → RowSource Model
  | .table name table => .table name table
  | .nested inner => .nested inner.erase

/-- A join without positions. -/
def eraseJoin : JoinClause Model → JoinClause Model
  | { kind, model, criteria, postJoinFilter, provenance, .. } =>
    { kind
      model := model.erase
      criteria := criteria.map Expr.erase
      postJoinFilter := postJoinFilter.map Expr.erase
      provenance
      position := 0 }

/-- Joins without positions. -/
def eraseJoins : List (JoinClause Model) → List (JoinClause Model)
  | [] => []
  | j :: joins => eraseJoin j :: eraseJoins joins

end

theorem eraseJoins_eq_map (joins : List (JoinClause Model)) :
    eraseJoins joins = joins.map eraseJoin := by
  induction joins with
  | nil => rfl
  | cons j joins ih => simp [eraseJoins, ih]

@[simp] theorem kind_eraseJoin (j : JoinClause Model) : (eraseJoin j).kind = j.kind := by
  cases j
  rfl

theorem erase_eq (m : Model) :
    m.erase =
      { projection := m.projection.map Projection.erase
        source := eraseSource m.source
        givenName := m.givenName
        timestamp := m.timestamp.map Expr.erase
        latestBy := m.latestBy.map Expr.erase
        joins := m.joins.map eraseJoin
        filter := m.filter.map Expr.erase
        constFilter := m.constFilter.map Expr.erase
        sampleBy := m.sampleBy.map Expr.erase
        orderBy := m.orderBy.map OrderItem.erase
        limit := m.limit.map Limit.erase } := by
  rw [← eraseJoins_eq_map]
  cases m
  rfl

/-! ### Columns -/

mutual

theorem shownColumns_erase : ∀ m : Model, m.erase.shownColumns = m.shownColumns
  | { projection := none, source, joins, .. } => by
    simp only [erase, shownColumns, Option.map_none, ownColumnsOf_erase source, joinedColumns_erase joins]
  | { projection := some p, source := .nested body, .. } => by
    have hbody : body.erase.projection.isSome = body.projection.isSome := by simp [erase_eq]
    simp only [erase, eraseSource, shownColumns, Option.map_some, hbody, shownColumns_erase body,
      sources_erase body, Projection.shownColumns_erase]
  | { projection := some p, source := .table name table, givenName, joins, .. } => by
    simp only [erase, eraseSource, shownColumns, Option.map_some, joinedSources_erase joins,
      Projection.shownColumns_erase]

theorem ownColumnsOf_erase : ∀ source : RowSource Model,
    ownColumnsOf (eraseSource source) = ownColumnsOf source
  | .table _ table => rfl
  | .nested inner => by simp only [eraseSource, ownColumnsOf, shownColumns_erase inner]

theorem joinedColumns_erase : ∀ joins : List (JoinClause Model),
    joinedColumns (eraseJoins joins) = joinedColumns joins
  | [] => rfl
  | { model, .. } :: joins => by
    simp only [eraseJoins, eraseJoin, joinedColumns, shownColumns_erase model, joinedColumns_erase joins]

theorem sources_erase : ∀ m : Model, m.erase.sources = m.sources
  | { source := .table name table, givenName, joins, .. } => by
    simp only [erase, eraseSource, sources, joinedSources_erase joins]
  | { source := .nested inner, givenName, joins, .. } => by
    simp only [erase, eraseSource, sources, shownColumns_erase inner, joinedSources_erase joins]

theorem joinedSources_erase : ∀ joins : List (JoinClause Model),
    joinedSources (eraseJoins joins) = joinedSources joins
  | [] => rfl
  | { model := { source := .table name table, givenName, .. }, .. } :: joins => by
    simp only [eraseJoins, eraseJoin, erase, eraseSource, joinedSources, joinedSources_erase joins]
  | { model := { source := .nested inner, givenName, .. }, .. } :: joins => by
    simp only [eraseJoins, eraseJoin, erase, eraseSource, joinedSources, shownColumns_erase inner,
      joinedSources_erase joins]

end

@[simp] theorem ownColumns_erase (m : Model) : m.erase.ownColumns = m.ownColumns := by
  simp [ownColumns, erase_eq, ownColumnsOf_erase]

@[simp] theorem name?_erase (m : Model) : m.erase.name? = m.name? := by
  cases hsource : m.source <;> simp [name?, tableName?, erase_eq, eraseSource, hsource]

/-! ### Clauses -/

@[simp] theorem hasClauses_erase (m : Model) : m.erase.hasClauses = m.hasClauses := by
  simp [hasClauses, erase_eq]

@[simp] theorem isGrouped_erase (m : Model) : m.erase.isGrouped = m.isGrouped := by
  cases hp : m.projection <;> simp [isGrouped, erase_eq, hp]

@[simp] theorem isAnalytic_erase (m : Model) : m.erase.isAnalytic = m.isAnalytic := by
  cases hp : m.projection <;> simp [isAnalytic, erase_eq, hp]

/-! ### Orders -/

theorem ordersRows_erase (m : Model) : m.erase.ordersRows = m.ordersRows := by
  simp only [ordersRows, isGrouped_erase]
  simp [erase_eq]

theorem ordersBelow_erase (m : Model) (orderedAbove : Bool) :
    m.erase.ordersBelow orderedAbove = m.ordersBelow orderedAbove := by
  simp only [ordersBelow, isAnalytic_erase, ordersRows_erase]
  simp [erase_eq]

theorem hasTimeJoin_erase (m : Model) : m.erase.hasTimeJoin = m.hasTimeJoin := by
  simp [hasTimeJoin, erase_eq, Function.comp_def]

theorem erase_dropOrder (m : Model) (orderedAbove : Bool) :
    (m.dropOrder orderedAbove).erase = m.erase.dropOrder orderedAbove := by
  have hlimit : m.erase.limit.isNone = m.limit.isNone := by simp [erase_eq]
  unfold dropOrder
  rw [hlimit]
  split
  · simp [erase_eq]
  · rfl

theorem eliminateOrders_eq_dropOrder (m : Model) (orderedAbove : Bool) :
    m.eliminateOrders orderedAbove = { m.dropOrder orderedAbove with
      source := eliminateInSource
        ((m.dropOrder orderedAbove).ordersBelow orderedAbove && !m.hasTimeJoin) m.source
      joins := eliminateInJoins ((m.dropOrder orderedAbove).ordersBelow orderedAbove) m.joins } := by
  cases m
  rfl

mutual

/-- **The same orders are dropped.** -/
theorem erase_eliminateOrders (orderedAbove : Bool) : ∀ m : Model,
    (m.eliminateOrders orderedAbove).erase = m.erase.eliminateOrders orderedAbove
  | ⟨projection, source, givenName, timestamp, latestBy, joins, filter, constFilter, sampleBy,
      orderBy, limit⟩ => by
    rw [eliminateOrders_eq_dropOrder, eliminateOrders_eq_dropOrder, ← erase_dropOrder,
      ordersBelow_erase, hasTimeJoin_erase]
    simp only [erase, erase_eliminateInSource _ source, erase_eliminateInJoins _ joins, erase_eq]

theorem erase_eliminateInSource (orderedAbove : Bool) : ∀ source : RowSource Model,
    eraseSource (eliminateInSource orderedAbove source) =
      eliminateInSource orderedAbove (eraseSource source)
  | .table name table => rfl
  | .nested inner => by
    simp only [eliminateInSource, eraseSource, erase_eliminateOrders orderedAbove inner]

theorem erase_eliminateInJoins (orderedAbove : Bool) : ∀ joins : List (JoinClause Model),
    eraseJoins (eliminateInJoins orderedAbove joins) =
      eliminateInJoins orderedAbove (eraseJoins joins)
  | [] => rfl
  | { kind, model, .. } :: joins => by
    simp only [eliminateInJoins, eraseJoins, eraseJoin, erase_eliminateOrders _ model,
      erase_eliminateInJoins orderedAbove joins]

end

end Model

/-! ### Filters -/

open Forgetful

theorem Projection.through?_erase (p : Projection) (condition : Expr) :
    p.erase.through? condition.erase = (p.through? condition).map Expr.erase := by
  refine (Forgets.replaceColumnsM (fun ref position => ?_) condition).eq_map
  show Option.map _ _ = Option.map _ (Option.map _ _)
  simp [Function.comp_def, Option.bind_map, Expr.erase]

namespace Model

theorem unqualified_erase (condition : Expr) :
    unqualified condition.erase = (unqualified condition).erase :=
  Forgets.replaceColumnsM (m := Id) (fun _ _ => rfl) condition

theorem keepsFiltersOut_erase (m : Model) : m.erase.keepsFiltersOut = m.keepsFiltersOut := by
  simp only [keepsFiltersOut, isAnalytic_erase]
  simp [erase_eq]

theorem erase_withFilter (m : Model) (conjunct : Expr) :
    (m.withFilter conjunct).erase = m.erase.withFilter conjunct.erase := by
  simp [withFilter, erase_eq]

theorem combinesRows_erase (m : Model) : m.erase.combinesRows = m.combinesRows := by
  simp only [combinesRows, keepsFiltersOut_erase]
  simp [erase_eq]

theorem erase_addFilter_of {m : Model} {condition : Expr}
    (below : ∀ inner, m.source = .nested inner →
      inner.erase.pushInto? condition.erase = (inner.pushInto? condition).map erase) :
    (m.addFilter condition).erase = m.erase.addFilter condition.erase := by
  have hs : m.erase.source = eraseSource m.source := by simp [erase_eq]
  unfold addFilter
  rw [hs]
  cases hsource : m.source with
  | table name table => exact erase_withFilter m condition
  | nested inner =>
    simp only [eraseSource, below inner hsource]
    cases inner.pushInto? condition with
    | none => exact erase_withFilter m condition
    | some inner' => simp [erase_eq, eraseSource]

/-- **Filters go the same way into sub-queries.** -/
theorem pushInto?_erase (m : Model) (condition : Expr) :
    m.erase.pushInto? condition.erase = (m.pushInto? condition).map erase := by
  induction m using nestedInduct generalizing condition with
  | step m ih =>
    cases hp : m.projection with
    | none =>
      have hp' : m.erase.projection = none := by simp [erase_eq, hp]
      rw [pushInto?_source hp, pushInto?_source hp', combinesRows_erase, unqualified_erase,
        ← erase_addFilter_of fun inner hs => ih inner hs _]
      split <;> rfl
    | some p =>
      have hkeeps := m.keepsFiltersOut_erase
      obtain ⟨projection, source, _, _, _, _, _, _, _, _, _⟩ := m
      obtain rfl : projection = some p := hp
      cases source with
      | table name table => rfl
      | nested body =>
        simp only [erase, eraseSource, Option.map_some] at hkeeps
        simp only [erase, eraseSource, Option.map_some, pushInto?, hkeeps, p.through?_erase]
        split
        · rfl
        cases p.through? condition with
        | none => rfl
        | some moved =>
          simp only [Option.map_some, ih body rfl moved]
          cases body.pushInto? moved <;> rfl

theorem erase_addFilter (m : Model) (condition : Expr) :
    (m.addFilter condition).erase = m.erase.addFilter condition.erase :=
  erase_addFilter_of fun inner _ => inner.pushInto?_erase condition

theorem erase_addFilters (m : Model) (conditions : List Expr) :
    (m.addFilters conditions).erase = m.erase.addFilters (conditions.map Expr.erase) := by
  induction conditions generalizing m with
  | nil => rfl
  | cons c cs ih =>
    simp only [addFilters, List.foldl_cons, List.map_cons, ← erase_addFilter] at ih ⊢
    exact ih _

end Model

/-! ### Texts -/

@[simp] theorem OrderItem.text_erase (item : OrderItem) : item.erase.text = item.text := by
  simp [OrderItem.text, OrderItem.erase]

theorem orderByText_erase (items : List OrderItem) :
    orderByText (items.map OrderItem.erase) = orderByText items := by
  simp [orderByText, Function.comp_def]

theorem expressionsText_erase (es : List Expr) :
    expressionsText (es.map Expr.erase) = expressionsText es := by
  simp [expressionsText, Function.comp_def]

theorem Window.text_erase (w : Window) : w.erase.text = w.text := by
  simp [Window.text, Window.erase, orderByText_erase, expressionsText_erase]

theorem publishedText_erase (name : String) (e : Expr) :
    publishedText name e.erase = publishedText name e := by
  simp [publishedText]

theorem WindowedColumn.text_erase (c : WindowedColumn) : c.erase.text = c.text := by
  simp [WindowedColumn.text, WindowedColumn.erase, publishedText_erase, Function.comp_def,
    Window.text_erase]

theorem Projection.text_erase (p : Projection) : p.erase.text = p.text := by
  cases p <;> simp [Projection.text, Projection.erase, Projection.keyword, PublishedColumn.erase,
    publishedText_erase, WindowedColumn.text_erase, Function.comp_def]

theorem Limit.text_erase (l : Limit) : l.erase.text = l.text := by
  cases hhi : l.hi <;> simp [Limit.text, Limit.erase, hhi]

theorem criteriaText_erase (criteria : List Expr) :
    criteriaText (criteria.map Expr.erase) = criteriaText criteria := by
  simp [criteriaText, Function.comp_def]

namespace Model

theorem textWith_erase (m : Model) (source joins : String) :
    m.erase.textWith source joins = m.textWith source joins := by
  simp [textWith, erase_eq, Function.comp_def, expressionsText_erase, orderByText_erase,
    Limit.text_erase]

theorem joinText_erase (j : JoinClause Model) (model : String) :
    joinText (eraseJoin j) model = joinText j model := by
  obtain ⟨kind, m, criteria, postJoinFilter, provenance, position⟩ := j
  have hgiven : m.erase.givenName = m.givenName := by simp [erase_eq]
  simp [joinText, eraseJoin, JoinClause.keyword, criteriaText_erase, hgiven, Function.comp_def]

theorem text_eq_textWith (m : Model) :
    m.text = m.textWith (sourceText m.projection m.source) (joinsText m.joins) := by
  cases m
  rw [text]

mutual

/-- **Positions are not printed.** -/
theorem text_erase : ∀ m : Model, m.erase.text = m.text
  | ⟨projection, source, givenName, timestamp, latestBy, joins, filter, constFilter, sampleBy,
      orderBy, limit⟩ => by
    rw [text_eq_textWith, text_eq_textWith, textWith_erase]
    simp only [erase, sourceText_erase projection source, joinsText_erase joins]

theorem sourceText_erase : ∀ (projection : Option Projection) (source : RowSource Model),
    sourceText (projection.map Projection.erase) (eraseSource source) =
      sourceText projection source
  | some p, .table name _ => by simp only [Option.map_some, eraseSource, sourceText, p.text_erase]
  | some p, .nested body => by
    simp only [Option.map_some, eraseSource, sourceText, p.text_erase, text_erase body]
  | none, .table name _ => rfl
  | none, .nested body => by
    simp only [Option.map_none, eraseSource, sourceText, text_erase body]

theorem joinsText_erase : ∀ joins : List (JoinClause Model),
    joinsText (eraseJoins joins) = joinsText joins
  | [] => rfl
  | ⟨kind, model, criteria, postJoinFilter, provenance, position⟩ :: joins => by
    have hjoin := joinText_erase ⟨kind, model, criteria, postJoinFilter, provenance, position⟩
      (text model)
    simp only [eraseJoin] at hjoin
    simp only [eraseJoins, eraseJoin, joinsText, text_erase model, joinsText_erase joins, hjoin]

end

end Model

end SeriesQuery
