import SeriesQuery.Clauses
import SeriesQuery.Proofs.Positions.Select

/-!
Clauses without positions: a clause is bound to the same columns, or refused for the same reason.
-/

namespace SeriesQuery

open Forgetful

namespace Clause

/-! ### Columns of the master -/

theorem inMaster_forgets (scope : Scope) (e : Expr) :
    Forgets id (inMaster scope e) (inMaster scope e.erase) := by
  unfold inMaster
  rw [Expr.column?_erase, Expr.position_erase, Expr.text_erase]
  cases e.column? with
  | none => rfl
  | some ref =>
    simp only [(scope.resolve_forgets ref e.position).eq]
    cases scope.resolve ref e.position with
    | error error => rfl
    | ok resolved => exact Forgets.ite rfl (Forgets.fail _ _)

theorem allInMaster_forgets (scope : Scope) (es : List Expr) :
    Forgets id (allInMaster scope es) (allInMaster scope (es.map Expr.erase)) := by
  induction es with
  | nil => rfl
  | cons e es ih =>
    simp only [List.map_cons, allInMaster, (inMaster_forgets scope e).eq, ih.eq]
    cases inMaster scope e <;> rfl

theorem setTimestamp_forgets (scope : Scope) (timestamp : Option Expr) (m : Model) :
    Forgets Model.erase (setTimestamp scope timestamp m)
      (setTimestamp scope (timestamp.map Expr.erase) m.erase) := by
  cases timestamp with
  | none => rfl
  | some e =>
    simp only [Option.map_some, setTimestamp, (inMaster_forgets scope e).eq]
    cases inMaster scope e with
    | error error => rfl
    | ok _ => simp [Forgets, Except.map, Except.mapError, Model.erase_eq]

theorem setLatestBy_forgets (scope : Scope) (columns : List Expr) (m : Model) :
    Forgets Model.erase (setLatestBy scope columns m)
      (setLatestBy scope (columns.map Expr.erase) m.erase) := by
  simp only [setLatestBy, (allInMaster_forgets scope columns).eq, List.isEmpty_map]
  cases allInMaster scope columns with
  | error error => rfl
  | ok _ =>
    cases columns with
    | nil => rfl
    | cons e es => simp [Forgets, Except.map, Except.mapError, Model.erase_eq]

/-! ### Timestamps -/

theorem timestampOfTable?_erase (m : Model) :
    m.erase.timestampOfTable? = m.timestampOfTable?.map Expr.erase := by
  cases hs : m.source with
  | table name table =>
    simp [Model.timestampOfTable?, Model.erase_eq, Model.eraseSource, hs, Function.comp_def,
      Expr.erase]
  | nested inner => simp [Model.timestampOfTable?, Model.erase_eq, Model.eraseSource, hs]

theorem designatedTimestamp?_erase (m : Model) :
    m.erase.designatedTimestamp? = m.designatedTimestamp?.map Expr.erase := by
  have htimestamp : m.erase.timestamp = m.timestamp.map Expr.erase := by simp [Model.erase_eq]
  have hjoins : m.erase.joins.isEmpty = m.joins.isEmpty := by simp [Model.erase_eq]
  unfold Model.designatedTimestamp?
  rw [htimestamp, hjoins, timestampOfTable?_erase]
  cases m.timestamp with
  | some column => rfl
  | none => cases m.joins.isEmpty <;> rfl

theorem fillTimestamp_erase (m : Model) : (fillTimestamp m).erase = fillTimestamp m.erase := by
  have htimestamp : m.erase.timestamp = m.timestamp.map Expr.erase := by simp [Model.erase_eq]
  unfold fillTimestamp
  rw [htimestamp, timestampOfTable?_erase, Option.isSome_map]
  split
  · rfl
  · simp [Model.erase_eq]

theorem fillTimestamps_erase (m : Model) : (fillTimestamps m).erase = fillTimestamps m.erase := by
  have hkind : ∀ j : JoinClause Model, joinsByTime (Model.eraseJoin j) = joinsByTime j := by
    simp [joinsByTime]
  have htimed : m.erase.joins.any joinsByTime = m.joins.any joinsByTime := by
    simp only [Model.erase_eq, List.any_map, Function.comp_def, hkind]
  have hjoins : (m.joins.map fun j =>
        if joinsByTime j then { j with model := fillTimestamp j.model } else j).map
          Model.eraseJoin =
      m.erase.joins.map fun j =>
        if joinsByTime j then { j with model := fillTimestamp j.model } else j := by
    simp only [Model.erase_eq, List.map_map, Function.comp_def, hkind]
    refine List.map_congr_left fun j _ => ?_
    obtain ⟨kind, model, criteria, postJoinFilter, provenance, position⟩ := j
    split
    · simp [Model.eraseJoin, fillTimestamp_erase]
    · rfl
  unfold fillTimestamps
  rw [htimed]
  split
  · rw [Model.erase_eq, hjoins, ← fillTimestamp_erase]
    simp [Model.erase_eq]
  · rfl

/-! ### `sample by` -/

theorem checkTimestamp_forgets (scope : Scope) (timestamp : Expr) :
    Forgets id (checkTimestamp scope timestamp) (checkTimestamp scope timestamp.erase) := by
  unfold checkTimestamp
  rw [Expr.column?_erase, Expr.position_erase]
  cases timestamp.column? with
  | none => rfl
  | some ref =>
    simp only [(scope.resolve_forgets ref timestamp.position).eq]
    cases scope.resolve ref timestamp.position with
    | error error => rfl
    | ok resolved => exact Forgets.ite (Forgets.fail _ _) rfl

theorem sampleColumn_forgets (scope : Scope) (body : Model) (interval : Expr) :
    Forgets Expr.erase (sampleColumn scope body interval)
      (sampleColumn scope body.erase interval.erase) := by
  unfold sampleColumn
  rw [designatedTimestamp?_erase, Expr.position_erase]
  cases body.designatedTimestamp? with
  | none => rfl
  | some timestamp =>
    simp only [Option.map_some, (checkTimestamp_forgets scope timestamp).eq]
    cases checkTimestamp scope timestamp <;> rfl

theorem setSampleBy_forgets (select : SelectClause) (scope : Scope) (body : Model)
    (interval : Expr) :
    Forgets (Prod.map Expr.erase Model.erase) (setSampleBy select scope body interval)
      (setSampleBy select.erase scope body.erase interval.erase) := by
  have hbody : ({ body with timestamp := none } : Model).erase =
      { body.erase with timestamp := none } := by simp [Model.erase_eq]
  refine bind (select.resolve_forgets scope) fun aggregates => Forgets.ite ?_ ?_
  · refine bind (sampleColumn_forgets scope body interval) fun key => ?_
    rw [← hbody]
    exact pure (Prod.map Expr.erase Model.erase) (key, { body with timestamp := none })
  · rw [needsAggregate, needsAggregate, Expr.position_erase]
    exact Forgets.fail _ _

theorem leaveSampleBy_forgets (scope : Scope) (nested : Bool) (body : Model) (interval : Expr) :
    Forgets Model.erase (leaveSampleBy scope nested body interval)
      (leaveSampleBy scope nested body.erase interval.erase) := by
  refine Forgets.ite ?_ ?_
  · refine bind (sampleColumn_forgets scope body interval) fun key => ?_
    have hbody : ({ body with timestamp := some key, sampleBy := some interval } : Model).erase =
        { body.erase with timestamp := some key.erase, sampleBy := some interval.erase } := by
      simp [Model.erase_eq]
    rw [← hbody]
    exact pure Model.erase { body with timestamp := some key, sampleBy := some interval }
  · rw [needsAggregate, needsAggregate, Expr.position_erase]
    exact Forgets.fail _ _

theorem pendingSampleBy?_erase (m : Model) :
    pendingSampleBy? m.erase = (pendingSampleBy? m).map Expr.erase := by
  induction m using Model.nestedInduct with
  | step m ih =>
    obtain ⟨projection, source, givenName, timestamp, latestBy, joins, filter, constFilter,
      sampleBy, orderBy, limit⟩ := m
    cases projection with
    | some p => rfl
    | none =>
      cases sampleBy with
      | some interval => rfl
      | none =>
        cases source with
        | table name table => rfl
        | nested inner => exact ih inner rfl

theorem checkSampleBelow_forgets (layers : Option Layers) (nested : Bool) (body : Model) :
    Forgets id (checkSampleBelow layers nested body)
      (checkSampleBelow (layers.map Layers.erase) nested body.erase) := by
  unfold checkSampleBelow
  rw [pendingSampleBy?_erase]
  cases pendingSampleBy? body with
  | none => rfl
  | some interval =>
    cases layers with
    | none =>
      simp only [Option.map_some, Option.map_none, needsAggregate, Expr.position_erase]
      exact Forgets.ite rfl (Forgets.fail _ _)
    | some l =>
      have hgroups : l.erase.main.isGroupBy = l.main.isGroupBy := l.main.isGroupBy_erase
      simp only [Option.map_some, needsAggregate, Expr.position_erase, hgroups]
      exact Forgets.ite rfl (Forgets.fail _ _)

/-! ### `order by` and `limit` -/

theorem orderAlias?_erase (l : Layers) (scope : Scope) (ref : ColumnRef) :
    orderAlias? l.erase scope ref = orderAlias? l scope ref := by
  simp only [orderAlias?, Layers.publishedName?_erase]

theorem orderColumn_forgets (scope : Scope) (e : Expr) (l : Layers) :
    Forgets (Prod.map Expr.erase Layers.erase) (orderColumn scope e l)
      (orderColumn scope e.erase l.erase) := by
  unfold orderColumn
  rw [Expr.column?_erase, Expr.position_erase, Expr.text_erase]
  cases e.column? with
  | none => rfl
  | some ref =>
    simp only [orderAlias?_erase]
    cases orderAlias? l scope ref with
    | some name => rfl
    | none =>
      simp only [(scope.resolve_forgets ref e.position).eq]
      cases scope.resolve ref e.position with
      | error error => rfl
      | ok resolved =>
        have hhidden := l.publishHidden_erase e
        rcases hrun : l.publishHidden e with ⟨_ | name, l'⟩
        · simp only [Except.map, Except.mapError, hhidden, hrun, Prod.map_apply, id_eq]
          exact Forgets.fail _ _
        · simp only [Except.map, Except.mapError, hhidden, hrun, Prod.map_apply, id_eq]
          rfl

theorem orderColumns_forgets (scope : Scope) (items : List OrderItem) (l : Layers) :
    Forgets (Prod.map (List.map OrderItem.erase) Layers.erase) (orderColumns scope items l)
      (orderColumns scope (items.map OrderItem.erase) l.erase) := by
  induction items generalizing l with
  | nil => rfl
  | cons item items ih =>
    refine bind (orderColumn_forgets scope item.expr l) fun r => ?_
    refine bind (ih r.2) fun rest => ?_
    exact pure (Prod.map (List.map OrderItem.erase) Layers.erase)
      ({ item with expr := r.1 } :: rest.1, rest.2)

theorem checkOrderCount_forgets (limit : Nat) (items : List OrderItem) :
    Forgets id (checkOrderCount limit items)
      (checkOrderCount limit (items.map OrderItem.erase)) := by
  unfold checkOrderCount
  rw [List.getElem?_map]
  cases items[limit]? with
  | none => rfl
  | some extra =>
    simp only [Option.map_some, OrderItem.erase, Expr.position_erase]
    exact Forgets.fail _ _

theorem orderLayers_forgets (scope : Scope) (maxColumns : Nat) (items : List OrderItem)
    (l : Layers) :
    Forgets Layers.erase (orderLayers scope maxColumns items l)
      (orderLayers scope maxColumns (items.map OrderItem.erase) l.erase) := by
  unfold orderLayers
  rw [List.isEmpty_map]
  refine Forgets.ite (pure Layers.erase l) ?_
  refine bind (checkOrderCount_forgets maxColumns items) fun _ => ?_
  refine bind (orderColumns_forgets scope items l) fun r => ?_
  exact pure Layers.erase { r.2 with orderBy := r.1 }

theorem orderBody_forgets (scope : Scope) (maxColumns : Nat) (items : List OrderItem)
    (m : Model) :
    Forgets Model.erase (orderBody scope maxColumns items m)
      (orderBody scope maxColumns (items.map OrderItem.erase) m.erase) := by
  have hexprs : (items.map OrderItem.erase).map OrderItem.expr =
      (items.map OrderItem.expr).map Expr.erase := by
    simp [OrderItem.erase, Function.comp_def]
  have hm : ({ m with orderBy := items } : Model).erase =
      { m.erase with orderBy := items.map OrderItem.erase } := by simp [Model.erase_eq]
  unfold orderBody
  rw [List.isEmpty_map, hexprs]
  refine Forgets.ite (pure Model.erase m) ?_
  refine bind (checkOrderCount_forgets maxColumns items) fun _ => ?_
  refine bind (SelectClause.resolveAll_forgets scope _) fun _ => ?_
  rw [← hm]
  exact pure Model.erase { m with orderBy := items }

theorem setLimit_erase (limit : Option Limit) (l : Layers) (body : Model) :
    setLimit (limit.map Limit.erase) l.erase body.erase =
      (setLimit limit l body).map Layers.erase Model.erase := by
  have hlimits : limitsLayers l.erase = limitsLayers l := by
    have horder : l.erase.orderBy.isEmpty = l.orderBy.isEmpty := by simp [Layers.erase]
    rw [limitsLayers, limitsLayers, horder, Layers.combinesRows_erase]
  cases limit with
  | none => rfl
  | some limit =>
    simp only [Option.map_some, setLimit, hlimits]
    split
    · rfl
    · simp [Model.erase_eq]

end Clause

end SeriesQuery
