import SeriesQuery.Proofs.References

/-!
Which interval waits to be aggregated.

A `sample by` without a select list waits for an enclosing level that aggregates
(`Clause.pendingSampleBy?`). Nothing that is done to a row source changes which interval waits there:
neither the filters that are pushed into it, nor its joins, nor its timestamps. So what waits in the
model of a query is the interval of one of its levels (`Compile.pendingSampleBy?_modelOfQuery`).
-/

namespace SeriesQuery

/-! ### The clauses of a model -/

namespace Clause

open Model (FollowsFilters)

variable {m m' inner : Model}

theorem pendingSampleBy?_of_projection (h : m.projection ≠ none) : pendingSampleBy? m = none := by
  obtain ⟨projection, source, _, _, _, _, _, _, sampleBy, _, _⟩ := m
  cases projection with
  | none => exact absurd rfl h
  | some p => rfl

/-- Only the select list, the interval and the source of a model matter. -/
theorem pendingSampleBy?_congr (hp : m'.projection = m.projection) (hi : m'.sampleBy = m.sampleBy)
    (hs : m'.source = m.source) : pendingSampleBy? m' = pendingSampleBy? m := by
  obtain ⟨projection, source, _, _, _, _, _, _, sampleBy, _, _⟩ := m
  obtain ⟨projection', source', _, _, _, _, _, _, sampleBy', _, _⟩ := m'
  obtain rfl : projection' = projection := hp
  obtain rfl : sampleBy' = sampleBy := hi
  obtain rfl : source' = source := hs
  cases projection' <;> cases sampleBy' <;> cases source' <;> rfl

theorem pendingSampleBy?_withSource {next : Model} (hs : m.source = .nested inner)
    (h : pendingSampleBy? next = pendingSampleBy? inner) :
    pendingSampleBy? { m with source := .nested next } = pendingSampleBy? m := by
  obtain ⟨projection, source, _, _, _, _, _, _, sampleBy, _, _⟩ := m
  obtain rfl : source = .nested inner := hs
  cases projection with
  | some p => rfl
  | none =>
    cases sampleBy with
    | some interval => rfl
    | none => exact h

theorem followsFilters_pendingSampleBy? :
    FollowsFilters fun m m' => pendingSampleBy? m' = pendingSampleBy? m where
  here _ _ := pendingSampleBy?_congr rfl rfl rfl
  below := pendingSampleBy?_withSource

/-- Filters do not change which interval waits. -/
theorem pendingSampleBy?_addFilters (m : Model) (conditions : List Expr) :
    pendingSampleBy? (m.addFilters conditions) = pendingSampleBy? m := by
  refine List.foldlRecOn conditions Model.addFilter (motive := fun n =>
    pendingSampleBy? n = pendingSampleBy? m) rfl fun n h condition _ => ?_
  rw [← h]
  exact followsFilters_pendingSampleBy?.addFilter n condition

theorem pendingSampleBy?_withFilters (m : Model) (conditions : List Expr) :
    pendingSampleBy? (conditions.foldl Model.withFilter m) = pendingSampleBy? m := by
  refine List.foldlRecOn conditions Model.withFilter (motive := fun n =>
    pendingSampleBy? n = pendingSampleBy? m) rfl fun n h condition _ => ?_
  rw [← h]
  exact pendingSampleBy?_congr rfl rfl rfl

theorem pendingSampleBy?_fillTimestamps (m : Model) :
    pendingSampleBy? (fillTimestamps m) = pendingSampleBy? m := by
  unfold fillTimestamps fillTimestamp
  split
  · split
    · exact pendingSampleBy?_congr rfl rfl rfl
    · exact pendingSampleBy?_congr rfl rfl rfl
  · rfl

/-- An interval that is left to an enclosing level waits if any does. -/
theorem pendingSampleBy?_left {interval i : Expr} (hi : m.sampleBy = some interval)
    (h : pendingSampleBy? m = some i) : i = interval := by
  obtain ⟨projection, source, _, _, _, _, _, _, sampleBy, _, _⟩ := m
  obtain rfl : sampleBy = some interval := hi
  cases projection with
  | some p => cases h
  | none => exact (Option.some.inj h).symm

end Clause

/-! ### The levels of a query -/

theorem Layers.projection_onto (l : Layers) (body : Model) : (l.onto body).projection ≠ none := by
  unfold onto stack
  cases l.wrap <;> cases l.outer <;> exact Option.some_ne_none _

namespace Compile

open Clause (pendingSampleBy? pendingSampleBy?_congr)

variable {env : Environment} {nested : Bool} {q : Query} {scope : Scope} {c c' : Counters}

theorem pendingSampleBy?_finishLevel {body m : Model} {i : Expr}
    (h : finishLevel env nested scope q body = .ok m) (hi : pendingSampleBy? m = some i) :
    q.sampleBy = some i ∨ pendingSampleBy? body = some i := by
  cases hselect : q.select with
  | some select =>
    obtain ⟨key, body', layers, ordered, -, -, -, -, rfl⟩ := finishLevel_select hselect h
    rw [Clause.pendingSampleBy?_of_projection (Layers.projection_onto _ _)] at hi
    cases hi
  | none =>
    obtain ⟨body', ordered, hleft, -, hordered, rfl⟩ := finishLevel_rows hselect h
    obtain ⟨orderBy, rfl⟩ := Clause.orderBody_ok hordered
    have hbody : pendingSampleBy? body' = some i := hi ▸ pendingSampleBy?_congr rfl rfl rfl
    generalize q.sampleBy = interval at hleft ⊢
    cases hleft with
    | plain => exact .inr hbody
    | left hleave =>
      obtain ⟨key, rfl⟩ := Clause.leaveSampleBy_ok hleave
      exact .inl (congrArg some (Clause.pendingSampleBy?_left rfl hbody).symm)

theorem pendingSampleBy?_joinSources {master m : Model} {pending : List UnplacedJoin}
    {placement : Placement} (h : joinSources env master pending placement c = .ok (m, c')) :
    pendingSampleBy? m = pendingSampleBy? master := by
  obtain ⟨filters, conditions, constFilter, rfl⟩ := joinSources_eq h
  rw [← Clause.pendingSampleBy?_addFilters master filters,
    ← Clause.pendingSampleBy?_withFilters (master.addFilters filters) conditions]
  exact pendingSampleBy?_congr rfl rfl rfl

mutual

/-- The interval that waits in the model of a query is that of one of its levels. -/
theorem pendingSampleBy?_modelOfQuery {m : Model} {i : Expr} : ∀ (q : Query) {nested : Bool}
    {c c' : Counters}, modelOfQuery env nested q c = .ok (m, c') → pendingSampleBy? m = some i →
      ∃ level ∈ levelsOfQuery q, level.sampleBy = some i
  | ⟨position, select, source, givenName, timestamp, latestBy, joins, filter, sampleBy, orderBy,
      limit⟩, nested, c, c', h, hi => by
    obtain ⟨m₀, _, master, scope, _, s, _, hsource, hmaster, -, h⟩ := modelOfQuery_ok h
    obtain ⟨placement, body, -, hbody, h⟩ := modelOfLevel_ok h
    rcases pendingSampleBy?_finishLevel h hi with hown | hbelow
    · exact ⟨_, mem_levelsOfQuery.mpr (.inl rfl), hown⟩
    · rw [Clause.pendingSampleBy?_fillTimestamps, pendingSampleBy?_joinSources hbody] at hbelow
      obtain ⟨name, latest, -, rfl⟩ := addMaster_eq hmaster
      have hwaits : pendingSampleBy? m₀ = some i := hbelow ▸ pendingSampleBy?_congr rfl rfl rfl
      obtain ⟨level, hlevel, hsample⟩ := pendingSampleBy?_modelOfSource source hsource hwaits
      exact ⟨level, mem_levelsOfQuery.mpr (.inr (.inl hlevel)), hsample⟩

theorem pendingSampleBy?_modelOfSource {m : Model} {i : Expr} : ∀ (source : SourceOf Query)
    {c c' : Counters}, modelOfSource env source c = .ok (m, c') → pendingSampleBy? m = some i →
      ∃ level ∈ levelsOfSource source, level.sampleBy = some i
  | .table name, c, c', h, hi => by
    rw [modelOfSource] at h
    obtain ⟨h, rfl⟩ := lift_eq_ok.mp h
    unfold modelOfTable at h
    split at h
    · cases h
      cases hi
    · cases h
  | .query q, c, c', h, hi => by
    rw [modelOfSource] at h
    obtain ⟨inner, _, hinner, h⟩ := bind_eq_ok.mp h
    cases h
    rw [levelsOfSource]
    exact pendingSampleBy?_modelOfQuery q hinner hi

end

end Compile

end SeriesQuery
