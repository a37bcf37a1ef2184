import SeriesQuery.Compile
import SeriesQuery.Proofs.Pushdown

/-!
The models of query levels.

Whatever holds of the models of a query is shown for a table, for a sub-query as a source and for one
level whose sources have it (`Compile.LevelInvariant`). A level puts its projections on a row source
to which all its sources are joined, so a model with a projection has no joins, down to the tables
(`Compile.modelOfQuery_projectsAlone`), and the sources of a level stand alone until its conditions
are placed (`Compile.modelOfSource_standsAlone`, `standsAlone_addMaster`, `standsAlone_addJoin`).
-/

namespace SeriesQuery

/-! ### Row sources -/

/-- A model without a projection of its own, over projections that have no joins. -/
structure Model.IsRowSource (m : Model) : Prop where
  projection : m.projection = none
  below : m.ProjectsAlone

namespace Model.IsRowSource

variable {m m' : Model}

/-- The clauses of a row source do not matter. -/
theorem of_source (h : m.IsRowSource) (hp : m'.projection = m.projection)
    (hs : m'.source = m.source) : m'.IsRowSource where
  projection := hp.trans h.projection
  below := projectsAlone_iff.mpr
    ⟨by simp [hp, h.projection], fun _ hinner => h.below.nested (hs ▸ hinner)⟩

theorem of_standsAlone (h : m.StandsAlone) : m.IsRowSource :=
  ⟨h.projection, h.below⟩

theorem nested (h : m.ProjectsAlone) : (Model.nested m).IsRowSource :=
  ⟨rfl, projectsAlone_iff.mpr ⟨fun _ => rfl, fun _ hs => RowSource.nested.inj hs ▸ h⟩⟩

theorem addFilter (h : m.IsRowSource) (condition : Expr) : (m.addFilter condition).IsRowSource := by
  refine ⟨?_, followsFilters_projectsAlone.addFilter m condition h.below⟩
  obtain ⟨source, filter, hm⟩ := m.addFilter_eq condition
  rw [hm]
  exact h.projection

theorem addFilters (h : m.IsRowSource) (conditions : List Expr) :
    (m.addFilters conditions).IsRowSource :=
  List.foldlRecOn conditions Model.addFilter h fun _ hm condition _ => hm.addFilter condition

theorem withFilters (h : m.IsRowSource) (conditions : List Expr) :
    (conditions.foldl Model.withFilter m).IsRowSource :=
  List.foldlRecOn conditions Model.withFilter h fun _ hm _ _ => hm.of_source rfl rfl

end Model.IsRowSource

/-! ### Projections on a row source -/

namespace Model.ProjectsAlone

variable {m m' : Model}

theorem of_source (h : m.ProjectsAlone) (hp : m'.projection = m.projection)
    (hj : m'.joins = m.joins) (hs : m'.source = m.source) : m'.ProjectsAlone := by
  rw [projectsAlone_iff] at h ⊢
  rwa [hp, hj, hs]

theorem select (h : m.ProjectsAlone) (p : Projection) : (Model.select p m).ProjectsAlone :=
  projectsAlone_iff.mpr ⟨fun _ => rfl, fun _ hs => RowSource.nested.inj hs ▸ h⟩

theorem stack (h : m.ProjectsAlone) (p : Option Projection) : (Layers.stack p m).ProjectsAlone := by
  cases p with
  | none => exact h
  | some p => exact h.select p

/-- The layers of a level have no joins. -/
theorem onto (h : m.ProjectsAlone) (l : Layers) : (l.onto m).ProjectsAlone := by
  unfold Layers.onto
  extract_lets named computed main timed outer top
  have hmain : main.ProjectsAlone := ((h.stack _).stack _).select l.main
  have htimed : timed.ProjectsAlone := hmain.of_source rfl rfl rfl
  have houter : outer.ProjectsAlone := htimed.stack l.outer
  have htop : top.ProjectsAlone := houter.of_source rfl rfl rfl
  split
  · exact htop.select l.visible
  · exact htop

end Model.ProjectsAlone

/-- The name and the timestamp of a source that stands alone do not matter. -/
theorem Model.StandsAlone.named {m : Model} (h : m.StandsAlone) (name : Option String)
    (timestamp : Option Expr) :
    { m with givenName := name, timestamp := timestamp }.StandsAlone where
  projection := h.projection
  joins := h.joins
  limit := h.limit
  latestBy := h.latestBy
  sampleBy := h.sampleBy
  below := h.below.of_source rfl rfl rfl

namespace Compile

/-! ### The clauses of a level -/

section Clauses

variable {scope : Scope} {m m' : Model}

/-- A `timestamp` clause gives the master the timestamp that it names. -/
theorem setTimestamp_eq {timestamp : Option Expr}
    (h : Clause.setTimestamp scope timestamp m = .ok m') :
    m' = { m with timestamp := timestamp <|> m.timestamp } := by
  unfold Clause.setTimestamp at h
  split at h
  · cases h
    cases m
    simp
  · split at h <;> cases h
    simp

/-- A `latest by` clause changes the columns of the master that it looks at. -/
theorem setLatestBy_eq {columns : List Expr} (h : Clause.setLatestBy scope columns m = .ok m') :
    ∃ latestBy, (columns = [] → latestBy = m.latestBy) ∧ m' = { m with latestBy := latestBy } := by
  unfold Clause.setLatestBy at h
  split at h <;> cases h
  split
  · exact ⟨m.latestBy, fun _ => rfl, by cases m; rfl⟩
  · rename_i hcolumns
    exact ⟨columns, fun h => absurd (h ▸ rfl) hcolumns, rfl⟩

theorem isRowSource_fillTimestamp (hm : m.IsRowSource) :
    (Clause.fillTimestamp m).IsRowSource := by
  unfold Clause.fillTimestamp
  split
  · exact hm
  · exact hm.of_source rfl rfl

theorem isRowSource_fillTimestamps (hm : m.IsRowSource) :
    (Clause.fillTimestamps m).IsRowSource := by
  unfold Clause.fillTimestamps
  split
  · exact (isRowSource_fillTimestamp hm).of_source rfl rfl
  · exact hm

theorem isRowSource_setSampleBy {select : SelectClause} {interval key : Expr} (hm : m.IsRowSource)
    (h : Clause.setSampleBy select scope m interval = .ok (key, m')) : m'.IsRowSource := by
  unfold Clause.setSampleBy at h
  obtain ⟨aggregates, -, h⟩ := Except.bind_eq_ok.mp h
  split at h
  · obtain ⟨_, -, h⟩ := Except.bind_eq_ok.mp h
    cases h
    exact hm.of_source rfl rfl
  · cases h

theorem isRowSource_leaveSampleBy {nested : Bool} {interval : Expr} (hm : m.IsRowSource)
    (h : Clause.leaveSampleBy scope nested m interval = .ok m') : m'.IsRowSource := by
  unfold Clause.leaveSampleBy at h
  split at h
  · obtain ⟨_, -, h⟩ := Except.bind_eq_ok.mp h
    cases h
    exact hm.of_source rfl rfl
  · cases h

theorem isRowSource_orderBody {maxColumns : Nat} {items : List OrderItem} (hm : m.IsRowSource)
    (h : Clause.orderBody scope maxColumns items m = .ok m') : m'.IsRowSource := by
  unfold Clause.orderBody at h
  split at h
  · cases h
    exact hm
  · obtain ⟨-, -, h⟩ := Except.bind_eq_ok.mp h
    obtain ⟨-, -, h⟩ := Except.bind_eq_ok.mp h
    cases h
    exact hm.of_source rfl rfl

end Clauses

/-- The key of a select list over a row source, and the row source that is left. -/
inductive TakesKey (select : SelectClause) (scope : Scope) (body : Model) :
    Option Expr → Option Expr → Model → Prop where
  | plain : TakesKey select scope body none none body
  | sampled {interval key : Expr} {body' : Model}
      (h : Clause.setSampleBy select scope body interval = .ok (key, body')) :
      TakesKey select scope body (some interval) (some key) body'

/-- A level with a select list puts layers on its row source. -/
theorem finishLevel_select {env : Environment} {nested : Bool} {scope : Scope} {q : Query}
    {body m : Model} {select : SelectClause} (hselect : q.select = some select)
    (h : finishLevel env nested scope q body = .ok m) :
    ∃ key body' layers ordered, TakesKey select scope body q.sampleBy key body' ∧
      Layers.ofSelect select scope key = .ok layers ∧
      Clause.checkSampleBelow (some { layers with sampleBy := q.sampleBy }) nested body' = .ok () ∧
      Clause.orderLayers scope env.settings.maxOrderByColumns q.orderBy
        { layers with sampleBy := q.sampleBy } = .ok ordered ∧
      m = (Clause.setLimit q.limit ordered body').1.onto (Clause.setLimit q.limit ordered body').2 := by
  unfold finishLevel at h
  simp -zeta only [hselect] at h
  extract_lets maxColumns layered at h
  have hlayered : ∀ {key body'}, layered (key, body') = .ok m → ∃ layers ordered,
      Layers.ofSelect select scope key = .ok layers ∧
        Clause.checkSampleBelow (some { layers with sampleBy := q.sampleBy }) nested body' = .ok () ∧
        Clause.orderLayers scope env.settings.maxOrderByColumns q.orderBy
          { layers with sampleBy := q.sampleBy } = .ok ordered ∧
        m = (Clause.setLimit q.limit ordered body').1.onto
          (Clause.setLimit q.limit ordered body').2 := by
    intro key body' h
    obtain ⟨layers, hlayers, h⟩ := Except.bind_eq_ok.mp h
    obtain ⟨_, hcheck, h⟩ := Except.bind_eq_ok.mp h
    obtain ⟨ordered, hordered, h⟩ := Except.bind_eq_ok.mp h
    cases h
    exact ⟨layers, ordered, hlayers, hcheck, hordered, rfl⟩
  split at h
  · rename_i interval hinterval
    obtain ⟨⟨key, body'⟩, hset, h⟩ := Except.bind_eq_ok.mp h
    obtain ⟨layers, ordered, hl⟩ := hlayered h
    have hkey : TakesKey select scope body q.sampleBy (some key) body' := by
      rw [hinterval]
      exact .sampled hset
    exact ⟨some key, body', layers, ordered, hkey, hl⟩
  · rename_i hinterval
    obtain ⟨layers, ordered, hl⟩ := hlayered h
    have hkey : TakesKey select scope body q.sampleBy none body := by
      rw [hinterval]
      exact .plain
    exact ⟨none, body, layers, ordered, hkey, hl⟩

/-- The row source of a level without a select list, which keeps the interval if there is one. -/
inductive LeavesInterval (scope : Scope) (nested : Bool) (body : Model) :
    Option Expr → Model → Prop where
  | plain : LeavesInterval scope nested body none body
  | left {interval : Expr} {body' : Model}
      (h : Clause.leaveSampleBy scope nested body interval = .ok body') :
      LeavesInterval scope nested body (some interval) body'

/-- A level without a select list is its row source. -/
theorem finishLevel_rows {env : Environment} {nested : Bool} {scope : Scope} {q : Query}
    {body m : Model} (hselect : q.select = none) (h : finishLevel env nested scope q body = .ok m) :
    ∃ body' ordered, LeavesInterval scope nested body q.sampleBy body' ∧
      Clause.checkSampleBelow none nested body' = .ok () ∧
      Clause.orderBody scope env.settings.maxOrderByColumns q.orderBy body' = .ok ordered ∧
      m = { ordered with limit := q.limit } := by
  unfold finishLevel at h
  simp -zeta only [hselect] at h
  extract_lets maxColumns plain at h
  have hplain : ∀ {body'}, plain body' = .ok m → ∃ ordered,
      Clause.checkSampleBelow none nested body' = .ok () ∧
        Clause.orderBody scope env.settings.maxOrderByColumns q.orderBy body' = .ok ordered ∧
        m = { ordered with limit := q.limit } := by
    intro body' h
    obtain ⟨_, hcheck, h⟩ := Except.bind_eq_ok.mp h
    obtain ⟨ordered, hordered, h⟩ := Except.bind_eq_ok.mp h
    cases h
    exact ⟨ordered, hcheck, hordered, rfl⟩
  split at h
  · rename_i interval hinterval
    obtain ⟨body', hleave, h⟩ := Except.bind_eq_ok.mp h
    obtain ⟨ordered, hl⟩ := hplain h
    have hleft : LeavesInterval scope nested body q.sampleBy body' := by
      rw [hinterval]
      exact .left hleave
    exact ⟨body', ordered, hleft, hl⟩
  · rename_i hinterval
    obtain ⟨ordered, hl⟩ := hplain h
    have hleft : LeavesInterval scope nested body q.sampleBy body := by
      rw [hinterval]
      exact .plain
    exact ⟨body, ordered, hleft, hl⟩

/-- A level puts layers on a row source or leaves it one. -/
theorem projectsAlone_finishLevel {env : Environment} {nested : Bool} {scope : Scope} {q : Query}
    {body m : Model} (hbody : body.IsRowSource) (h : finishLevel env nested scope q body = .ok m) :
    m.ProjectsAlone := by
  cases hselect : q.select with
  | some select =>
    obtain ⟨key, body', layers, ordered, hkey, -, -, -, rfl⟩ := finishLevel_select hselect h
    have hbelow : body'.ProjectsAlone := by
      generalize q.sampleBy = interval at hkey
      cases hkey with
      | plain => exact hbody.below
      | sampled hset => exact (isRowSource_setSampleBy hbody hset).below
    have hlimited : (Clause.setLimit q.limit ordered body').2.ProjectsAlone := by
      unfold Clause.setLimit
      split
      · exact hbelow
      · split
        · exact hbelow
        · exact hbelow.of_source rfl rfl rfl
    exact hlimited.onto _
  | none =>
    obtain ⟨body', ordered, hleft, -, hordered, rfl⟩ := finishLevel_rows hselect h
    have hrows : body'.IsRowSource := by
      generalize q.sampleBy = interval at hleft
      cases hleft with
      | plain => exact hbody
      | left hleave => exact isRowSource_leaveSampleBy hbody hleave
    exact (isRowSource_orderBody hrows hordered).below.of_source rfl rfl rfl

/-! ### Steps of a compilation -/

theorem bind_eq_ok {α β : Type} {x : CompileM α} {f : α → CompileM β} {c : Counters}
    {r : β × Counters} :
    (x >>= f) c = .ok r ↔ ∃ a c', x c = .ok (a, c') ∧ f a c' = .ok r := by
  simp only [Bind.bind, StateT.bind, Except.bind]
  cases x c with
  | error e => simp
  | ok step => exact ⟨fun h => ⟨step.1, step.2, rfl, h⟩, fun ⟨_, _, hx, h⟩ => by cases hx; exact h⟩

theorem lift_eq_ok {α : Type} {x : Except SqlError α} {c c' : Counters} {a : α} :
    (liftM x : CompileM α) c = .ok (a, c') ↔ x = .ok a ∧ c = c' := by
  constructor
  · intro h
    cases x <;> cases h
    exact ⟨rfl, rfl⟩
  · rintro ⟨rfl, rfl⟩
    rfl

/-! ### Levels -/

variable {env : Environment} {c c' : Counters}

/-- A source under its alias is the same source. -/
theorem nameSource_source {m n : Model} {given : Option Ident} {needsName : Bool}
    (h : nameSource m given needsName c = .ok (n, c')) :
    ∃ name, n = { m with givenName := name } := by
  simp only [nameSource] at h
  split at h
  · obtain ⟨name, _, -, h⟩ := bind_eq_ok.mp h
    cases h
    exact ⟨_, rfl⟩
  · cases h
    exact ⟨_, rfl⟩

theorem scope_declare {s s' : Scope} {name : Option String} {given : Option Ident}
    {columns : List ShownColumn} (h : s.declare name given columns = .ok s') :
    s' = ⟨s.entries ++ [⟨name, columns⟩]⟩ := by
  unfold Scope.declare at h
  split at h
  · split at h <;> cases h
    rfl
  · cases h
    rfl

/-- The master of a level is its source with an alias, a timestamp and `latest by` columns, and its
scope lists the source alone. -/
theorem addMaster_ok {q : Query} {m n : Model} {scope : Scope}
    (h : addMaster q m c = .ok ((n, scope), c')) :
    ∃ named latestBy, nameSource m q.givenName (!q.joins.isEmpty) c = .ok (named, c') ∧
      scope = ⟨[⟨named.name?, named.ownColumns⟩]⟩ ∧ (q.latestBy = [] → latestBy = named.latestBy) ∧
      n = { named with timestamp := q.timestamp <|> named.timestamp, latestBy := latestBy } := by
  unfold addMaster at h
  obtain ⟨named, _, hname, h⟩ := bind_eq_ok.mp h
  obtain ⟨declared, _, hscope, h⟩ := bind_eq_ok.mp h
  obtain ⟨stamped, _, hstamp, h⟩ := bind_eq_ok.mp h
  obtain ⟨latest, _, hlatest, h⟩ := bind_eq_ok.mp h
  cases h
  obtain ⟨hdeclared, rfl⟩ := lift_eq_ok.mp hscope
  obtain ⟨hstamped, rfl⟩ := lift_eq_ok.mp hstamp
  obtain ⟨hlooks, rfl⟩ := lift_eq_ok.mp hlatest
  obtain rfl := setTimestamp_eq hstamped
  obtain ⟨latestBy, hkept, rfl⟩ := setLatestBy_eq hlooks
  exact ⟨named, latestBy, hname, scope_declare hdeclared, hkept, rfl⟩

theorem addMaster_eq {q : Query} {m n : Model} {scope : Scope}
    (h : addMaster q m c = .ok ((n, scope), c')) :
    ∃ name latestBy, (q.latestBy = [] → latestBy = m.latestBy) ∧ n = { m with
      givenName := name, timestamp := q.timestamp <|> m.timestamp, latestBy := latestBy } := by
  obtain ⟨named, latestBy, hname, -, hkept, rfl⟩ := addMaster_ok h
  obtain ⟨name, rfl⟩ := nameSource_source hname
  exact ⟨name, latestBy, hkept, rfl⟩

/-- The scope of the master alone. -/
theorem scope_addMaster {q : Query} {m n : Model} {scope : Scope}
    (h : addMaster q m c = .ok ((n, scope), c')) : scope = ⟨[⟨n.name?, n.ownColumns⟩]⟩ := by
  obtain ⟨named, latestBy, -, hscope, -, rfl⟩ := addMaster_ok h
  exact hscope

theorem isRowSource_addMaster {q : Query} {m n : Model} {scope : Scope} (hm : m.IsRowSource)
    (h : addMaster q m c = .ok ((n, scope), c')) : n.IsRowSource := by
  obtain ⟨_, _, -, rfl⟩ := addMaster_eq h
  exact hm.of_source rfl rfl

/-- The row source of a level is its master with filters and the placed joins. -/
theorem joinSources_eq {master m : Model} {pending : List UnplacedJoin} {placement : Placement}
    (h : joinSources env master pending placement c = .ok (m, c')) :
    ∃ (filters conditions : List Expr) (constFilter : Option Expr),
      m = { conditions.foldl Model.withFilter (master.addFilters filters) with
        joins := placedJoins placement pending, constFilter := constFilter } := by
  unfold joinSources at h
  obtain ⟨added, _, -, h⟩ := bind_eq_ok.mp h
  cases h
  exact ⟨_, _, _, rfl⟩

/-- A join is placed with its kind and with filters on its source. -/
theorem mem_placedJoins {placement : Placement} {pending : List UnplacedJoin}
    {j : JoinClause Model} (h : j ∈ placedJoins placement pending) :
    ∃ unplaced ∈ pending, ∃ filters,
      j.kind = unplaced.kind ∧ j.model = unplaced.model.addFilters filters := by
  obtain ⟨source, -, hplaced⟩ := List.mem_filterMap.mp h
  obtain ⟨unplaced, hunplaced, rfl⟩ := Option.map_eq_some_iff.mp hplaced
  exact ⟨unplaced, List.mem_of_getElem? hunplaced, _, rfl, rfl⟩

theorem isRowSource_joinSources {master m : Model} {pending : List UnplacedJoin}
    {placement : Placement} (hm : master.IsRowSource)
    (h : joinSources env master pending placement c = .ok (m, c')) : m.IsRowSource := by
  obtain ⟨filters, conditions, constFilter, rfl⟩ := joinSources_eq h
  exact ((hm.addFilters filters).withFilters conditions).of_source rfl rfl

/-- The model of a query is that of a level over its declared sources. -/
theorem modelOfQuery_ok {nested : Bool} {q : Query} {m : Model}
    (h : modelOfQuery env nested q c = .ok (m, c')) :
    ∃ source c₁ master scope c₂ s c₃, modelOfSource env q.source c = .ok (source, c₁) ∧
      addMaster q source c₁ = .ok ((master, scope), c₂) ∧
      sourcesOfJoins env master q.joins ⟨scope, [], []⟩ c₂ = .ok (s, c₃) ∧
      modelOfLevel env nested q master s c₃ = .ok (m, c') := by
  obtain ⟨position, select, source, givenName, timestamp, latestBy, joins, filter, sampleBy, orderBy,
    limit⟩ := q
  rw [modelOfQuery] at h
  obtain ⟨body, _, hbody, h⟩ := bind_eq_ok.mp h
  obtain ⟨⟨master, scope⟩, _, hmaster, h⟩ := bind_eq_ok.mp h
  obtain ⟨sources, _, hsources, h⟩ := bind_eq_ok.mp h
  exact ⟨body, _, master, scope, _, sources, _, hbody, hmaster, hsources, h⟩

/-- The conjuncts of the conditions of a level. -/
def levelConjuncts (q : Query) (s : Sources) : List Conjunct :=
  s.conjuncts ++ match q.filter with
    | some filter => Conjunct.ofCondition .whereClause filter
    | none => []

/-- The model of a level is made of the row source on which its conditions are placed. -/
theorem modelOfLevel_ok {nested : Bool} {q : Query} {master m : Model} {s : Sources}
    (h : modelOfLevel env nested q master s c = .ok (m, c')) :
    ∃ placement body, Placement.place s.scope (none :: s.joins.map fun j => some j.kind)
        (levelConjuncts q s) = .ok placement ∧
      joinSources env master s.joins placement c = .ok (body, c') ∧
      finishLevel env nested s.scope q (Clause.fillTimestamps body) = .ok m := by
  unfold modelOfLevel at h
  obtain ⟨placement, _, hplace, h⟩ := bind_eq_ok.mp h
  obtain ⟨hplacement, rfl⟩ := lift_eq_ok.mp hplace
  obtain ⟨body, _, hbody, h⟩ := bind_eq_ok.mp h
  obtain ⟨hfinish, rfl⟩ := lift_eq_ok.mp h
  exact ⟨placement, body, hplacement, hbody, hfinish⟩

theorem projectsAlone_modelOfLevel {nested : Bool} {q : Query} {master m : Model} {s : Sources}
    (hm : master.IsRowSource) (h : modelOfLevel env nested q master s c = .ok (m, c')) :
    m.ProjectsAlone := by
  obtain ⟨placement, body, -, hbody, h⟩ := modelOfLevel_ok h
  exact projectsAlone_finishLevel (isRowSource_fillTimestamps (isRowSource_joinSources hm hbody)) h

/-- What sources and models of queries have in common, when a level hands it on from its sources to
its model. -/
structure LevelInvariant (env : Environment) (S : Model → Prop) (P : Bool → Model → Prop) : Prop where
  table : ∀ {name table}, env.table? name = some table → S (.ofTable name table)
  nested : ∀ {m}, P true m → S (.nested m)
  level : ∀ {nested q source master scope s m c c₀ c₁ c₂ c₃},
    modelOfSource env q.source c = .ok (source, c₀) → S source →
    addMaster q source c₀ = .ok ((master, scope), c₁) →
    sourcesOfJoins env master q.joins ⟨scope, [], []⟩ c₁ = .ok (s, c₂) →
    (∀ pending ∈ s.joins, ∃ joined name, S joined ∧ pending.model = { joined with givenName := name }) →
    modelOfLevel env nested q master s c₂ = .ok (m, c₃) → P nested m

/-- A joined source is declared with the conjuncts of its condition, which know it by its number. -/
theorem addJoin_ok {master m : Model} {j : JoinOf Query} {s s' : Sources}
    (h : addJoin master j m s c = .ok (s', c')) :
    ∃ named, nameSource m j.givenName (namesColumns j.condition) c = .ok (named, c') ∧
      s'.scope = ⟨s.scope.entries ++ [⟨named.name?, named.ownColumns⟩]⟩ ∧
      s'.joins = s.joins ++ [⟨j.kind, j.position, named⟩] ∧
      s'.conjuncts = s.conjuncts ++ onConjuncts s.scope.entries.length named master j.condition := by
  unfold addJoin at h
  obtain ⟨named, _, hname, h⟩ := bind_eq_ok.mp h
  obtain ⟨scope, _, hscope, h⟩ := bind_eq_ok.mp h
  obtain ⟨hdeclared, rfl⟩ := lift_eq_ok.mp hscope
  cases h
  exact ⟨named, hname, scope_declare hdeclared, rfl, rfl⟩

/-- A joined source is declared under its alias. -/
theorem addJoin_eq {master m : Model} {j : JoinOf Query} {s s' : Sources}
    (h : addJoin master j m s c = .ok (s', c')) :
    ∃ name, s'.joins = s.joins ++ [⟨j.kind, j.position, { m with givenName := name }⟩] ∧
      s'.scope = ⟨s.scope.entries ++ [⟨{ m with givenName := name }.name?, m.ownColumns⟩]⟩ := by
  obtain ⟨named, hname, hscope, hjoins, -⟩ := addJoin_ok h
  obtain ⟨name, rfl⟩ := nameSource_source hname
  exact ⟨name, hjoins, hscope⟩

namespace LevelInvariant

variable {S : Model → Prop} {P : Bool → Model → Prop}

mutual

theorem modelOfQuery (hinv : LevelInvariant env S P) {nested : Bool} {m : Model} :
    ∀ (q : Query) {c c' : Counters}, Compile.modelOfQuery env nested q c = .ok (m, c') → P nested m
  | ⟨position, select, source, givenName, timestamp, latestBy, joins, filter, sampleBy, orderBy,
      limit⟩, c, c', h => by
    obtain ⟨body, _, master, scope, _, sources, _, hbody, hmaster, hsources, h⟩ := modelOfQuery_ok h
    have hjoined := hinv.sourcesOfJoins joins (by simp) hsources
    exact hinv.level hbody (hinv.modelOfSource source hbody) hmaster hsources hjoined h

theorem modelOfSource (hinv : LevelInvariant env S P) {m : Model} :
    ∀ (source : SourceOf Query) {c c' : Counters},
      Compile.modelOfSource env source c = .ok (m, c') → S m
  | .table name, c, c', h => by
    rw [Compile.modelOfSource] at h
    obtain ⟨h, rfl⟩ := lift_eq_ok.mp h
    unfold modelOfTable at h
    split at h
    · rename_i table htable
      cases h
      exact hinv.table htable
    · cases h
  | .query q, c, c', h => by
    rw [Compile.modelOfSource] at h
    obtain ⟨inner, _, hinner, h⟩ := bind_eq_ok.mp h
    cases h
    exact hinv.nested (hinv.modelOfQuery q hinner)

theorem sourcesOfJoins (hinv : LevelInvariant env S P) {master : Model} :
    ∀ (joins : List (JoinOf Query)) {s s' : Sources} {c c' : Counters},
      (∀ pending ∈ s.joins, ∃ joined name, S joined ∧ pending.model = { joined with givenName := name }) →
        Compile.sourcesOfJoins env master joins s c = .ok (s', c') →
          ∀ pending ∈ s'.joins, ∃ joined name, S joined ∧ pending.model = { joined with givenName := name }
  | [], s, s', c, c', hs, h => by
    rw [Compile.sourcesOfJoins] at h
    cases h
    exact hs
  | ⟨kind, position, source, givenName, condition⟩ :: joins, s, s', c, c', hs, h => by
    rw [Compile.sourcesOfJoins] at h
    obtain ⟨m, _, hm, h⟩ := bind_eq_ok.mp h
    obtain ⟨added, _, hadded, h⟩ := bind_eq_ok.mp h
    obtain ⟨name, hjoins, -⟩ := addJoin_eq hadded
    refine hinv.sourcesOfJoins joins (fun pending hpending => ?_) h
    rw [hjoins] at hpending
    rcases List.mem_append.mp hpending with hpending | hpending
    · exact hs pending hpending
    · obtain rfl := List.mem_singleton.mp hpending
      exact ⟨m, name, hinv.modelOfSource source hm, rfl⟩

end

end LevelInvariant

theorem projectsAlone_levels :
    LevelInvariant env Model.StandsAlone fun _ m => m.ProjectsAlone where
  table _ := ⟨rfl, rfl, rfl, rfl, rfl, fun h => by cases h⟩
  nested hm := ⟨rfl, rfl, rfl, rfl, rfl, (Model.IsRowSource.nested hm).below⟩
  level _ hsource hmaster _ _ h :=
    projectsAlone_modelOfLevel (isRowSource_addMaster (.of_standsAlone hsource) hmaster) h

/-- The model of a query has no joins next to a projection, down to its tables. -/
theorem modelOfQuery_projectsAlone {nested : Bool} {m : Model} (q : Query)
    (h : modelOfQuery env nested q c = .ok (m, c')) : m.ProjectsAlone :=
  projectsAlone_levels.modelOfQuery q h

/-- The model of a source stands alone. -/
theorem modelOfSource_standsAlone {m : Model} (source : SourceOf Query)
    (h : modelOfSource env source c = .ok (m, c')) : m.StandsAlone :=
  projectsAlone_levels.modelOfSource source h

/-- The master of a level without `latest by` still stands alone when its conditions are
placed. -/
theorem standsAlone_addMaster {q : Query} {m n : Model} {scope : Scope} (hm : m.StandsAlone)
    (hq : q.latestBy = []) (h : addMaster q m c = .ok ((n, scope), c')) : n.StandsAlone := by
  obtain ⟨name, latestBy, hkept, rfl⟩ := addMaster_eq h
  rw [hkept hq]
  exact hm.named name _

/-- So does every joined source. -/
theorem standsAlone_addJoin {master m : Model} {j : JoinOf Query} {s s' : Sources}
    (hm : m.StandsAlone) (hs : ∀ pending ∈ s.joins, pending.model.StandsAlone)
    (h : addJoin master j m s c = .ok (s', c')) :
    ∀ pending ∈ s'.joins, pending.model.StandsAlone := by
  obtain ⟨name, hjoins, -⟩ := addJoin_eq h
  intro pending hpending
  rw [hjoins] at hpending
  rcases List.mem_append.mp hpending with hpending | hpending
  · exact hs pending hpending
  · obtain rfl := List.mem_singleton.mp hpending
    exact hm.named name m.timestamp

end Compile

end SeriesQuery
