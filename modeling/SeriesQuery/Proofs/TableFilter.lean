import SeriesQuery.Proofs.Expr.Filtered
import SeriesQuery.Proofs.Levels
import SeriesQuery.Proofs.Placement.Destination

/-!
Queries of one table with a condition.

A condition about the columns of the only source of a level filters that source, so such a query
compiles to its table with the filter that the condition becomes (`Query.compile_ofFilter`).
-/

namespace SeriesQuery

/-- A query at `position` of one table with a condition and nothing else. -/
def Query.ofFilter (position : Nat) (table : Ident) (condition : Expr) : Query where
  position := position
  select := none
  source := .table table
  givenName := none
  timestamp := none
  latestBy := []
  joins := []
  filter := some condition
  sampleBy := none
  orderBy := []
  limit := none

/-- The scope of a table alone. -/
def Scope.ofTable (name : String) (table : Table) : Scope :=
  ⟨[⟨some name, table.shownColumns⟩]⟩

/-- The rows of a table that satisfy a filter. -/
def Model.ofFilter (name : String) (table : Table) (filter : Expr) : Model :=
  { Model.ofTable name table with filter := some filter }

/-! ### The only source -/

/-- References that lead to one source have that source alone. -/
theorem Scope.sourcesOf_single {scope : Scope} {s : Nat} {refs : List (ColumnRef × Nat)}
    (hne : refs ≠ []) (h : ∀ ref ∈ refs, scope.LeadsTo ref.1 s) :
    scope.sourcesOf refs = .ok [s] := by
  induction refs with
  | nil => exact absurd rfl hne
  | cons ref refs ih =>
    obtain ⟨hlead, hrefs⟩ := List.forall_mem_cons.mp h
    obtain ⟨type, hresolve⟩ := hlead ref.2
    simp only [sourcesOf, hresolve]
    cases refs with
    | nil => rfl
    | cons ref' refs =>
      rw [ih (by simp) hrefs]
      simp [sourcesOf.insertSource]

/-- The references to the columns of the only source lead to it. -/
theorem Scope.leadsTo_ofTable {name : String} {table : Table} {refs : List (ColumnRef × Nat)}
    {sources : List Nat} (h : (ofTable name table).sourcesOf refs = .ok sources) :
    ∀ ref ∈ refs, (ofTable name table).LeadsTo ref.1 0 := by
  intro ref href
  obtain ⟨t, -, hlead⟩ := leadsTo_of_mem h href
  obtain rfl : t = 0 := Nat.lt_one_iff.mp hlead.lt_length
  exact hlead

namespace Placement

variable {scope : Scope}

/-- Columns of one source are not equated to those of another. -/
theorem equalityOf_eq_none {e : Expr} {s : Nat} (h : ∀ ref ∈ e.columns, scope.LeadsTo ref.1 s) :
    equalityOf scope e = .ok none := by
  unfold equalityOf
  split
  · rename_i left right p
    cases left with
    | column l lp =>
      cases right with
      | column r rp =>
        obtain ⟨ltype, hl⟩ := h (l, lp) (by simp [Expr.columns]) lp
        obtain ⟨rtype, hr⟩ := h (r, rp) (by simp [Expr.columns]) rp
        simp [Expr.column?, Expr.position, hl, hr, bind, Except.bind, pure, Except.pure]
      | _ => rfl
    | _ => rfl
  · rfl

/-- A condition on the columns of the only source filters it. -/
theorem destination_single {c : Conjunct} (hwhere : c.origin = .whereClause)
    (hne : c.expr.columns ≠ []) (h : ∀ ref ∈ c.expr.columns, scope.LeadsTo ref.1 0) :
    destination scope [none] c = .ok (.filter 0) := by
  have hsources := Scope.sourcesOf_single hne h
  rw [destination_of_filters (by rw [hwhere]; trivial) hsources (by simp) (equalityOf_eq_none h)]
  rfl

theorem destinations_single {cs : List Conjunct}
    (h : ∀ c ∈ cs, c.origin = .whereClause ∧ c.expr.columns ≠ [] ∧
      ∀ ref ∈ c.expr.columns, scope.LeadsTo ref.1 0) :
    destinations scope [none] cs = .ok (cs.map fun c => (c.expr, .filter 0)) := by
  induction cs with
  | nil => rfl
  | cons c cs ih =>
    obtain ⟨⟨hwhere, hne, hlead⟩, hcs⟩ := List.forall_mem_cons.mp h
    simp only [destinations, destination_single hwhere hne hlead, ih hcs, List.map_cons]

end Placement

/-- Filters of the only source, and nothing else. -/
theorem Placement.ofDestinations_single (names : List String) (es : List Expr) :
    ∃ order, ofDestinations names [none] (es.map fun e => (e, .filter 0)) =
      { order, criteria := [[]], filters := [es], postJoin := [[]], constFilters := [] } := by
  have hedges : edges (es.map fun e => (e, .filter 0)) = [] := by
    simp [edges, List.filterMap_map]
  have hequalities : equalities (es.map fun e => (e, .filter 0)) = [] := by
    simp [equalities, List.filterMap_map]
  have hpropagated : propagated (es.map fun e => (e, .filter 0)) = [] := by
    simp [propagated, equivalence, hequalities, Equivalence.equalColumns, Equivalence.empty]
  have hfilters : sourceFilters (es.map fun e => (e, .filter 0)) 0 = es := by
    simp [sourceFilters, hpropagated, Expr.extendDistinct, ownFilters, List.filterMap_map]
  refine ⟨(⟨names.map Ascii.lower, []⟩ : JoinGraph).order [false], ?_⟩
  simp [ofDestinations, hedges, hfilters, JoinKinds.fixed, List.range_succ, ownCriteria,
    postJoinFilters, constantFilters, JoinGraph.criteria, Expr.extendDistinct, List.filterMap_map]

theorem Model.foldl_withFilter (m : Model) (filter : Expr) (conditions : List Expr) :
    conditions.foldl withFilter { m with filter := some filter } =
      { m with filter := some (conditions.foldl Expr.conj filter) } := by
  induction conditions generalizing filter with
  | nil => rfl
  | cons condition conditions ih => exact ih (Expr.conj filter condition)

/-! ### The model -/

namespace Compile

variable {env : Environment} {name : Ident} {table : Table} {condition : Expr} {p : Nat}

/-- The rows of a table under filters. -/
theorem addFilters_ofTable (name : String) (table : Table) (condition : Expr) :
    (Model.ofTable name table).addFilters condition.pushNegations.conjuncts =
      .ofFilter name table condition.filtered := by
  have hfold : ∀ (conditions : List Expr) (m : Model), m.source = .table name table →
      m.addFilters conditions = conditions.foldl Model.withFilter m := by
    intro conditions
    induction conditions with
    | nil => exact fun _ _ => rfl
    | cons c cs ih =>
      intro m hm
      have hadd : m.addFilter c = m.withFilter c := by rw [Model.addFilter, hm]
      rw [Model.addFilters, List.foldl_cons, hadd, List.foldl_cons]
      exact ih (m.withFilter c) hm
  have hsplit := condition.conjunction_conjuncts
  rw [hfold _ _ rfl]
  cases hlist : condition.pushNegations.conjuncts with
  | nil => exact absurd hlist (Expr.conjuncts_ne_nil _)
  | cons first es =>
    rw [hlist] at hsplit
    rw [← Option.some.inj hsplit, List.foldl_cons]
    exact Model.foldl_withFilter (.ofTable name table) first es

theorem modelOfQuery_ofFilter (h : env.table? name.name = some table) (c : Counters) :
    modelOfQuery env false (.ofFilter p name condition) c =
      modelOfLevel env false (.ofFilter p name condition) (.ofTable name.name table)
        ⟨.ofTable name.name table, [], []⟩ c := by
  simp only [Query.ofFilter, modelOfQuery, modelOfSource, sourcesOfJoins, modelOfTable, h]
  rfl

/-- The condition is placed if the query has a model. -/
theorem place_of_modelOfLevel {master m : Model} {s : Sources} {q : Query} {c c' : Counters}
    (h : modelOfLevel env false q master s c = .ok (m, c')) :
    ∃ placement, Placement.place s.scope (none :: s.joins.map fun j => some j.kind)
      (s.conjuncts ++ match q.filter with
        | some filter => Conjunct.ofCondition .whereClause filter
        | none => []) = .ok placement := by
  unfold modelOfLevel at h
  obtain ⟨placement, _, hplace, -⟩ := bind_eq_ok.mp h
  exact ⟨placement, (lift_eq_ok.mp hplace).1⟩

/-- A table without joins under the filters of a condition. -/
theorem joinSources_filters (order : List Nat) (condition : Expr) (c : Counters) :
    joinSources env (.ofTable name.name table) []
        ⟨order, [[]], [condition.pushNegations.conjuncts], [[]], []⟩ c =
      .ok (.ofFilter name.name table condition.filtered, c) := by
  have hjoins : ∀ placement, placedJoins placement [] = [] := by simp [placedJoins]
  simp only [joinSources, hjoins, List.getD_cons_zero, addFilters_ofTable, List.foldl_nil]
  rfl

theorem modelOfLevel_ofFilter {s : Scope}
    (h : ∀ c ∈ condition.pushNegations.conjuncts, c.columns ≠ [] ∧
      ∀ ref ∈ c.columns, s.LeadsTo ref.1 0) (c : Counters) :
    modelOfLevel env false (.ofFilter p name condition) (.ofTable name.name table) ⟨s, [], []⟩ c =
      .ok (.ofFilter name.name table condition.filtered, c) := by
  have hconjuncts : ∀ c ∈ Conjunct.ofCondition .whereClause condition,
      c.origin = .whereClause ∧ c.expr.columns ≠ [] ∧ ∀ ref ∈ c.expr.columns, s.LeadsTo ref.1 0 := by
    intro c hc
    obtain ⟨e, he, rfl⟩ := List.mem_map.mp hc
    exact ⟨rfl, h e he⟩
  have hplaced : Placement.place s [none] (Conjunct.ofCondition .whereClause condition) =
      .ok (Placement.ofDestinations (s.entries.map fun e => e.name.getD "") [none]
        (condition.pushNegations.conjuncts.map fun e => (e, .filter 0))) := by
    rw [Placement.place, Placement.destinations_single hconjuncts]
    simp only [Conjunct.ofCondition, List.map_map, Function.comp_def]
  obtain ⟨order, hsingle⟩ := Placement.ofDestinations_single
    (s.entries.map fun e => e.name.getD "") condition.pushNegations.conjuncts
  rw [hsingle] at hplaced
  refine bind_eq_ok.mpr ⟨_, c, lift_eq_ok.mpr ⟨hplaced, rfl⟩, ?_⟩
  exact bind_eq_ok.mpr ⟨_, c, joinSources_filters order condition c, rfl⟩

end Compile

/-- **A condition on a table compiles to the table with the filter that it becomes.** -/
theorem Query.compile_ofFilter {env : Environment} (name : Ident) {table : Table} {condition : Expr} {p : Nat}
    (h : env.table? name.name = some table)
    (hcolumns : ∀ c ∈ condition.pushNegations.conjuncts, c.columns ≠ [] ∧
      ∀ ref ∈ c.columns, (Scope.ofTable name.name table).LeadsTo ref.1 0) :
    (Query.ofFilter p name condition).compile env =
      .ok (.ofFilter name.name table condition.filtered) := by
  simp only [Query.compile, StateT.run, Compile.modelOfQuery_ofFilter h,
    Compile.modelOfLevel_ofFilter hcolumns]
  rfl

/-- The columns of a condition that compiles are columns of its table. -/
theorem Query.columns_of_compile {env : Environment} {name : Ident} {condition : Expr} {p : Nat}
    {m : Model}
    (h : (Query.ofFilter p name condition).compile env = .ok m) :
    ∃ table, env.table? name.name = some table ∧ ∀ c ∈ condition.pushNegations.conjuncts,
      ∀ ref ∈ c.columns, (Scope.ofTable name.name table).LeadsTo ref.1 0 := by
  obtain ⟨⟨model, c⟩, hmodel, -⟩ := Except.bind_eq_ok.mp h
  cases htable : env.table? name.name with
  | none =>
    have hmodel' := hmodel
    simp only [StateT.run, Query.ofFilter, Compile.modelOfQuery, Compile.modelOfSource,
      Compile.modelOfTable, htable] at hmodel'
    cases hmodel'
  | some table =>
    refine ⟨table, rfl, fun e he ref href => ?_⟩
    simp only [StateT.run, Compile.modelOfQuery_ofFilter htable] at hmodel
    obtain ⟨placement, hplace⟩ := Compile.place_of_modelOfLevel hmodel
    obtain ⟨placed, hplaced, -⟩ := Placement.place_ok hplace
    have hmem : (⟨e, .whereClause⟩ : Conjunct) ∈ Conjunct.ofCondition .whereClause condition :=
      List.mem_map.mpr ⟨e, he, rfl⟩
    obtain ⟨d, hd, -⟩ := Placement.exists_destination hplaced hmem
    obtain ⟨sources, hsources, -⟩ := Placement.destination_suits hd
    exact Scope.leadsTo_ofTable hsources ref href

end SeriesQuery
