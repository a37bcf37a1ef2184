import SeriesQuery.Proofs.Formed

/-!
Timestamps of joins by time.

The master of an asof or splice join and the sources that it joins in that way carry the designated
timestamps of their tables, whatever clauses a level has, with one exception: under a select list that
groups by an interval the master has no timestamp, for the key of the groups takes it away
(`compile_timeJoin_timestamps`, `timeJoin_without_timestamp`). A `sample by` that is left to an
enclosing level keeps the timestamp.
-/

namespace SeriesQuery

namespace Model

/-! ### Row sources -/

mutual

/-- The row sources in a model, each with whether the select list on it groups by an interval;
`sampled` says whether the select list does of which the model itself is a part. -/
def rowSources (sampled : Bool) : Model → List (Model × Bool)
  | m@{ projection := none, source, joins, .. } =>
    (m, sampled) :: (rowSourcesOf false source ++ rowSourcesOfJoins joins)
  | { projection := some _, source, joins, sampleBy, .. } =>
    rowSourcesOf (sampled || sampleBy.isSome) source ++ rowSourcesOfJoins joins

/-- The row sources in the model that the rows come from. -/
def rowSourcesOf (sampled : Bool) : RowSource Model → List (Model × Bool)
  | .table .. => []
  | .nested inner => inner.rowSources sampled

/-- The row sources in joined models. -/
def rowSourcesOfJoins : List (JoinClause Model) → List (Model × Bool)
  | [] => []
  | { model, .. } :: joins => model.rowSources false ++ rowSourcesOfJoins joins

end

theorem mem_rowSourcesOf {sampled : Bool} {source : RowSource Model} {rows : Model × Bool} :
    rows ∈ rowSourcesOf sampled source ↔
      ∃ inner, source = .nested inner ∧ rows ∈ inner.rowSources sampled := by
  cases source with
  | table name table => simp [rowSourcesOf]
  | nested inner => simp [rowSourcesOf]

theorem mem_rowSourcesOfJoins {joins : List (JoinClause Model)} {rows : Model × Bool} :
    rows ∈ rowSourcesOfJoins joins ↔ ∃ j ∈ joins, rows ∈ j.model.rowSources false := by
  induction joins with
  | nil => simp [rowSourcesOfJoins]
  | cons j joins ih => simp [rowSourcesOfJoins, ih]

/-- The row sources of a model are the model itself, if it is one, and those of what it reads. -/
theorem mem_rowSources {sampled : Bool} {m : Model} {rows : Model × Bool} :
    rows ∈ m.rowSources sampled ↔
      m.projection = none ∧ rows = (m, sampled) ∨
        (∃ inner, m.source = .nested inner ∧
          rows ∈ inner.rowSources (m.projection.isSome && (sampled || m.sampleBy.isSome))) ∨
        ∃ j ∈ m.joins, rows ∈ j.model.rowSources false := by
  obtain ⟨projection, source, _, _, _, joins, _, _, _, _, _⟩ := m
  cases projection with
  | none =>
    rw [rowSources, List.mem_cons, List.mem_append, mem_rowSourcesOf, mem_rowSourcesOfJoins]
    simp
  | some p =>
    rw [rowSources, List.mem_append, mem_rowSourcesOf, mem_rowSourcesOfJoins]
    simp

/-- Every node without a projection is a row source. -/
theorem mem_rowSources_of_nodes {m : Model} {node : Model × List Reader} (h : node ∈ m.nodes)
    (hp : node.1.projection = none) (sampled : Bool) :
    ∃ below, (node.1, below) ∈ m.rowSources sampled := by
  induction m using treeInduct generalizing node sampled with
  | step m ihSource ihJoins =>
    rcases mem_nodes.mp h with rfl | ⟨inner, hinner, node, hnode, rfl⟩ | ⟨j, hj, node, hnode, rfl⟩
    · exact ⟨sampled, mem_rowSources.mpr (.inl ⟨hp, rfl⟩)⟩
    · obtain ⟨below, hbelow⟩ := ihSource inner hinner hnode hp _
      exact ⟨below, mem_rowSources.mpr (.inr (.inl ⟨inner, hinner, hbelow⟩))⟩
    · obtain ⟨below, hbelow⟩ := ihJoins j hj hnode hp _
      exact ⟨below, mem_rowSources.mpr (.inr (.inr ⟨j, hj, hbelow⟩))⟩

/-- A row source in a well-formed model and the sources that are joined to it keep to their places. -/
theorem Formed.rowSource {place : Place} {m : Model} (h : m.Formed place) {rows : Model × Bool}
    (hrows : rows ∈ m.rowSources place.sampled) :
    rows.1.projection = none ∧ (∃ timed, rows.1.FormedIn ⟨rows.2, timed⟩) ∧
      ∀ j ∈ rows.1.joins, j.model.FormedIn ⟨false, j.kind.matchesByTime⟩ := by
  induction h with
  | @intro place m here source joins ihSource ihJoins =>
    rcases mem_rowSources.mp hrows with ⟨hp, rfl⟩ | ⟨inner, hinner, hrows⟩ | ⟨j, hj, hrows⟩
    · exact ⟨hp, ⟨place.timed, here⟩, fun j hj => (satisfies_iff.mp (joins j hj)).1⟩
    · exact ihSource inner hinner hrows
    · exact ihJoins j hj hrows

end Model

/-! ### Compiled statements -/

/-- The row sources of a compiled statement; a table definition has none. -/
def Compiled.rowSources : Compiled → List (Model × Bool)
  | query model => model.rowSources false
  | createTable _ => []

/-- **Joins by time have their timestamps.** In every row source of a compiled statement that has an
asof or splice join, each table joined in that way carries a timestamp if it has a designated one,
and the master does so exactly if the select list on the row source has no `sample by`. -/
theorem compile_timeJoin_timestamps {env : Environment} {sql : String} {r : Compiled}
    (h : compile env sql = .ok r) :
    ∀ rows ∈ r.rowSources, rows.1.hasTimeJoin = true →
      (∀ j ∈ rows.1.joins, j.kind.matchesByTime = true → j.model.timestampOfTable?.isSome = true →
        j.model.timestamp.isSome = true) ∧
      (rows.1.timestampOfTable?.isSome = true →
        (rows.1.timestamp.isSome = true ↔ rows.2 = false)) := by
  obtain ⟨statement, -, h⟩ := Except.bind_eq_ok.mp h
  cases statement with
  | createTable d =>
    obtain ⟨t, -, h⟩ := Except.bind_eq_ok.mp h
    cases h
    intro rows hrows
    cases hrows
  | query q =>
    obtain ⟨m, hm, h⟩ := Except.bind_eq_ok.mp h
    cases h
    intro rows hrows htime
    obtain ⟨hp, ⟨timed, hmaster⟩, hjoined⟩ := (q.compile_formed hm).rowSource hrows
    refine ⟨fun j hj hkind htable => (hjoined j hj).joined hkind htable, fun htable => ?_⟩
    rw [hmaster.master hp htime htable, Bool.not_eq_true']

/-- Tables of trades and of quotes, each with its time. -/
def marketEnvironment : Environment where
  table? name :=
    if Ascii.same name "trades" then
      some ((((Table.empty "trades").withColumn "price" .double).withColumn "t" .timestamp).withTimestamp "t")
    else if Ascii.same name "quotes" then
      some ((((Table.empty "quotes").withColumn "bid" .double).withColumn "q" .timestamp).withTimestamp "q")
    else none
  settings := .standard

/-- A row source that a test finds in a statement. -/
theorem exists_rowSource (env : Environment) (sql : String) (p : Model × Bool → Bool)
    (h : (compile env sql).toOption.any (fun r => r.rowSources.any p) = true) :
    ∃ r, compile env sql = .ok r ∧ ∃ rows ∈ r.rowSources, p rows = true := by
  obtain ⟨r, hr, hany⟩ := Except.any_toOption.mp h
  exact ⟨r, hr, List.any_eq_true.mp hany⟩

/-- A limit, an order and a select list leave the timestamp of the master alone. -/
theorem compile_timeJoin_timestamps_ordered :
    ∃ r, compile marketEnvironment
        "select price, bid b from trades asof join quotes order by bid limit 3" = .ok r ∧
      ∃ rows ∈ r.rowSources, rows.1.hasTimeJoin = true ∧ rows.1.timestampOfTable?.isSome = true ∧
        rows.1.timestamp.isSome = true := by
  obtain ⟨r, hr, rows, hrows, hp⟩ := exists_rowSource marketEnvironment
    "select price, bid b from trades asof join quotes order by bid limit 3"
    (fun rows => rows.1.hasTimeJoin && rows.1.timestampOfTable?.isSome && !rows.2) (by decide +kernel)
  obtain ⟨hjoin, hplain⟩ := Bool.and_eq_true_iff.mp hp
  obtain ⟨htime, htable⟩ := Bool.and_eq_true_iff.mp hjoin
  have hmaster := (compile_timeJoin_timestamps hr rows hrows htime).2 htable
  exact ⟨r, hr, rows, hrows, htime, htable, hmaster.mpr (by simpa using hplain)⟩

/-- The key of a select list with `sample by` takes the timestamp of the master away, although
the join still needs it. -/
theorem timeJoin_without_timestamp :
    ∃ r, compile marketEnvironment
        "select sum(price) from trades asof join quotes sample by 1h" = .ok r ∧
      ∃ rows ∈ r.rowSources, rows.1.hasTimeJoin = true ∧ rows.1.timestampOfTable?.isSome = true ∧
        rows.1.timestamp.isSome = false := by
  obtain ⟨r, hr, rows, hrows, hp⟩ := exists_rowSource marketEnvironment
    "select sum(price) from trades asof join quotes sample by 1h"
    (fun rows => rows.1.hasTimeJoin && rows.1.timestampOfTable?.isSome && !rows.1.timestamp.isSome)
    (by decide +kernel)
  obtain ⟨hjoin, huntimed⟩ := Bool.and_eq_true_iff.mp hp
  obtain ⟨htime, htable⟩ := Bool.and_eq_true_iff.mp hjoin
  exact ⟨r, hr, rows, hrows, htime, htable, by simpa using huntimed⟩

end SeriesQuery
