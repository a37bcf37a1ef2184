import SeriesQuery.Proofs.SampleKey

/-!
What a model shows.

The columns that a model shows, and the sources that a projection sees in it, are made of projections,
names and tables. So they stay when filters move into the model, when timestamps are filled in and when
orders are dropped (`Model.SameShown`).
-/

namespace SeriesQuery

namespace Model

variable {m m' n : Model}

/-! ### The sources of a row source -/

theorem joinedSources_eq (joins : List (JoinClause Model)) :
    joinedSources joins = joins.map fun j => j.model.asEntry := by
  induction joins with
  | nil => rfl
  | cons j joins ih =>
    obtain ⟨kind, ⟨_, source, _, _, _, _, _, _, _, _, _⟩, _, _, _, _⟩ := j
    cases source <;> simp [joinedSources, ih, asEntry, name?, tableName?, ownColumns, ownColumnsOf]

/-- The sources of a row source are its own and those that are joined to it. -/
theorem sources_eq (m : Model) : m.sources = m.asEntry :: m.joins.map fun j => j.model.asEntry := by
  obtain ⟨_, source, _, _, _, joins, _, _, _, _, _⟩ := m
  cases source <;>
    simp [sources, joinedSources_eq, asEntry, name?, tableName?, ownColumns, ownColumnsOf]

/-! ### Models that show the same -/

/-- The models have the same projection and show the same columns and sources. -/
structure SameShown (m m' : Model) : Prop where
  projection : m'.projection = m.projection
  columns : m'.shownColumns = m.shownColumns
  sources : m'.sources = m.sources

/-- The sources of rows are the same table, or models that show the same. -/
inductive SameSource : RowSource Model → RowSource Model → Prop where
  | refl (source : RowSource Model) : SameSource source source
  | nested {inner next : Model} (h : inner.SameShown next) : SameSource (.nested inner) (.nested next)

namespace SameShown

theorem refl (m : Model) : m.SameShown m :=
  ⟨rfl, rfl, rfl⟩

theorem trans (h : m.SameShown m') (h' : m'.SameShown n) : m.SameShown n where
  projection := h'.projection.trans h.projection
  columns := h'.columns.trans h.columns
  sources := h'.sources.trans h.sources

theorem asEntry (h : m.SameShown m') : m'.asEntry = m.asEntry := by
  have hsources := h.sources
  rw [sources_eq, sources_eq] at hsources
  exact (List.cons.inj hsources).1

theorem joinedColumns_eq {joins joins' : List (JoinClause Model)}
    (h : List.Forall₂ (fun j j' => j.model.SameShown j'.model) joins joins') :
    joinedColumns joins' = joinedColumns joins := by
  induction h with
  | nil => rfl
  | cons hj _ ih => rw [joinedColumns, joinedColumns, hj.columns, ih]

/-- What a model shows comes from its projection, its name and what it reads. -/
theorem of_parts (hp : m'.projection = m.projection) (hname : m'.givenName = m.givenName)
    (hsource : SameSource m.source m'.source)
    (hjoins : List.Forall₂ (fun j j' => j.model.SameShown j'.model) m.joins m'.joins) :
    m.SameShown m' := by
  have hentries : m'.joins.map (fun j => j.model.asEntry) = m.joins.map fun j => j.model.asEntry := by
    rw [← List.forall₂_eq_eq_eq, List.forall₂_map_left_iff, List.forall₂_map_right_iff]
    exact hjoins.flip.imp fun _ _ h => h.asEntry
  have hcolumns := joinedColumns_eq hjoins
  obtain ⟨projection, source, name, _, _, joins, _, _, _, _, _⟩ := m
  obtain ⟨projection', source', name', _, _, joins', _, _, _, _, _⟩ := m'
  obtain rfl : projection' = projection := hp
  obtain rfl : name' = name := hname
  simp only at hsource hcolumns hentries
  cases hsource with
  | refl =>
    refine ⟨rfl, ?_, by rw [sources_eq, sources_eq, hentries]; rfl⟩
    cases projection' with
    | none => rw [shownColumns, shownColumns, hcolumns]
    | some p =>
      cases source with
      | table => rw [shownColumns, shownColumns, joinedSources_eq, joinedSources_eq, hentries]
      | nested => rw [shownColumns, shownColumns]
  | @nested inner next h =>
    refine ⟨rfl, ?_, ?_⟩
    · cases projection' with
      | none => rw [shownColumns, shownColumns, ownColumnsOf, ownColumnsOf, h.columns, hcolumns]
      | some p => rw [shownColumns, shownColumns, h.projection, h.columns, h.sources]
    · simp only [Model.sources, joinedSources_eq, hentries, h.columns]

/-- Other clauses do not matter. -/
theorem of_eq (hp : m'.projection = m.projection) (hname : m'.givenName = m.givenName)
    (hs : m'.source = m.source) (hj : m'.joins = m.joins) : m.SameShown m' := by
  refine of_parts hp hname (hs ▸ .refl _) ?_
  rw [hj]
  exact List.forall₂_same.mpr fun j _ => refl j.model

theorem withSource {inner next : Model} (hs : m.source = .nested inner) (h : inner.SameShown next) :
    m.SameShown { m with source := .nested next } :=
  of_parts rfl rfl (hs ▸ .nested h) (List.forall₂_same.mpr fun j _ => refl j.model)

/-! ### Filters that move -/

theorem followsFilters : FollowsFilters SameShown where
  here _ _ := of_eq rfl rfl rfl rfl
  below := withSource

theorem addFilters (m : Model) (conditions : List Expr) : m.SameShown (m.addFilters conditions) :=
  List.foldlRecOn conditions Model.addFilter (refl m) fun n h condition _ =>
    h.trans (followsFilters.addFilter n condition)

theorem withFilters (m : Model) (conditions : List Expr) :
    m.SameShown (conditions.foldl Model.withFilter m) :=
  List.foldlRecOn conditions Model.withFilter (refl m) fun _ h _ _ => h.trans (of_eq rfl rfl rfl rfl)

/-! ### Timestamps and orders -/

theorem fillTimestamp (m : Model) : m.SameShown (Clause.fillTimestamp m) := by
  obtain ⟨timestamp, heq, -⟩ := Clause.fillTimestamp_eq m
  rw [heq]
  exact of_eq rfl rfl rfl rfl

theorem fillTimestamps (m : Model) : m.SameShown (Clause.fillTimestamps m) := by
  unfold Clause.fillTimestamps
  split
  · obtain ⟨timestamp, heq, -⟩ := Clause.fillTimestamp_eq m
    rw [heq]
    refine of_parts rfl rfl (.refl _) (List.forall₂_map_right_iff.mpr ?_)
    refine List.forall₂_same.mpr fun j _ => ?_
    split
    · exact fillTimestamp j.model
    · exact refl j.model
  · exact refl m

theorem eliminateOrders (m : Model) (orderedAbove : Bool) :
    m.SameShown (m.eliminateOrders orderedAbove) := by
  induction m using treeInduct generalizing orderedAbove with
  | step m ihSource ihJoins =>
    obtain ⟨orderBy, inSource, inJoins, heq⟩ := m.eliminateOrders_eq orderedAbove
    rw [heq]
    refine of_parts rfl rfl ?_ ?_
    · cases hs : m.source with
      | table => exact .refl _
      | nested inner => exact .nested (ihSource inner hs inSource)
    · generalize m.joins = joins at ihJoins
      induction joins with
      | nil => exact .nil
      | cons j joins ih =>
        obtain ⟨hj, hjoins⟩ := List.forall_mem_cons.mp ihJoins
        exact .cons (hj _) (ih hjoins)

end SameShown

end Model

end SeriesQuery
