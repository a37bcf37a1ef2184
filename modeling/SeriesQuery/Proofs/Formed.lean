import SeriesQuery.Proofs.Sampling
import SeriesQuery.Proofs.Select.Apart

/-!
Names and timestamps in compiled models.

Whatever clauses a level has, the names of each of its projections differ, and a table that is joined
by time carries its timestamp. So does the master of such a join, unless the select list on it
groups by an interval: the key of the groups takes the timestamp over. A place tells what is asked of
the model in it (`Place`), and every level keeps to that (`Compile.formed_levels`).
-/

namespace SeriesQuery

/-- A place in a tree of models. -/
structure Place where
  /-- Whether the select list of which the model is a part groups by an interval. -/
  sampled : Bool
  /-- Whether the model is joined by time. -/
  timed : Bool

/-- The place of the source of a level. -/
def Place.source : Place :=
  ⟨false, false⟩

namespace Model

/-- What a place asks of the model in it. -/
structure FormedIn (place : Place) (m : Model) : Prop where
  apart : ∀ p ∈ m.projection, p.Apart
  master : m.projection = none → m.hasTimeJoin = true → m.timestampOfTable?.isSome = true →
    m.timestamp.isSome = !place.sampled
  joined : place.timed = true → m.timestampOfTable?.isSome = true → m.timestamp.isSome = true

theorem Alike.hasTimeJoin {m m' : Model} (h : m.Alike m') : m'.hasTimeJoin = m.hasTimeJoin := by
  have hkinds : ∀ n : Model,
      n.hasTimeJoin = (n.joins.map JoinClause.kind).any JoinKind.matchesByTime := by
    intro n
    rw [Model.hasTimeJoin, List.any_map]
    rfl
  rw [hkinds, hkinds, h.kinds]

/-- Names differ, and joins by time have their timestamps. -/
def formed : TreeProperty Place where
  here := FormedIn
  below place m := ⟨m.projection.isSome && (place.sampled || m.sampleBy.isSome), false⟩
  joined kind := ⟨false, kind.matchesByTime⟩
  here_alike h hm :=
    ⟨by rw [h.projection]; exact hm.apart,
      by rw [h.projection, h.hasTimeJoin, h.timestampOfTable, h.timestamp]; exact hm.master,
      by rw [h.timestampOfTable, h.timestamp]; exact hm.joined⟩
  below_alike h := by rw [h.projection, h.sampleBy]

/-- The model keeps to its place, and so does everything that it reads. -/
abbrev Formed (place : Place) (m : Model) : Prop :=
  m.Satisfies formed place

theorem below_projection {m : Model} {p : Projection} (hp : m.projection = some p) (place : Place) :
    formed.below place m = ⟨place.sampled || m.sampleBy.isSome, false⟩ := by
  simp [formed, hp]

/-- A row source starts anew: its place matters to its master alone. -/
theorem formed_rows_iff {m : Model} (hp : m.projection = none) {place : Place} :
    m.Formed place ↔ m.FormedIn place ∧ (∀ inner, m.source = .nested inner → inner.Formed .source) ∧
      ∀ j ∈ m.joins, j.model.Formed ⟨false, j.kind.matchesByTime⟩ := by
  have hbelow : formed.below place m = .source := by
    simp [formed, hp, Place.source]
  rw [Formed, satisfies_iff, hbelow]
  exact Iff.rfl

theorem formed_of_rows {m : Model} {place : Place} (hp : m.projection = none)
    (hhere : m.FormedIn place) (hsource : ∀ inner, m.source = .nested inner → inner.Formed .source)
    (hjoins : ∀ j ∈ m.joins, j.model.Formed ⟨false, j.kind.matchesByTime⟩) : m.Formed place :=
  (formed_rows_iff hp).mpr ⟨hhere, hsource, hjoins⟩

/-- A model that reads nothing by time. -/
theorem FormedIn.untimed {sampled : Bool} {m : Model} (hp : m.projection = none)
    (hjoins : m.hasTimeJoin = false) : m.FormedIn ⟨sampled, false⟩ where
  apart p h := by
    rw [hp] at h
    cases h
  master _ h := by
    rw [hjoins] at h
    cases h
  joined h := by cases h

theorem formed_ofTable (name : String) (table : Table) : (ofTable name table).Formed .source := by
  refine .intro (.untimed rfl rfl) (fun _ h => ?_) (fun _ h => ?_)
  · cases h
  · cases h

theorem formed_nested {m : Model} (h : m.Formed .source) : (nested m).Formed .source := by
  refine .intro (.untimed rfl rfl) (fun _ hs => RowSource.nested.inj hs ▸ h) (fun _ h => ?_)
  cases h

/-- A projection hands its place on, and whether it groups by an interval. -/
theorem formed_projection {m body : Model} {p : Projection} {sampled : Bool} (hp : p.Apart)
    (hprojection : m.projection = some p) (hsource : m.source = .nested body) (hjoins : m.joins = [])
    (hbody : body.Formed ⟨sampled || m.sampleBy.isSome, false⟩) : m.Formed ⟨sampled, false⟩ := by
  refine .intro ⟨fun other h => ?_, fun h => ?_, fun h => ?_⟩ (fun inner hs => ?_) (fun j hj => ?_)
  · rw [hprojection] at h
    cases h
    exact hp
  · rw [hprojection] at h
    cases h
  · cases h
  · obtain rfl := RowSource.nested.inj (hsource.symm.trans hs)
    rw [below_projection hprojection]
    exact hbody
  · rw [hjoins] at hj
    cases hj

theorem formed_select {body : Model} {p : Projection} {sampled : Bool} (hp : p.Apart)
    (hbody : body.Formed ⟨sampled, false⟩) : (Model.select p body).Formed ⟨sampled, false⟩ :=
  formed_projection hp rfl rfl rfl (by simpa [Model.select, nested, ofSource] using hbody)

theorem formed_stack {body : Model} {p : Option Projection} {sampled : Bool} (hp : ∀ q ∈ p, q.Apart)
    (hbody : body.Formed ⟨sampled, false⟩) : (Layers.stack p body).Formed ⟨sampled, false⟩ := by
  cases p with
  | none => exact hbody
  | some p => exact formed_select (hp p rfl) hbody

/-- Layers that keep names apart, over a row source that has given its timestamp to their key. -/
theorem formed_onto {l : Layers} (hl : l.Apart) {body : Model}
    (hbody : body.Formed ⟨l.sampleBy.isSome, false⟩) : (l.onto body).Formed .source := by
  have hlayer : ∀ {layer : Option Layer} (kind : List PublishedColumn → Projection),
      (∀ columns, (kind columns).columns = columns.map fun c => (c.name, c.expr)) →
        (∀ x ∈ layer, x.Apart) → ∀ p ∈ layer.map fun x => kind x.columns, p.Apart := by
    intro layer kind hkind hapart p hp
    obtain ⟨x, hx, rfl⟩ := Option.map_eq_some_iff.mp hp
    rw [Projection.Apart, Projection.aliases, hkind, List.pairwise_map, List.pairwise_map]
    exact (hapart x hx).apart
  have hvisible : l.visible.Apart := by
    rw [Projection.Apart, Layers.visible, Projection.aliases, Projection.columns]
    simpa [List.pairwise_map] using hl.items
  unfold Layers.onto
  extract_lets named computed main timed outer top
  have hcomputed : computed.Formed ⟨l.sampleBy.isSome, false⟩ :=
    formed_stack (hlayer .virtual (fun _ => rfl) hl.inner)
      (formed_stack (hlayer .choose (fun _ => rfl) hl.naming) hbody)
  have hmain : timed.Formed .source := formed_projection hl.main rfl rfl rfl hcomputed
  have houter : outer.Formed .source := formed_stack hl.outer hmain
  have htop : top.Formed .source := houter.of_eq rfl rfl rfl rfl rfl
  split
  · exact formed_select hvisible htop
  · exact htop

/-! ### Row sources -/

/-- A row source whose master has a timestamp or not, as its place asks. -/
theorem formed_rows {m m' : Model} {sampled : Bool} (h : m.Formed .source) (hp : m.projection = none)
    (hp' : m'.projection = none) (hs : m'.source = m.source) (hj : m'.joins = m.joins)
    (ht : m.timestamp.isSome = true → m'.timestamp.isSome = !sampled) :
    m'.Formed ⟨sampled, false⟩ := by
  obtain ⟨hhere, hsource, hjoins⟩ := (formed_rows_iff hp).mp h
  refine formed_of_rows hp' ⟨fun p h => ?_, fun _ htime htable => ?_, fun h => ?_⟩ ?_ ?_
  · rw [hp'] at h
    cases h
  · rw [hasTimeJoin, hj] at htime
    rw [timestampOfTable?, hs] at htable
    exact ht (hhere.master hp htime htable)
  · cases h
  · rwa [hs]
  · rwa [hj]

end Model

namespace Clause

variable {m : Model}

theorem fillTimestamp_eq (m : Model) :
    ∃ timestamp, fillTimestamp m = { m with timestamp := timestamp } ∧
      (m.timestampOfTable?.isSome = true → timestamp.isSome = true) := by
  unfold fillTimestamp
  split
  · rename_i h
    exact ⟨m.timestamp, by cases m; rfl, fun _ => h⟩
  · exact ⟨m.timestampOfTable?, rfl, id⟩

/-- A source with the timestamp of its table may be joined by time. -/
theorem formed_fillTimestamp (h : m.Formed .source) (timed : Bool) :
    (fillTimestamp m).Formed ⟨false, timed⟩ := by
  obtain ⟨timestamp, heq, hfilled⟩ := fillTimestamp_eq m
  obtain ⟨hhere, hsource, hjoins⟩ := Model.satisfies_iff.mp h
  rw [heq]
  exact .intro ⟨hhere.apart, fun _ _ => hfilled, fun _ => hfilled⟩ hsource hjoins

/-- The timestamps are filled in where rows are joined by time. -/
theorem formed_fillTimestamps (hp : m.projection = none)
    (hsource : ∀ inner, m.source = .nested inner → inner.Formed .source)
    (hjoins : ∀ j ∈ m.joins, j.model.Formed .source) : (fillTimestamps m).Formed .source := by
  unfold fillTimestamps
  split
  · obtain ⟨timestamp, heq, hfilled⟩ := fillTimestamp_eq m
    rw [heq]
    refine Model.formed_of_rows hp ⟨fun p h => ?_, fun _ _ => hfilled, fun h => ?_⟩ hsource
      fun joined hjoined => ?_
    · rw [show m.projection = none from hp] at h
      cases h
    · cases h
    · obtain ⟨j, hj, rfl⟩ := List.mem_map.mp hjoined
      split
      · exact formed_fillTimestamp (hjoins j hj) _
      · rename_i htime
        rw [show j.kind.matchesByTime = false from Bool.eq_false_iff.mpr htime]
        exact hjoins j hj
  · rename_i htime
    rw [Bool.not_eq_true] at htime
    refine Model.formed_of_rows hp (.untimed hp htime) hsource fun j hj => ?_
    rw [show j.kind.matchesByTime = false from Bool.eq_false_iff.mpr (List.any_eq_false.mp htime j hj)]
    exact hjoins j hj

end Clause

namespace Compile

variable {env : Environment} {nested : Bool} {scope : Scope} {q : Query} {body m : Model}
  {c c' : Counters}

/-! ### Levels -/

theorem formed_finishLevel (hp : body.projection = none) (hbody : body.Formed .source)
    (h : finishLevel env nested scope q body = .ok m) : m.Formed .source := by
  cases hselect : q.select with
  | some select =>
    obtain ⟨key, body', layers, ordered, hkey, hlayers, -, hordered, rfl⟩ :=
      finishLevel_select hselect h
    have hbody' : body'.Formed ⟨q.sampleBy.isSome, false⟩ := by
      generalize q.sampleBy = interval at hkey ⊢
      cases hkey with
      | plain => exact hbody
      | sampled hset =>
        obtain ⟨-, rfl⟩ := Clause.setSampleBy_ok hset
        exact Model.formed_rows hbody hp hp rfl rfl fun _ => rfl
    have hapart := (Layers.ofSelect_ok hlayers).apart_layers
    have hlayered : { layers with sampleBy := q.sampleBy }.Apart :=
      ⟨hapart.naming, hapart.inner, hapart.main, hapart.outer, hapart.items, hapart.shown⟩
    have hinterval : ordered.sampleBy = q.sampleBy := (Clause.orderLayers_ok hordered).1
    have hfinal := (Clause.apart_orderLayers hlayered hordered).1
    unfold Clause.setLimit
    rw [← hinterval] at hbody'
    split
    · exact Model.formed_onto hfinal hbody'
    · split
      · refine Model.formed_onto ?_ hbody'
        exact ⟨hfinal.naming, hfinal.inner, hfinal.main, hfinal.outer, hfinal.items, hfinal.shown⟩
      · exact Model.formed_onto hfinal (hbody'.of_eq rfl rfl rfl rfl rfl)
  | none =>
    obtain ⟨body', ordered, hleft, -, hordered, rfl⟩ := finishLevel_rows hselect h
    have hbody' : body'.Formed .source := by
      generalize q.sampleBy = interval at hleft
      cases hleft with
      | plain => exact hbody
      | left hleave =>
        obtain ⟨key, rfl⟩ := Clause.leaveSampleBy_ok hleave
        exact Model.formed_rows hbody hp hp rfl rfl fun _ => rfl
    obtain ⟨orderBy, rfl⟩ := Clause.orderBody_ok hordered
    exact hbody'.of_eq rfl rfl rfl rfl rfl

theorem formed_modelOfLevel {master : Model} {s : Sources} (hrows : master.IsRowSource)
    (hm : master.Formed .source) (hs : ∀ j ∈ s.joins, j.model.Formed .source)
    (h : modelOfLevel env nested q master s c = .ok (m, c')) : m.Formed .source := by
  obtain ⟨placement, body, -, hbody, h⟩ := modelOfLevel_ok h
  have hplain := isRowSource_joinSources hrows hbody
  refine formed_finishLevel (isRowSource_fillTimestamps hplain).projection
    (Clause.formed_fillTimestamps hplain.projection ?_ ?_) h
  · obtain ⟨filters, conditions, constFilter, rfl⟩ := joinSources_eq hbody
    have hfiltered := (hrows.addFilters filters).withFilters conditions
    exact ((Model.formed_rows_iff hfiltered.projection).mp
      ((hm.addFilters filters).withFilters conditions)).2.1
  · obtain ⟨filters, conditions, constFilter, rfl⟩ := joinSources_eq hbody
    intro j hj
    obtain ⟨unplaced, hunplaced, filters, -, hmodel⟩ := mem_placedJoins hj
    rw [hmodel]
    exact (hs unplaced hunplaced).addFilters filters

/-- **Every level keeps names apart and the timestamps of its joins by time**, whatever clauses it
has. -/
theorem formed_levels :
    LevelInvariant env (fun m => m.StandsAlone ∧ m.Formed .source) fun _ m =>
      m.ProjectsAlone ∧ m.Formed .source where
  table h := ⟨projectsAlone_levels.table h, Model.formed_ofTable _ _⟩
  nested h := ⟨(projectsAlone_levels : LevelInvariant env _ _).nested h.1, Model.formed_nested h.2⟩
  level _ hsource hmaster _ hjoined h := by
    have hrows := isRowSource_addMaster (.of_standsAlone hsource.1) hmaster
    obtain ⟨_, _, -, rfl⟩ := addMaster_eq hmaster
    refine ⟨projectsAlone_modelOfLevel hrows h, formed_modelOfLevel hrows ?_ (fun j hj => ?_) h⟩
    · obtain ⟨halone, hformed⟩ := hsource
      obtain ⟨-, hbelow, hjoins⟩ := (Model.formed_rows_iff halone.projection).mp hformed
      refine Model.formed_of_rows halone.projection (.untimed halone.projection ?_) hbelow hjoins
      change List.any _ _ = false
      rw [halone.joins]
      rfl
    · obtain ⟨joined, name, ⟨-, hformed⟩, hmodel⟩ := hjoined j hj
      rw [hmodel]
      exact hformed.of_eq rfl rfl rfl rfl rfl

end Compile

/-- A model with a projection shows its names. -/
theorem Model.names_shownColumns {m : Model} {p : Projection} (hp : m.projection = some p) :
    m.shownColumns.map ShownColumn.name = p.aliases := by
  obtain ⟨projection, source, _, _, _, _, _, _, _, _, _⟩ := m
  obtain rfl : projection = some p := hp
  have hnames : ∀ typeOf, (p.shownColumns typeOf).map ShownColumn.name = p.aliases := by
    intro typeOf
    simp [Projection.shownColumns, Projection.aliases, Function.comp_def]
  cases source with
  | table name table => exact hnames _
  | nested body =>
    rw [Model.shownColumns]
    split
    · exact hnames _
    · exact hnames _

/-- A compiled query keeps names apart and the timestamps of its joins by time. -/
theorem Query.compile_formed {env : Environment} {q : Query} {m : Model} (h : q.compile env = .ok m) :
    m.Formed .source := by
  obtain ⟨⟨built, c⟩, hbuilt, h⟩ := Except.bind_eq_ok.mp h
  cases h
  exact (Compile.formed_levels.modelOfQuery q hbuilt).2.eliminateOrders false

end SeriesQuery
