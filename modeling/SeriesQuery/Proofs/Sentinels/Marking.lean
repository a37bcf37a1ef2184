import SeriesQuery.Compile
import SeriesQuery.Proofs.Positions.Model
import SeriesQuery.Proofs.Select.Layout

/-!
Models with sentinels.

A model is given sentinels for the joins that no equality relates to the earlier sources, numbered by a
list: first those of the model itself, then those of the model it reads, then those of the models
joined to it (`Model.withSentinels`). Nothing that is done to models looks at the constant filters that
hold them, so it may be done before they are given or after (`Model.Unmarked`).
-/

namespace SeriesQuery

open Compile (sentinel)

/-- A filter, which may be absent, with more conjuncts in order. -/
def Expr.narrowed (filter : Option Expr) (conjuncts : List Expr) : Option Expr :=
  conjuncts.foldl (fun filter conjunct => some (narrow filter conjunct)) filter

theorem Expr.conjunction_append (before after : List Expr) :
    conjunction (before ++ after) = narrowed (conjunction before) after := by
  have hsome : ∀ (es : List Expr) (e : Expr), narrowed (some e) es = some (es.foldl conj e) := by
    intro es
    induction es with
    | nil => exact fun _ => rfl
    | cons first es ih => exact fun e => ih (conj e first)
  cases before with
  | cons first before =>
    rw [List.cons_append, conjunction, conjunction, hsome, List.foldl_append]
  | nil =>
    cases after with
    | nil => rfl
    | cons first after => exact (hsome after first).symm

namespace Model

/-! ### Sentinels of a tree -/

/-- The positions of the joins that no equality relates to earlier sources. -/
def crossPositions (joins : List (JoinClause Model)) : List Nat :=
  (joins.filter fun j => j.provenance = .implicitCross).map JoinClause.position

/-- The sentinels of these joins, under the given numbers. -/
def sentinelsOf (joins : List (JoinClause Model)) (numbers : List Nat) : List Expr :=
  (crossPositions joins).zipWith (fun position n => sentinel n position) numbers

mutual

/-- How many joins of the tree no equality relates to earlier sources. -/
def crossJoins : Model → Nat
  | { source, joins, .. } =>
    (crossPositions joins).length + (crossJoinsOf source + crossJoinsIn joins)

/-- How many such joins there are in a row source. -/
def crossJoinsOf : RowSource Model → Nat
  | .table .. => 0
  | .nested inner => inner.crossJoins

/-- How many such joins there are in joined models. -/
def crossJoinsIn : List (JoinClause Model) → Nat
  | [] => 0
  | { model, .. } :: joins => model.crossJoins + crossJoinsIn joins

end

mutual

/-- The model with a sentinel behind the constant filter of each row source for each of its joins that
no equality relates to earlier sources. The numbers are used from left to right. -/
def withSentinels : Model → List Nat → Model
  | m@{ source, joins, constFilter, .. }, numbers =>
    let below := numbers.drop ((crossPositions joins).length)
    { m with
      source := sourceWithSentinels source (below.take (crossJoinsOf source))
      joins := joinsWithSentinels joins (below.drop (crossJoinsOf source))
      constFilter := Expr.narrowed constFilter (sentinelsOf joins numbers) }

/-- A row source with sentinels. -/
def sourceWithSentinels : RowSource Model → List Nat → RowSource Model
  | .table name table, _ => .table name table
  | .nested inner, numbers => .nested (inner.withSentinels numbers)

/-- Joined models with sentinels. -/
def joinsWithSentinels : List (JoinClause Model) → List Nat → List (JoinClause Model)
  | [], _ => []
  | j@{ model, .. } :: joins, numbers =>
    { j with model := model.withSentinels (numbers.take model.crossJoins) } ::
      joinsWithSentinels joins (numbers.drop model.crossJoins)

end

theorem crossJoins_eq (m : Model) :
    m.crossJoins =
      (crossPositions m.joins).length + (crossJoinsOf m.source + crossJoinsIn m.joins) := by
  cases m
  rfl

theorem withSentinels_eq (m : Model) (numbers : List Nat) :
    m.withSentinels numbers =
      let below := numbers.drop ((crossPositions m.joins).length)
      { m with
        source := sourceWithSentinels m.source (below.take (crossJoinsOf m.source))
        joins := joinsWithSentinels m.joins (below.drop (crossJoinsOf m.source))
        constFilter := Expr.narrowed m.constFilter (sentinelsOf m.joins numbers) } := by
  cases m
  rfl

variable (m : Model) (numbers : List Nat)

@[simp] theorem projection_withSentinels : (m.withSentinels numbers).projection = m.projection := by
  cases m
  rfl

@[simp] theorem givenName_withSentinels : (m.withSentinels numbers).givenName = m.givenName := by
  cases m
  rfl

@[simp] theorem timestamp_withSentinels : (m.withSentinels numbers).timestamp = m.timestamp := by
  cases m
  rfl

@[simp] theorem source_withSentinels : (m.withSentinels numbers).source =
    sourceWithSentinels m.source
      ((numbers.drop ((crossPositions m.joins).length)).take (crossJoinsOf m.source)) := by
  cases m
  rfl

@[simp] theorem joins_withSentinels : (m.withSentinels numbers).joins =
    joinsWithSentinels m.joins
      ((numbers.drop ((crossPositions m.joins).length)).drop (crossJoinsOf m.source)) := by
  cases m
  rfl

@[simp] theorem tableName?_withSentinels : (m.withSentinels numbers).tableName? = m.tableName? := by
  cases hsource : m.source <;> simp [tableName?, hsource, sourceWithSentinels]

@[simp] theorem name?_withSentinels : (m.withSentinels numbers).name? = m.name? := by
  simp [name?]

@[simp] theorem timestampOfTable?_withSentinels :
    (m.withSentinels numbers).timestampOfTable? = m.timestampOfTable? := by
  cases hsource : m.source <;> simp [timestampOfTable?, hsource, sourceWithSentinels]

theorem map_joinsWithSentinels {α : Type} (f : JoinClause Model → α)
    (hf : ∀ j model, f { j with model := model } = f j) (joins : List (JoinClause Model)) :
    (joinsWithSentinels joins numbers).map f = joins.map f := by
  induction joins generalizing numbers with
  | nil => rfl
  | cons j joins ih => rw [joinsWithSentinels, List.map_cons, List.map_cons, ih, hf]

theorem isEmpty_joinsWithSentinels (joins : List (JoinClause Model)) :
    (joinsWithSentinels joins numbers).isEmpty = joins.isEmpty := by
  cases joins <;> rfl

theorem any_joinsWithSentinels (p : JoinClause Model → Bool)
    (hp : ∀ j model, p { j with model := model } = p j) (joins : List (JoinClause Model)) :
    (joinsWithSentinels joins numbers).any p = joins.any p := by
  have hmap := congrArg (List.any · id) (map_joinsWithSentinels numbers p hp joins)
  simpa only [List.any_map, Function.id_comp] using hmap

theorem designatedTimestamp?_withSentinels :
    (m.withSentinels numbers).designatedTimestamp? = m.designatedTimestamp? := by
  simp [designatedTimestamp?, isEmpty_joinsWithSentinels]

/-! ### Numbers that are used -/

theorem sentinelsOf_take {joins : List (JoinClause Model)} {k : Nat}
    (h : (crossPositions joins).length ≤ k) :
    sentinelsOf joins (numbers.take k) = sentinelsOf joins numbers := by
  unfold sentinelsOf
  generalize crossPositions joins = positions at h ⊢
  induction positions generalizing numbers k with
  | nil => rfl
  | cons p positions ih =>
    obtain ⟨k, rfl⟩ : ∃ l, k = l + 1 := ⟨k - 1, by simp at h; omega⟩
    cases numbers with
    | nil => rfl
    | cons n numbers =>
      rw [List.take_succ_cons, List.zipWith_cons_cons, List.zipWith_cons_cons,
        ih numbers (by simpa using h)]

theorem joinsWithSentinels_take {joins : List (JoinClause Model)} {k : Nat}
    (h : crossJoinsIn joins ≤ k) :
    joinsWithSentinels joins (numbers.take k) = joinsWithSentinels joins numbers := by
  induction joins generalizing numbers k with
  | nil => rfl
  | cons j joins ih =>
    have hsum : j.model.crossJoins + crossJoinsIn joins ≤ k := h
    rw [joinsWithSentinels, joinsWithSentinels, List.take_take, List.drop_take,
      ih _ (by omega), Nat.min_eq_left (by omega)]

/-- A tree uses as many numbers as it has joins that no equality relates to earlier sources. -/
theorem withSentinels_take {k : Nat} (h : m.crossJoins ≤ k) :
    m.withSentinels (numbers.take k) = m.withSentinels numbers := by
  rw [crossJoins_eq] at h
  rw [withSentinels_eq, withSentinels_eq, sentinelsOf_take numbers (by omega)]
  simp only [List.drop_take, List.take_take, Nat.min_eq_left (by omega :
    crossJoinsOf m.source ≤ k - (crossPositions m.joins).length),
    joinsWithSentinels_take _ (by omega :
    crossJoinsIn m.joins ≤ k - (crossPositions m.joins).length - crossJoinsOf m.source)]

/-! ### Columns -/

mutual

theorem shownColumns_withSentinels : ∀ (m : Model) (numbers : List Nat),
    (m.withSentinels numbers).shownColumns = m.shownColumns
  | { projection := none, source, joins, .. }, _ => by
    simp only [withSentinels, shownColumns, ownColumnsOf_withSentinels source,
      joinedColumns_withSentinels joins]
  | { projection := some p, source := .nested body, .. }, _ => by
    simp only [withSentinels, sourceWithSentinels, shownColumns, projection_withSentinels,
      shownColumns_withSentinels body, sources_withSentinels body]
  | { projection := some p, source := .table name table, givenName, joins, .. }, _ => by
    simp only [withSentinels, sourceWithSentinels, shownColumns, joinedSources_withSentinels joins]

theorem ownColumnsOf_withSentinels : ∀ (source : RowSource Model) (numbers : List Nat),
    ownColumnsOf (sourceWithSentinels source numbers) = ownColumnsOf source
  | .table .., _ => rfl
  | .nested inner, _ => by
    simp only [sourceWithSentinels, ownColumnsOf, shownColumns_withSentinels inner]

theorem joinedColumns_withSentinels : ∀ (joins : List (JoinClause Model)) (numbers : List Nat),
    joinedColumns (joinsWithSentinels joins numbers) = joinedColumns joins
  | [], _ => rfl
  | { model, .. } :: joins, _ => by
    simp only [joinsWithSentinels, joinedColumns, shownColumns_withSentinels model,
      joinedColumns_withSentinels joins]

theorem sources_withSentinels : ∀ (m : Model) (numbers : List Nat),
    (m.withSentinels numbers).sources = m.sources
  | { source := .table name table, givenName, joins, .. }, _ => by
    simp only [withSentinels, sourceWithSentinels, sources, joinedSources_withSentinels joins]
  | { source := .nested inner, givenName, joins, .. }, _ => by
    simp only [withSentinels, sourceWithSentinels, sources, shownColumns_withSentinels inner,
      joinedSources_withSentinels joins]

theorem joinedSources_withSentinels : ∀ (joins : List (JoinClause Model)) (numbers : List Nat),
    joinedSources (joinsWithSentinels joins numbers) = joinedSources joins
  | [], _ => rfl
  | { model := { source := .table name table, givenName, .. }, .. } :: joins, _ => by
    simp only [joinsWithSentinels, withSentinels, sourceWithSentinels, joinedSources,
      joinedSources_withSentinels joins]
  | { model := { source := .nested inner, givenName, .. }, .. } :: joins, _ => by
    simp only [joinsWithSentinels, withSentinels, sourceWithSentinels, joinedSources,
      shownColumns_withSentinels inner, joinedSources_withSentinels joins]

end

@[simp] theorem ownColumns_withSentinels : (m.withSentinels numbers).ownColumns = m.ownColumns := by
  simp [ownColumns, ownColumnsOf_withSentinels]

/-! ### Operations that do not look at constant filters -/

/-- What is done to a model keeps its joins, and may be done before sentinels are given or after. -/
structure Unmarked (f : Model → Model) : Prop where
  crossJoins : ∀ m, (f m).crossJoins = m.crossJoins
  commutes : ∀ m numbers, f (m.withSentinels numbers) = (f m).withSentinels numbers

namespace Unmarked

variable {f g : Model → Model}

theorem id : Unmarked fun m => m :=
  ⟨fun _ => rfl, fun _ _ => rfl⟩

theorem comp (hg : Unmarked g) (hf : Unmarked f) : Unmarked fun m => g (f m) where
  crossJoins m := (hg.crossJoins (f m)).trans (hf.crossJoins m)
  commutes m numbers := by rw [hf.commutes, hg.commutes]

/-- Fields that neither hold models nor the constant filter. -/
theorem update (hf : ∀ m source joins constFilter,
    f { m with source, joins, constFilter } = { f m with source, joins, constFilter }) :
    Unmarked f := by
  have hself : ∀ m : Model, f m = { f m with
      source := m.source, joins := m.joins, constFilter := m.constFilter } := by
    intro m
    have hsame := hf m m.source m.joins m.constFilter
    cases m
    exact hsame
  constructor
  · intro m
    rw [hself, crossJoins_eq, crossJoins_eq]
  · intro m numbers
    rw [withSentinels_eq, hf, hself m, withSentinels_eq]

theorem foldl {α : Type} {f : Model → α → Model} (hf : ∀ a, Unmarked (f · a)) (as : List α) :
    Unmarked fun m => as.foldl f m := by
  induction as with
  | nil => exact id
  | cons a as ih => exact ih.comp (hf a)

theorem withName (name : Option String) : Unmarked fun m => { m with givenName := name } :=
  .update fun _ _ _ _ => rfl

theorem withTimestamp (timestamp : Option Expr) :
    Unmarked fun m => { m with timestamp := timestamp } :=
  .update fun _ _ _ _ => rfl

theorem withFilter (conjunct : Expr) : Unmarked (Model.withFilter · conjunct) :=
  .update fun _ _ _ _ => rfl

end Unmarked

/-! ### Filters that move -/

section Filters

variable {m numbers}

theorem crossJoins_withSource {inner inner' : Model} (hs : m.source = .nested inner)
    (h : inner'.crossJoins = inner.crossJoins) :
    { m with source := .nested inner' }.crossJoins = m.crossJoins := by
  simp only [crossJoins_eq m, crossJoins_eq { m with source := .nested inner' }, hs, crossJoinsOf, h]

theorem withSentinels_withSource (numbers : List Nat) {inner : Model} (inner' : Model)
    (hs : m.source = .nested inner) (h : inner'.crossJoins = inner.crossJoins) :
    { m with source := .nested inner' }.withSentinels numbers =
      { m.withSentinels numbers with source := .nested (inner'.withSentinels
          ((numbers.drop ((crossPositions m.joins).length)).take inner.crossJoins)) } := by
  simp only [withSentinels_eq m, withSentinels_eq { m with source := .nested inner' }, hs,
    crossJoinsOf, h, sourceWithSentinels]

theorem keepsFiltersOut_withSentinels :
    (m.withSentinels numbers).keepsFiltersOut = m.keepsFiltersOut := by
  cases m
  rfl

theorem combinesRows_withSentinels : (m.withSentinels numbers).combinesRows = m.combinesRows := by
  simp [combinesRows, keepsFiltersOut_withSentinels, isEmpty_joinsWithSentinels]

/-- Going into the sub-query that a model reads, a filter leaves joins and sentinels alone. -/
structure FiltersUnmarked (m : Model) (condition : Expr) : Prop where
  crossJoins : ∀ m', m.pushInto? condition = some m' → m'.crossJoins = m.crossJoins
  commutes : ∀ numbers, (m.withSentinels numbers).pushInto? condition =
    (m.pushInto? condition).map (·.withSentinels numbers)

theorem crossJoins_addFilter_of {condition : Expr}
    (below : ∀ inner, m.source = .nested inner → inner.FiltersUnmarked condition) :
    (m.addFilter condition).crossJoins = m.crossJoins := by
  unfold addFilter
  split
  · exact (Unmarked.withFilter condition).crossJoins m
  · next inner hs =>
    split
    · next inner' hpush => exact crossJoins_withSource hs ((below inner hs).crossJoins inner' hpush)
    · exact (Unmarked.withFilter condition).crossJoins m

theorem addFilter_withSentinels_of {condition : Expr}
    (below : ∀ inner, m.source = .nested inner → inner.FiltersUnmarked condition) :
    (m.withSentinels numbers).addFilter condition =
      (m.addFilter condition).withSentinels numbers := by
  have hhere := (Unmarked.withFilter condition).commutes m numbers
  unfold addFilter
  rw [source_withSentinels]
  cases hs : m.source with
  | table name table => exact hhere
  | nested inner =>
    simp only [sourceWithSentinels, (below inner hs).commutes]
    cases hpush : inner.pushInto? condition with
    | none => exact hhere
    | some inner' =>
      exact (withSentinels_withSource numbers inner' hs ((below inner hs).crossJoins inner' hpush)).symm

/-- A filter leaves a projection for the row source below as it does without sentinels. -/
theorem pushInto?_withSentinels_of_projection {p : Projection} {condition : Expr}
    (hp : m.projection = some p)
    (below : ∀ body, m.source = .nested body → ∀ moved, body.FiltersUnmarked moved) :
    (m.withSentinels numbers).pushInto? condition =
      (m.pushInto? condition).map (·.withSentinels numbers) := by
  have hkeeps : (m.withSentinels numbers).keepsFiltersOut = m.keepsFiltersOut :=
    keepsFiltersOut_withSentinels
  cases hs : m.source with
  | table name table =>
    obtain ⟨projection, source, _, _, _, _, _, _, _, _, _⟩ := m
    obtain rfl : projection = some p := hp
    obtain rfl : source = .table name table := hs
    rfl
  | nested body =>
    have hbody := below body hs
    have hsource := fun body' => withSentinels_withSource numbers body' hs
    obtain ⟨projection, source, _, _, _, _, _, _, _, _, _⟩ := m
    obtain rfl : projection = some p := hp
    obtain rfl : source = .nested body := hs
    simp only [withSentinels, sourceWithSentinels, pushInto?] at hkeeps hsource ⊢
    rw [hkeeps]
    split
    · rfl
    cases p.through? condition with
    | none => rfl
    | some moved =>
      simp only [(hbody moved).commutes]
      cases hpush : body.pushInto? moved with
      | none => rfl
      | some body' => exact congrArg some (hsource body' ((hbody moved).crossJoins body' hpush)).symm

/-- **A filter goes the same way with sentinels.** -/
theorem filtersUnmarked (m : Model) (condition : Expr) : m.FiltersUnmarked condition := by
  induction m using nestedInduct generalizing condition with
  | step m ih =>
    cases hp : m.projection with
    | none =>
      have below : ∀ inner, m.source = .nested inner → inner.FiltersUnmarked (unqualified condition) :=
        fun inner hs => ih inner hs _
      constructor
      · intro m' hpush
        rw [pushInto?_source hp] at hpush
        split at hpush
        · cases hpush
        · cases hpush
          exact crossJoins_addFilter_of below
      · intro numbers
        rw [pushInto?_source hp, pushInto?_source ((projection_withSentinels m numbers).trans hp),
          combinesRows_withSentinels, addFilter_withSentinels_of below]
        split <;> rfl
    | some p =>
      constructor
      · intro m' hpush
        obtain ⟨-, body, moved, body', hs, -, hbody, rfl⟩ := pushInto?_projection hp hpush
        exact crossJoins_withSource hs ((ih body hs moved).crossJoins body' hbody)
      · intro numbers
        exact pushInto?_withSentinels_of_projection hp fun body hs moved => ih body hs moved

end Filters

theorem Unmarked.addFilter (condition : Expr) : Unmarked (Model.addFilter · condition) where
  crossJoins _ := crossJoins_addFilter_of fun inner _ => inner.filtersUnmarked condition
  commutes _ _ := addFilter_withSentinels_of fun inner _ => inner.filtersUnmarked condition

theorem Unmarked.addFilters (conditions : List Expr) : Unmarked (Model.addFilters · conditions) :=
  .foldl .addFilter conditions

/-! ### Joined models -/

/-- What is done to joined models. -/
theorem crossJoinsIn_map {f : JoinClause Model → Model → Model} (hf : ∀ j, Unmarked (f j))
    (joins : List (JoinClause Model)) :
    crossJoinsIn (joins.map fun j => { j with model := f j j.model }) = crossJoinsIn joins := by
  induction joins with
  | nil => rfl
  | cons j joins ih => simp only [List.map_cons, crossJoinsIn, (hf j).crossJoins, ih]

theorem crossPositions_map_model (f : JoinClause Model → Model) (joins : List (JoinClause Model)) :
    crossPositions (joins.map fun j => { j with model := f j }) = crossPositions joins := by
  simp only [crossPositions, List.filter_map, List.map_map]
  rfl

theorem joinsWithSentinels_map {f : JoinClause Model → Model → Model} (hf : ∀ j, Unmarked (f j))
    (hmodel : ∀ j model, f { j with model := model } = f j) (joins : List (JoinClause Model))
    (numbers : List Nat) :
    joinsWithSentinels (joins.map fun j => { j with model := f j j.model }) numbers =
      (joinsWithSentinels joins numbers).map fun j => { j with model := f j j.model } := by
  induction joins generalizing numbers with
  | nil => rfl
  | cons j joins ih =>
    simp only [List.map_cons, joinsWithSentinels, (hf j).crossJoins, ih, hmodel, (hf j).commutes]

/-! ### Timestamps -/

theorem Unmarked.fillTimestamp : Unmarked Clause.fillTimestamp where
  crossJoins m := by
    unfold Clause.fillTimestamp
    split
    · rfl
    · exact (withTimestamp _).crossJoins m
  commutes m numbers := by
    unfold Clause.fillTimestamp
    rw [timestamp_withSentinels, timestampOfTable?_withSentinels]
    split
    · rfl
    · exact (withTimestamp _).commutes m numbers

/-- The timestamp of a joined model is filled in if it is joined by time. -/
def fillJoined (j : JoinClause Model) : Model → Model :=
  if Clause.joinsByTime j then Clause.fillTimestamp else fun m => m

theorem Unmarked.fillJoined (j : JoinClause Model) : Unmarked (fillJoined j) := by
  unfold Model.fillJoined
  split
  · exact fillTimestamp
  · exact id

theorem fillTimestamps_eq (m : Model) :
    Clause.fillTimestamps m = if m.joins.any Clause.joinsByTime then
      { Clause.fillTimestamp m with
        joins := m.joins.map fun j => { j with model := fillJoined j j.model } } else m := by
  have hjoined : ∀ j : JoinClause Model,
      (if Clause.joinsByTime j then { j with model := Clause.fillTimestamp j.model } else j) =
        { j with model := fillJoined j j.model } := by
    intro j
    unfold fillJoined
    split <;> rfl
  simp only [Clause.fillTimestamps, hjoined]

theorem Unmarked.fillTimestamps : Unmarked Clause.fillTimestamps where
  crossJoins m := by
    have hsource : (Clause.fillTimestamp m).source = m.source := by
      unfold Clause.fillTimestamp
      split <;> rfl
    rw [fillTimestamps_eq]
    split
    · simp only [crossJoins_eq, crossPositions_map_model, crossJoinsIn_map Unmarked.fillJoined, hsource]
    · rfl
  commutes m numbers := by
    have hfields : ∃ timestamp, Clause.fillTimestamp m = { m with timestamp := timestamp } := by
      unfold Clause.fillTimestamp
      split
      · cases m
        exact ⟨_, rfl⟩
      · exact ⟨_, rfl⟩
    rw [fillTimestamps_eq, fillTimestamps_eq, joins_withSentinels,
      any_joinsWithSentinels _ _ fun _ _ => rfl]
    split
    · rw [fillTimestamp.commutes m numbers]
      obtain ⟨timestamp, heq⟩ := hfields
      have hjoins := joinsWithSentinels_map Unmarked.fillJoined (fun _ _ => rfl) m.joins
      simp only [heq, withSentinels_eq, hjoins, sentinelsOf, crossPositions_map_model]
    · rfl

/-! ### Layers -/

theorem crossJoins_nested (m : Model) : (nested m).crossJoins = m.crossJoins :=
  (Nat.zero_add _).trans (Nat.add_zero _)

theorem withSentinels_nested (m : Model) (numbers : List Nat) :
    (nested m).withSentinels numbers = nested (m.withSentinels numbers) := by
  have htake := m.withSentinels_take numbers (Nat.le_refl m.crossJoins)
  have hnested : (nested m).withSentinels numbers =
      nested (m.withSentinels (numbers.take m.crossJoins)) := rfl
  rw [hnested, htake]

theorem Unmarked.select (p : Projection) : Unmarked (Model.select p) where
  crossJoins := crossJoins_nested
  commutes m numbers := by
    have hproject : Unmarked fun m => { m with projection := some p } := .update fun _ _ _ _ => rfl
    rw [Model.select, ← withSentinels_nested]
    exact hproject.commutes (nested m) numbers

theorem Unmarked.stack (p : Option Projection) : Unmarked (Layers.stack p) := by
  cases p with
  | none => exact id
  | some p => exact select p

theorem Unmarked.onto (l : Layers) : Unmarked l.onto := by
  have hmain : Unmarked fun m => { m with timestamp := l.timestamp, sampleBy := l.sampleBy } :=
    .update fun _ _ _ _ => rfl
  have htop : Unmarked fun m => { m with orderBy := l.orderBy, limit := l.limit } :=
    .update fun _ _ _ _ => rfl
  have hsorted : Unmarked l.sorted :=
    htop.comp ((stack l.outer).comp (hmain.comp ((select l.main).comp ((stack _).comp (stack _)))))
  have hwhole : l.onto = fun m => if l.wrap then .select l.visible (l.sorted m) else l.sorted m :=
    funext l.onto_eq
  rw [hwhole]
  cases l.wrap with
  | true => exact (select l.visible).comp hsorted
  | false => exact hsorted

theorem pendingSampleBy?_withSentinels (m : Model) (numbers : List Nat) :
    Clause.pendingSampleBy? (m.withSentinels numbers) = Clause.pendingSampleBy? m := by
  induction m using nestedInduct generalizing numbers with
  | step m ih =>
    obtain ⟨projection, source, givenName, timestamp, latestBy, joins, filter, constFilter,
      sampleBy, orderBy, limit⟩ := m
    cases projection with
    | some p => rfl
    | none =>
      cases sampleBy with
      | some interval => rfl
      | none =>
        cases source with
        | table name table => rfl
        | nested inner => exact ih inner rfl _

/-! ### Orders -/

theorem crossPositions_eliminateInJoins (joins : List (JoinClause Model)) (orderedAbove : Bool) :
    crossPositions (eliminateInJoins orderedAbove joins) = crossPositions joins := by
  induction joins with
  | nil => rfl
  | cons j joins ih =>
    simp only [crossPositions] at ih ⊢
    rw [eliminateInJoins, List.filter_cons, List.filter_cons]
    split
    · exact congrArg (j.position :: ·) ih
    · exact ih

theorem Unmarked.dropOrder (orderedAbove : Bool) : Unmarked (Model.dropOrder · orderedAbove) := by
  have hdrop : Unmarked fun m => { m with orderBy := [] } := .update fun _ _ _ _ => rfl
  constructor
  · intro m
    unfold Model.dropOrder
    split
    · exact hdrop.crossJoins m
    · rfl
  · intro m numbers
    have hlimit : (orderedAbove && (m.withSentinels numbers).limit.isNone) =
        (orderedAbove && m.limit.isNone) := by
      cases m
      rfl
    unfold Model.dropOrder
    rw [hlimit]
    split
    · exact hdrop.commutes m numbers
    · rfl

theorem ordersBelow_withSentinels (m : Model) (numbers : List Nat) (orderedAbove : Bool) :
    (m.withSentinels numbers).ordersBelow orderedAbove = m.ordersBelow orderedAbove := by
  cases m
  rfl

theorem hasTimeJoin_withSentinels (m : Model) (numbers : List Nat) :
    (m.withSentinels numbers).hasTimeJoin = m.hasTimeJoin := by
  rw [hasTimeJoin, joins_withSentinels, any_joinsWithSentinels _ _ fun _ _ => rfl, hasTimeJoin]

mutual

theorem crossJoins_eliminateOrders (orderedAbove : Bool) : ∀ m : Model,
    (m.eliminateOrders orderedAbove).crossJoins = m.crossJoins
  | ⟨projection, source, givenName, timestamp, latestBy, joins, filter, constFilter, sampleBy,
      orderBy, limit⟩ => by
    simp only [eliminateOrders, crossJoins, crossJoinsOf_eliminateInSource _ source,
      crossJoinsIn_eliminateInJoins _ joins, crossPositions_eliminateInJoins]

theorem crossJoinsOf_eliminateInSource (orderedAbove : Bool) : ∀ source : RowSource Model,
    crossJoinsOf (eliminateInSource orderedAbove source) = crossJoinsOf source
  | .table .. => rfl
  | .nested inner => crossJoins_eliminateOrders orderedAbove inner

theorem crossJoinsIn_eliminateInJoins (orderedAbove : Bool) : ∀ joins : List (JoinClause Model),
    crossJoinsIn (eliminateInJoins orderedAbove joins) = crossJoinsIn joins
  | [] => rfl
  | { model, .. } :: joins => by
    simp only [eliminateInJoins, crossJoinsIn, crossJoins_eliminateOrders _ model,
      crossJoinsIn_eliminateInJoins orderedAbove joins]

end

mutual

/-- **The same orders are dropped with sentinels.** -/
theorem eliminateOrders_withSentinels (orderedAbove : Bool) : ∀ (m : Model) (numbers : List Nat),
    (m.withSentinels numbers).eliminateOrders orderedAbove =
      (m.eliminateOrders orderedAbove).withSentinels numbers
  | ⟨projection, source, givenName, timestamp, latestBy, joins, filter, constFilter, sampleBy,
      orderBy, limit⟩, numbers => by
    generalize hm : (⟨projection, source, givenName, timestamp, latestBy, joins, filter, constFilter,
      sampleBy, orderBy, limit⟩ : Model) = m
    have hsource : m.source = source := hm ▸ rfl
    have hjoins : m.joins = joins := hm ▸ rfl
    obtain ⟨kept, hkept⟩ : ∃ kept, m.dropOrder orderedAbove = { m with orderBy := kept } := by
      unfold Model.dropOrder
      split
      · exact ⟨_, rfl⟩
      · exact ⟨m.orderBy, by cases m; rfl⟩
    rw [eliminateOrders_eq_dropOrder, eliminateOrders_eq_dropOrder,
      (Unmarked.dropOrder orderedAbove).commutes, ordersBelow_withSentinels, hasTimeJoin_withSentinels,
      hkept]
    simp only [withSentinels_eq, hsource, hjoins, sentinelsOf, crossPositions_eliminateInJoins,
      crossJoinsOf_eliminateInSource, eliminateInSource_withSentinels _ source,
      eliminateInJoins_withSentinels _ joins]

theorem eliminateInSource_withSentinels (orderedAbove : Bool) :
    ∀ (source : RowSource Model) (numbers : List Nat),
      eliminateInSource orderedAbove (sourceWithSentinels source numbers) =
        sourceWithSentinels (eliminateInSource orderedAbove source) numbers
  | .table .., _ => rfl
  | .nested inner, numbers => congrArg _ (eliminateOrders_withSentinels orderedAbove inner numbers)

theorem eliminateInJoins_withSentinels (orderedAbove : Bool) :
    ∀ (joins : List (JoinClause Model)) (numbers : List Nat),
      eliminateInJoins orderedAbove (joinsWithSentinels joins numbers) =
        joinsWithSentinels (eliminateInJoins orderedAbove joins) numbers
  | [], _ => rfl
  | { model, .. } :: joins, numbers => by
    simp only [eliminateInJoins, joinsWithSentinels, crossJoins_eliminateOrders,
      eliminateOrders_withSentinels _ model, eliminateInJoins_withSentinels orderedAbove joins]

end

end Model

end SeriesQuery
