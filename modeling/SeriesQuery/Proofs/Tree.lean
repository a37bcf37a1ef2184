import SeriesQuery.Model.Order
import SeriesQuery.Proofs.Pushdown

/-!
Properties of a tree of models.

A property asks something of every model by the place where it stands, and the place of what a model
reads follows from its own. As long as it looks at no filter and no order, it stays when filters move
into sub-queries (`Satisfies.addFilters`) and when orders are dropped (`Satisfies.eliminateOrders`).
-/

namespace SeriesQuery

/-- Induction on a tree of models. -/
theorem Model.treeInduct {P : Model → Prop}
    (step : ∀ m, (∀ inner, m.source = .nested inner → P inner) → (∀ j ∈ m.joins, P j.model) → P m) :
    ∀ m, P m :=
  ofModel
where
  ofModel : ∀ m, P m
    | ⟨_, source, _, _, _, joins, _, _, _, _, _⟩ => step _ (ofSource source) (ofJoins joins)
  ofSource : ∀ source : RowSource Model, ∀ inner, source = .nested inner → P inner
    | .table .., _, h => by cases h
    | .nested m, _, h => RowSource.nested.inj h ▸ ofModel m
  ofJoins : ∀ joins : List (JoinClause Model), ∀ j ∈ joins, P j.model
    | [], _, h => by cases h
    | ⟨_, m, _, _, _, _⟩ :: joins, j, h => by
      rcases List.mem_cons.mp h with rfl | h
      · exact ofModel m
      · exact ofJoins joins j h

/-- The models differ in their filters, orders and limits and in what they read. -/
structure Model.Alike (m m' : Model) : Prop where
  projection : m'.projection = m.projection
  timestamp : m'.timestamp = m.timestamp
  sampleBy : m'.sampleBy = m.sampleBy
  timestampOfTable : m'.timestampOfTable? = m.timestampOfTable?
  kinds : m'.joins.map JoinClause.kind = m.joins.map JoinClause.kind

namespace Model.Alike

variable {m m' : Model}

theorem refl (m : Model) : m.Alike m :=
  ⟨rfl, rfl, rfl, rfl, rfl⟩

theorem trans {n : Model} (h : m.Alike m') (h' : m'.Alike n) : m.Alike n where
  projection := h'.projection.trans h.projection
  timestamp := h'.timestamp.trans h.timestamp
  sampleBy := h'.sampleBy.trans h.sampleBy
  timestampOfTable := h'.timestampOfTable.trans h.timestampOfTable
  kinds := h'.kinds.trans h.kinds

theorem addFilter (m : Model) (condition : Expr) : m.Alike (m.addFilter condition) := by
  unfold Model.addFilter
  split
  · exact ⟨rfl, rfl, rfl, rfl, rfl⟩
  · rename_i inner hsource
    split
    · exact ⟨rfl, rfl, rfl, by simp only [timestampOfTable?, hsource], rfl⟩
    · exact ⟨rfl, rfl, rfl, rfl, rfl⟩

theorem addFilters (m : Model) (conditions : List Expr) : m.Alike (m.addFilters conditions) :=
  List.foldlRecOn conditions Model.addFilter (refl m) fun _ h condition _ =>
    h.trans (addFilter _ condition)

theorem withFilters (m : Model) (conditions : List Expr) :
    m.Alike (conditions.foldl Model.withFilter m) :=
  List.foldlRecOn conditions Model.withFilter (refl m) fun _ h _ _ =>
    h.trans ⟨rfl, rfl, rfl, rfl, rfl⟩

end Model.Alike

/-- What is asked of a model in a place, and the places of what it reads. -/
structure TreeProperty (Place : Type) where
  here : Place → Model → Prop
  below : Place → Model → Place
  joined : JoinKind → Place
  /-- Neither looks at filters, orders and limits. -/
  here_alike : ∀ {place : Place} {m m' : Model}, m.Alike m' → here place m → here place m'
  below_alike : ∀ {place : Place} {m m' : Model}, m.Alike m' → below place m' = below place m

namespace Model

variable {Place : Type} {P : TreeProperty Place} {place : Place} {m m' : Model}

/-- Every model of the tree has the property in its place. -/
inductive Satisfies (P : TreeProperty Place) : Place → Model → Prop where
  | intro {place : Place} {m : Model} (here : P.here place m)
      (source : ∀ inner, m.source = .nested inner → Satisfies P (P.below place m) inner)
      (joins : ∀ j ∈ m.joins, Satisfies P (P.joined j.kind) j.model) : Satisfies P place m

theorem satisfies_iff :
    m.Satisfies P place ↔ P.here place m ∧
      (∀ inner, m.source = .nested inner → inner.Satisfies P (P.below place m)) ∧
        ∀ j ∈ m.joins, j.model.Satisfies P (P.joined j.kind) :=
  ⟨fun ⟨here, source, joins⟩ => ⟨here, source, joins⟩, fun ⟨here, source, joins⟩ => ⟨here, source, joins⟩⟩

/-- A model is like another one in its place, over sources that have the property. -/
theorem Satisfies.of_alike (h : m.Satisfies P place) (halike : m.Alike m')
    (source : ∀ inner, m'.source = .nested inner → inner.Satisfies P (P.below place m))
    (joins : ∀ j ∈ m'.joins, j.model.Satisfies P (P.joined j.kind)) : m'.Satisfies P place :=
  ⟨P.here_alike halike (satisfies_iff.mp h).1, by rwa [P.below_alike halike], joins⟩

/-- Filters, orders and limits do not matter. -/
theorem Satisfies.of_eq (h : m.Satisfies P place) (hp : m'.projection = m.projection)
    (hs : m'.source = m.source) (ht : m'.timestamp = m.timestamp) (hj : m'.joins = m.joins)
    (hi : m'.sampleBy = m.sampleBy) : m'.Satisfies P place := by
  obtain ⟨-, hsource, hjoins⟩ := satisfies_iff.mp h
  refine h.of_alike ⟨hp, ht, hi, by simp only [timestampOfTable?, hs], by rw [hj]⟩ ?_ ?_
  · rwa [hs]
  · rwa [hj]

/-- A source may be replaced by one with the property. -/
theorem Satisfies.withSource (h : m.Satisfies P place) {inner next : Model}
    (hs : m.source = .nested inner) (hnext : next.Satisfies P (P.below place m)) :
    { m with source := .nested next }.Satisfies P place := by
  refine h.of_alike ⟨rfl, rfl, rfl, by simp only [timestampOfTable?, hs], rfl⟩ (fun _ hs => ?_)
    (satisfies_iff.mp h).2.2
  exact RowSource.nested.inj hs ▸ hnext

/-! ### Filters that move -/

theorem followsFilters_satisfies :
    FollowsFilters fun m m' => ∀ {place}, m.Satisfies P place → m'.Satisfies P place where
  here _ _ _ h := h.of_eq rfl rfl rfl rfl rfl
  below hs hnext _ h := h.withSource hs (hnext ((satisfies_iff.mp h).2.1 _ hs))

theorem Satisfies.addFilter (h : m.Satisfies P place) (condition : Expr) :
    (m.addFilter condition).Satisfies P place :=
  followsFilters_satisfies.addFilter m condition h

theorem Satisfies.addFilters (h : m.Satisfies P place) (conditions : List Expr) :
    (m.addFilters conditions).Satisfies P place :=
  List.foldlRecOn conditions Model.addFilter h fun _ hm condition _ => hm.addFilter condition

theorem Satisfies.withFilters (h : m.Satisfies P place) (conditions : List Expr) :
    (conditions.foldl Model.withFilter m).Satisfies P place :=
  List.foldlRecOn conditions Model.withFilter h fun _ hm _ _ => hm.of_eq rfl rfl rfl rfl rfl

/-! ### Orders that are dropped -/

theorem eliminateOrders_eq (m : Model) (orderedAbove : Bool) :
    ∃ orderBy inSource inJoins, m.eliminateOrders orderedAbove = { m with
      orderBy := orderBy
      source := eliminateInSource inSource m.source
      joins := eliminateInJoins inJoins m.joins } := by
  obtain ⟨projection, source, givenName, timestamp, latestBy, joins, filter, constFilter, sampleBy,
    orderBy, limit⟩ := m
  rw [eliminateOrders, dropOrder]
  split <;> exact ⟨_, _, _, rfl⟩

theorem nested_of_eliminateInSource {source : RowSource Model} {orderedAbove : Bool} {inner : Model}
    (h : eliminateInSource orderedAbove source = .nested inner) :
    ∃ kept, source = .nested kept ∧ inner = kept.eliminateOrders orderedAbove := by
  cases source with
  | table name table => cases h
  | nested kept => exact ⟨kept, rfl, (RowSource.nested.inj h).symm⟩

theorem mem_eliminateInJoins {joins : List (JoinClause Model)} {orderedAbove : Bool}
    {j : JoinClause Model} (h : j ∈ eliminateInJoins orderedAbove joins) :
    ∃ kept ∈ joins, ∃ above, j = { kept with model := kept.model.eliminateOrders above } := by
  induction joins with
  | nil => cases h
  | cons first joins ih =>
    rcases List.mem_cons.mp h with rfl | h
    · exact ⟨first, List.mem_cons_self, _, rfl⟩
    · obtain ⟨kept, hkept, hj⟩ := ih h
      exact ⟨kept, List.mem_cons_of_mem _ hkept, hj⟩

theorem kinds_eliminateInJoins (joins : List (JoinClause Model)) (orderedAbove : Bool) :
    (eliminateInJoins orderedAbove joins).map JoinClause.kind = joins.map JoinClause.kind := by
  induction joins with
  | nil => rfl
  | cons j joins ih => exact congrArg (j.kind :: ·) ih

theorem alike_eliminateOrders (m : Model) (orderedAbove : Bool) :
    m.Alike (m.eliminateOrders orderedAbove) := by
  obtain ⟨orderBy, inSource, inJoins, heq⟩ := m.eliminateOrders_eq orderedAbove
  rw [heq]
  refine ⟨rfl, rfl, rfl, ?_, kinds_eliminateInJoins _ _⟩
  cases hs : m.source with
  | table name table => simp only [timestampOfTable?, hs, eliminateInSource]
  | nested inner => simp only [timestampOfTable?, hs, eliminateInSource]

theorem Satisfies.eliminateOrders (h : m.Satisfies P place) (orderedAbove : Bool) :
    (m.eliminateOrders orderedAbove).Satisfies P place := by
  induction h generalizing orderedAbove with
  | @intro place m here source joins ihSource ihJoins =>
    have halike := m.alike_eliminateOrders orderedAbove
    obtain ⟨orderBy, inSource, inJoins, heq⟩ := m.eliminateOrders_eq orderedAbove
    refine Satisfies.of_alike ⟨here, source, joins⟩ halike ?_ ?_
    · intro inner hinner
      rw [heq] at hinner
      obtain ⟨kept, hkept, rfl⟩ := nested_of_eliminateInSource hinner
      exact ihSource kept hkept inSource
    · intro j hj
      rw [heq] at hj
      obtain ⟨kept, hkept, above, rfl⟩ := mem_eliminateInJoins hj
      exact ihJoins kept hkept above

end Model

end SeriesQuery
