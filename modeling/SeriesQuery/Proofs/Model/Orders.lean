import SeriesQuery.Proofs.Positions.Model
import SeriesQuery.Proofs.Tree

/-!
Which orders are dropped.

Orders are dropped from the root down, and every model is told whether the order of its rows is thrown
away above it. That is handed down from model to model although orders disappear on the way; it can
be read off the tree as it was (`Model.orderedAt_iff`): some model further up makes an order, and the
path from there on passes it on. So a model loses its `order by` exactly if it has no `limit` and is
below such a model, and the tree stays as it is otherwise (`Model.eliminateOrders_reordered`).
-/

namespace SeriesQuery

/-- A step down a tree of models: to the nested source, or to the source joined in the given place. -/
inductive Step where
  | nested
  | joined (index : Nat)
deriving DecidableEq, Repr

namespace Model

/-! ### Paths -/

/-- The model that a step leads to. -/
def child? (m : Model) : Step → Option Model
  | .nested => m.nested?
  | .joined index => m.joins[index]?.map JoinClause.model

/-- The model that a path leads to. -/
def at? (m : Model) : List Step → Option Model
  | [] => some m
  | step :: path => (m.child? step).bind fun child => child.at? path

/-- Whether a step leads to rows that a join looks at in time: to a source that is joined by time, or
to the one that such a source is joined to. -/
def readsInTime (m : Model) : Step → Bool
  | .nested => m.hasTimeJoin
  | .joined index => m.joins[index]?.any fun j => j.kind.matchesByTime

/-- The model does not look at the order of the rows that a step leads to. -/
structure Overlooks (m : Model) (step : Step) : Prop where
  sampleBy : m.sampleBy = none
  isAnalytic : m.isAnalytic = false
  readsInTime : m.readsInTime step = false

/-- No model on the way from `m` to the end of the path looks at the order of the rows there, and none
strictly between the two has a limit. -/
structure Passes (m : Model) (path : List Step) : Prop where
  overlooks : ∀ before step after n, path = before ++ step :: after → m.at? before = some n →
    n.Overlooks step
  limit : ∀ before step after n, path = before ++ step :: after → before ≠ [] →
    m.at? before = some n → n.limit = none

/-- The model makes an order of its own: it sorts its rows, or it groups them other than by time. -/
def MakesOrder (m : Model) : Prop :=
  m.orderBy ≠ [] ∨ m.isGrouped = true ∧ m.sampleBy = none

/-- A model above the end of the path makes an order, which the path from there on passes on. -/
def IsReordered (m : Model) (path : List Step) : Prop :=
  ∃ above below n, path = above ++ below ∧ below ≠ [] ∧ m.at? above = some n ∧ n.MakesOrder ∧
    n.Passes below

section Paths

variable {m child : Model} {step : Step} {path : List Step}

theorem at?_cons (h : m.child? step = some child) (path : List Step) :
    m.at? (step :: path) = child.at? path := by
  rw [at?, h, Option.bind_some]

theorem passes_nil (m : Model) : m.Passes [] :=
  ⟨fun _ _ _ _ h => by simp at h, fun _ _ _ _ h => by simp at h⟩

theorem passes_cons_iff (h : m.child? step = some child) :
    m.Passes (step :: path) ↔
      m.Overlooks step ∧ (path ≠ [] → child.limit = none) ∧ child.Passes path := by
  constructor
  · intro hpasses
    refine ⟨hpasses.overlooks [] step path m rfl rfl, fun hpath => ?_, ?_, ?_⟩
    · obtain ⟨next, rest, rfl⟩ := List.exists_cons_of_ne_nil hpath
      exact hpasses.limit [step] next rest child rfl (List.cons_ne_nil _ _) (at?_cons h [])
    · intro before next after n hsplit hn
      exact hpasses.overlooks (step :: before) next after n (congrArg _ hsplit)
        ((at?_cons h before).trans hn)
    · intro before next after n hsplit _ hn
      exact hpasses.limit (step :: before) next after n (congrArg _ hsplit) (List.cons_ne_nil _ _)
        ((at?_cons h before).trans hn)
  · rintro ⟨hoverlooks, hlimit, hpasses⟩
    constructor
    · intro before next after n hsplit hn
      cases before with
      | nil =>
        obtain ⟨rfl, -⟩ := List.cons.inj hsplit
        cases hn
        exact hoverlooks
      | cons first before =>
        obtain ⟨rfl, htail⟩ := List.cons.inj hsplit
        exact hpasses.overlooks before next after n htail ((at?_cons h before).symm.trans hn)
    · intro before next after n hsplit hbefore hn
      cases before with
      | nil => exact absurd rfl hbefore
      | cons first before =>
        obtain ⟨rfl, htail⟩ := List.cons.inj hsplit
        have hn := (at?_cons h before).symm.trans hn
        cases before with
        | nil =>
          cases hn
          exact hlimit (htail ▸ List.cons_ne_nil _ _)
        | cons second before =>
          exact hpasses.limit (second :: before) next after n htail (List.cons_ne_nil _ _) hn

theorem not_isReordered_nil (m : Model) : ¬ m.IsReordered [] := by
  rintro ⟨above, below, n, hsplit, hbelow, -⟩
  exact hbelow (List.append_eq_nil_iff.mp hsplit.symm).2

theorem isReordered_cons_iff (h : m.child? step = some child) :
    m.IsReordered (step :: path) ↔
      m.MakesOrder ∧ m.Passes (step :: path) ∨ child.IsReordered path := by
  constructor
  · rintro ⟨above, below, n, hsplit, hbelow, hn, horder, hpasses⟩
    cases above with
    | nil =>
      cases hn
      obtain rfl : step :: path = below := hsplit
      exact .inl ⟨horder, hpasses⟩
    | cons first above =>
      obtain ⟨rfl, htail⟩ := List.cons.inj hsplit
      exact .inr ⟨above, below, n, htail, hbelow, (at?_cons h above).symm.trans hn, horder, hpasses⟩
  · rintro (⟨horder, hpasses⟩ | ⟨above, below, n, hsplit, hbelow, hn, horder, hpasses⟩)
    · exact ⟨[], step :: path, m, rfl, List.cons_ne_nil _ _, rfl, horder, hpasses⟩
    · exact ⟨step :: above, below, n, congrArg _ hsplit, hbelow, (at?_cons h above).trans hn, horder,
        hpasses⟩

end Paths

/-! ### What is handed down -/

/-- Dropping the order of a model does not change what it hands down: the order is dropped only if
that of the rows below is thrown away in any case. -/
theorem ordersBelow_dropOrder (m : Model) (orderedAbove : Bool) :
    (m.dropOrder orderedAbove).ordersBelow orderedAbove = m.ordersBelow orderedAbove := by
  unfold dropOrder
  split
  · rename_i h
    obtain ⟨habove, hlimit⟩ := Bool.and_eq_true_iff.mp h
    rw [habove]
    simp [ordersBelow, isAnalytic, Option.isNone_iff_eq_none.mp hlimit]
  · rfl

theorem ordersRows_iff (m : Model) : m.ordersRows = true ↔ m.MakesOrder := by
  simp [ordersRows, MakesOrder]

/-- An order is handed down by a step that overlooks it, if it comes from above or is made here; one
from above does not get past a limit. -/
theorem handsDown_iff (m : Model) (orderedAbove : Bool) (step : Step) :
    (m.ordersBelow orderedAbove && !m.readsInTime step) = true ↔
      m.Overlooks step ∧ (orderedAbove = true ∧ m.limit = none ∨ m.MakesOrder) := by
  have hoverlooks : m.Overlooks step ↔
      m.sampleBy = none ∧ m.isAnalytic = false ∧ m.readsInTime step = false :=
    ⟨fun h => ⟨h.1, h.2, h.3⟩, fun h => ⟨h.1, h.2.1, h.2.2⟩⟩
  rw [hoverlooks, ← ordersRows_iff, ordersBelow]
  cases hsample : m.sampleBy <;> cases hanalytic : m.isAnalytic <;> cases hlimit : m.limit <;>
    cases hreads : m.readsInTime step <;> simp

/-- What the model at the end of a path is told about the order of its rows. -/
def orderedAt (m : Model) (orderedAbove : Bool) : List Step → Bool
  | [] => orderedAbove
  | step :: path =>
    match m.child? step with
    | some child => child.orderedAt (m.ordersBelow orderedAbove && !m.readsInTime step) path
    | none => false

/-- **What is handed down, in terms of the tree.** A model is told that the order of its rows is thrown
away if that is so at the root and passes on, or if a model above it makes an order that does. -/
theorem orderedAt_iff {m n : Model} {path : List Step} (h : m.at? path = some n)
    (orderedAbove : Bool) :
    m.orderedAt orderedAbove path = true ↔
      orderedAbove = true ∧ (path ≠ [] → m.limit = none) ∧ m.Passes path ∨ m.IsReordered path := by
  induction path generalizing m orderedAbove with
  | nil =>
    have hpasses := m.passes_nil
    have hnot := m.not_isReordered_nil
    simp only [orderedAt, ne_eq, not_true_eq_false, false_implies, hpasses, hnot, and_true, or_false]
  | cons step path ih =>
    obtain ⟨child, hchild, hn⟩ := Option.bind_eq_some_iff.mp h
    rw [orderedAt, hchild, isReordered_cons_iff hchild, passes_cons_iff hchild]
    have hstep := m.handsDown_iff orderedAbove step
    have hne : step :: path ≠ [] := List.cons_ne_nil _ _
    rw [ih hn, hstep]
    constructor
    · rintro (⟨⟨hover, ⟨habove, hlimit⟩ | hmakes⟩, hbelow⟩ | hreordered)
      · exact .inl ⟨habove, fun _ => hlimit, hover, hbelow⟩
      · exact .inr (.inl ⟨hmakes, hover, hbelow⟩)
      · exact .inr (.inr hreordered)
    · rintro (⟨habove, hlimit, hover, hbelow⟩ | ⟨hmakes, hover, hbelow⟩ | hreordered)
      · exact .inl ⟨⟨hover, .inl ⟨habove, hlimit hne⟩⟩, hbelow⟩
      · exact .inl ⟨⟨hover, .inr hmakes⟩, hbelow⟩
      · exact .inr hreordered

/-! ### The tree without the orders -/

theorem getElem?_eliminateInJoins (joins : List (JoinClause Model)) (orderedAbove : Bool) (i : Nat) :
    (eliminateInJoins orderedAbove joins)[i]? = joins[i]?.map fun j =>
      { j with model := j.model.eliminateOrders (orderedAbove && !j.kind.matchesByTime) } := by
  induction joins generalizing i with
  | nil => rfl
  | cons j joins ih =>
    cases i with
    | zero => rfl
    | succ i => exact ih i

/-- A step leads to the same model as before, without the orders that it is told to drop. -/
theorem child?_eliminateOrders (m : Model) (orderedAbove : Bool) (step : Step) :
    (m.eliminateOrders orderedAbove).child? step = (m.child? step).map
      (eliminateOrders (m.ordersBelow orderedAbove && !m.readsInTime step)) := by
  rw [eliminateOrders_eq_dropOrder, ordersBelow_dropOrder]
  cases step with
  | nested =>
    cases hsource : m.source with
    | table name table => simp only [child?, nested?, hsource, eliminateInSource, Option.map_none]
    | nested inner =>
      simp only [child?, nested?, hsource, eliminateInSource, Option.map_some, readsInTime]
  | joined i =>
    simp only [child?, getElem?_eliminateInJoins, readsInTime]
    cases m.joins[i]? <;> rfl

/-- A path leads to the same model as before, without the orders that it is told to drop. -/
theorem at?_eliminateOrders (m : Model) (orderedAbove : Bool) (path : List Step) :
    (m.eliminateOrders orderedAbove).at? path =
      (m.at? path).map (eliminateOrders (m.orderedAt orderedAbove path)) := by
  induction path generalizing m orderedAbove with
  | nil => rfl
  | cons step path ih =>
    rw [at?, at?, child?_eliminateOrders, orderedAt]
    cases m.child? step with
    | none => rfl
    | some child => exact ih child _

theorem orderBy_eliminateOrders (m : Model) (orderedAbove : Bool) :
    (m.eliminateOrders orderedAbove).orderBy =
      if orderedAbove = true ∧ m.limit = none then [] else m.orderBy := by
  rw [eliminateOrders_eq_dropOrder, dropOrder]
  cases orderedAbove <;> cases m.limit <;> rfl

mutual

/-- The tree without any order. -/
def withoutOrders : Model → Model
  | m@{ source, joins, .. } =>
    { m with
      orderBy := []
      source := withoutOrdersInSource source
      joins := withoutOrdersInJoins joins }

/-- A source without any order. -/
def withoutOrdersInSource : RowSource Model → RowSource Model
  | .table name table => .table name table
  | .nested inner => .nested inner.withoutOrders

/-- Joined sources without any order. -/
def withoutOrdersInJoins : List (JoinClause Model) → List (JoinClause Model)
  | [] => []
  | j@{ model, .. } :: joins => { j with model := model.withoutOrders } :: withoutOrdersInJoins joins

end

mutual

/-- Only orders are dropped. -/
theorem withoutOrders_eliminateOrders (orderedAbove : Bool) : ∀ m : Model,
    (m.eliminateOrders orderedAbove).withoutOrders = m.withoutOrders
  | ⟨projection, source, givenName, timestamp, latestBy, joins, filter, constFilter, sampleBy,
      orderBy, limit⟩ => by
    rw [eliminateOrders_eq_dropOrder, dropOrder]
    split <;> simp only [withoutOrders, withoutOrdersInSource_eliminateInSource _ source,
      withoutOrdersInJoins_eliminateInJoins _ joins]

theorem withoutOrdersInSource_eliminateInSource (orderedAbove : Bool) : ∀ source : RowSource Model,
    withoutOrdersInSource (eliminateInSource orderedAbove source) = withoutOrdersInSource source
  | .table name table => rfl
  | .nested inner => by
    simp only [eliminateInSource, withoutOrdersInSource,
      withoutOrders_eliminateOrders orderedAbove inner]

theorem withoutOrdersInJoins_eliminateInJoins (orderedAbove : Bool) :
    ∀ joins : List (JoinClause Model),
      withoutOrdersInJoins (eliminateInJoins orderedAbove joins) = withoutOrdersInJoins joins
  | [] => rfl
  | { kind, model, .. } :: joins => by
    simp only [eliminateInJoins, withoutOrdersInJoins, withoutOrders_eliminateOrders _ model,
      withoutOrdersInJoins_eliminateInJoins orderedAbove joins]

end

/-! ### Again -/

theorem hasTimeJoin_eliminateOrders (m : Model) (orderedAbove : Bool) :
    (m.eliminateOrders orderedAbove).hasTimeJoin = m.hasTimeJoin := by
  obtain ⟨orderBy, inSource, inJoins, heq⟩ := m.eliminateOrders_eq orderedAbove
  have hkinds := congrArg (List.any · JoinKind.matchesByTime) (kinds_eliminateInJoins m.joins inJoins)
  rw [List.any_map, List.any_map] at hkinds
  rw [heq]
  exact hkinds

theorem ordersBelow_eliminateOrders (m : Model) (orderedAbove : Bool) :
    (m.eliminateOrders orderedAbove).ordersBelow orderedAbove = m.ordersBelow orderedAbove := by
  rw [eliminateOrders_eq_dropOrder]
  exact m.ordersBelow_dropOrder orderedAbove

theorem dropOrder_eliminateOrders (m : Model) (orderedAbove : Bool) :
    (m.eliminateOrders orderedAbove).dropOrder orderedAbove = m.eliminateOrders orderedAbove := by
  rw [eliminateOrders_eq_dropOrder, dropOrder, dropOrder]
  cases orderedAbove <;> cases hlimit : m.limit <;> simp [hlimit]

/-- A second pass tells the sources of a model what the first one did. -/
theorem eliminateOrders_eliminateOrders (m : Model) (orderedAbove : Bool) :
    (m.eliminateOrders orderedAbove).eliminateOrders orderedAbove =
      { m.eliminateOrders orderedAbove with
        source := eliminateInSource (m.ordersBelow orderedAbove && !m.hasTimeJoin)
          (eliminateInSource (m.ordersBelow orderedAbove && !m.hasTimeJoin) m.source)
        joins := eliminateInJoins (m.ordersBelow orderedAbove)
          (eliminateInJoins (m.ordersBelow orderedAbove) m.joins) } := by
  rw [eliminateOrders_eq_dropOrder (m.eliminateOrders orderedAbove), dropOrder_eliminateOrders,
    ordersBelow_eliminateOrders, hasTimeJoin_eliminateOrders, eliminateOrders_eq_dropOrder m,
    ordersBelow_dropOrder]

mutual

/-- Dropping orders again drops no more. -/
theorem eliminateOrders_twice (orderedAbove : Bool) : ∀ m : Model,
    (m.eliminateOrders orderedAbove).eliminateOrders orderedAbove = m.eliminateOrders orderedAbove
  | ⟨projection, source, givenName, timestamp, latestBy, joins, filter, constFilter, sampleBy,
      orderBy, limit⟩ => by
    rw [eliminateOrders_eliminateOrders, eliminateInSource_twice _ source,
      eliminateInJoins_twice _ joins, eliminateOrders_eq_dropOrder, ordersBelow_dropOrder]

theorem eliminateInSource_twice (orderedAbove : Bool) : ∀ source : RowSource Model,
    eliminateInSource orderedAbove (eliminateInSource orderedAbove source) =
      eliminateInSource orderedAbove source
  | .table name table => rfl
  | .nested inner => by
    simp only [eliminateInSource, eliminateOrders_twice orderedAbove inner]

theorem eliminateInJoins_twice (orderedAbove : Bool) : ∀ joins : List (JoinClause Model),
    eliminateInJoins orderedAbove (eliminateInJoins orderedAbove joins) =
      eliminateInJoins orderedAbove joins
  | [] => rfl
  | { kind, model, .. } :: joins => by
    simp only [eliminateInJoins, eliminateOrders_twice _ model,
      eliminateInJoins_twice orderedAbove joins]

end

/-- **Orders that are thrown away, and only these, are dropped.** A model of the tree loses its
`order by` exactly if it has no limit and a model above it makes an order that passes on to it, all of
it in the tree as it was; nothing else of the tree changes, and a second pass changes nothing. -/
theorem eliminateOrders_reordered (m : Model) :
    (∀ path n, m.at? path = some n →
      ∃ kept, (m.eliminateOrders false).at? path = some kept ∧
        (n.limit = none ∧ m.IsReordered path → kept.orderBy = []) ∧
        (¬ (n.limit = none ∧ m.IsReordered path) → kept.orderBy = n.orderBy)) ∧
      (m.eliminateOrders false).withoutOrders = m.withoutOrders ∧
      (m.eliminateOrders false).eliminateOrders false = m.eliminateOrders false := by
  refine ⟨fun path n hn => ?_, withoutOrders_eliminateOrders false m, eliminateOrders_twice false m⟩
  have hat := m.at?_eliminateOrders false path
  rw [hn, Option.map_some] at hat
  have hreordered : m.orderedAt false path = true ↔ m.IsReordered path := by
    simpa using orderedAt_iff hn false
  refine ⟨_, hat, fun h => ?_, fun h => ?_⟩
  · rw [orderBy_eliminateOrders, if_pos ⟨hreordered.mpr h.2, h.1⟩]
  · rw [orderBy_eliminateOrders, if_neg fun hdropped => h ⟨hdropped.2, hreordered.mp hdropped.1⟩]

/-- Rows of a table by its column `a`. -/
def sortedRows : Model :=
  { ofTable "t" ((Table.empty "t").withColumn "a" .int) with
    orderBy := [⟨.column (.plain "a") 0, false⟩] }

/-- Groups over sorted rows that others are joined to, in time and without regard to it. -/
def groupedJoins : Model :=
  let join (kind : JoinKind) : JoinClause Model := ⟨kind, sortedRows, [], none, .explicit, 0⟩
  select (.groupBy [⟨"a", .column (.plain "a") 0⟩])
    { nested sortedRows with joins := [join .asof, join .inner] }

/-- The groups throw the order of the inner join away; that of the source joined in time stays. -/
theorem eliminateOrders_reordered_groupedJoins :
    groupedJoins.IsReordered [.nested, .joined 1] ∧ ¬ groupedJoins.IsReordered [.nested, .joined 0] ∧
      (∃ kept, (groupedJoins.eliminateOrders false).at? [.nested, .joined 1] = some kept ∧
        kept.orderBy = []) ∧
      ∃ kept, (groupedJoins.eliminateOrders false).at? [.nested, .joined 0] = some kept ∧
        kept.orderBy = sortedRows.orderBy := by
  have hinner : groupedJoins.IsReordered [.nested, .joined 1] := by
    refine (isReordered_cons_iff rfl).mpr (.inl ⟨.inr ⟨rfl, rfl⟩, ?_⟩)
    refine (passes_cons_iff rfl).mpr ⟨⟨rfl, rfl, rfl⟩, fun _ => rfl, ?_⟩
    exact (passes_cons_iff rfl).mpr ⟨⟨rfl, rfl, rfl⟩, fun h => absurd rfl h, passes_nil _⟩
  have hasof : ¬ groupedJoins.IsReordered [.nested, .joined 0] := by
    intro h
    rcases (isReordered_cons_iff rfl).mp h with ⟨-, hpasses⟩ | h
    · have hoverlooks := ((passes_cons_iff rfl).mp ((passes_cons_iff rfl).mp hpasses).2.2).1
      exact absurd hoverlooks.readsInTime (by decide)
    · rcases (isReordered_cons_iff rfl).mp h with ⟨hsorts | ⟨hgroups, -⟩, -⟩ | h
      · exact hsorts rfl
      · cases hgroups
      · exact not_isReordered_nil _ h
  obtain ⟨dropped, hdropped, hnone, -⟩ :=
    (eliminateOrders_reordered groupedJoins).1 [.nested, .joined 1] sortedRows rfl
  obtain ⟨kept, hkept, -, hsame⟩ :=
    (eliminateOrders_reordered groupedJoins).1 [.nested, .joined 0] sortedRows rfl
  exact ⟨hinner, hasof, ⟨dropped, hdropped, hnone ⟨rfl, hinner⟩⟩,
    ⟨kept, hkept, hsame fun h => hasof h.2⟩⟩

end Model

end SeriesQuery
