import SeriesQuery.Proofs.Levels
import SeriesQuery.Proofs.Select.OrderBy
import SeriesQuery.Proofs.Tree

/-!
Intervals that are left to an enclosing level.

A `sample by` without a select list stays on its row source until a level above aggregates. What
stands above a model is the list of its readers, from the nearest one up (`Model.nodes`); seen
from the root down, they leave room for so many layers of a grouped select list
(`Reader.below`). A compiled level keeps every interval in a place that has room for it
(`Compile.sampled_levels`), so the nearest select list above aggregates
(`compile_sampleBy_aggregated`); what is read by a join is not looked at
(`sampleBy_not_under_groups`).
-/

namespace SeriesQuery

/-! ### The nodes of a model -/

/-- A model that reads another one: its projection, and whether the other one is joined to it. -/
structure Reader where
  projection : Option Projection
  joined : Bool
deriving BEq, Repr

namespace Model

mutual

/-- The nodes of a model with their readers, the nearest one first. -/
def nodes : Model → List (Model × List Reader)
  | m@{ projection, source, joins, .. } =>
    (m, []) :: (nodesOfSource projection source ++ nodesOfJoins projection joins)

/-- The nodes of the model that a projection reads its rows from. -/
def nodesOfSource (projection : Option Projection) :
    RowSource Model → List (Model × List Reader)
  | .table .. => []
  | .nested inner => inner.nodes.map fun node => (node.1, node.2 ++ [⟨projection, false⟩])

/-- The nodes of joined models. -/
def nodesOfJoins (projection : Option Projection) :
    List (JoinClause Model) → List (Model × List Reader)
  | [] => []
  | { model, .. } :: joins =>
    model.nodes.map (fun node => (node.1, node.2 ++ [⟨projection, true⟩])) ++
      nodesOfJoins projection joins

end

theorem mem_nodesOfJoins {projection : Option Projection} {joins : List (JoinClause Model)}
    {node : Model × List Reader} :
    node ∈ nodesOfJoins projection joins ↔ ∃ j ∈ joins, ∃ inner ∈ j.model.nodes,
      (inner.1, inner.2 ++ [⟨projection, true⟩]) = node := by
  induction joins with
  | nil => simp [nodesOfJoins]
  | cons j joins ih => simp [nodesOfJoins, ih]

/-- The nodes of a model are the model itself and those of what it reads. -/
theorem mem_nodes {m : Model} {node : Model × List Reader} :
    node ∈ m.nodes ↔ node = (m, []) ∨
      (∃ source, m.source = .nested source ∧ ∃ inner ∈ source.nodes,
        (inner.1, inner.2 ++ [⟨m.projection, false⟩]) = node) ∨
      ∃ j ∈ m.joins, ∃ inner ∈ j.model.nodes,
        (inner.1, inner.2 ++ [⟨m.projection, true⟩]) = node := by
  obtain ⟨projection, source, _, _, _, joins, _, _, _, _, _⟩ := m
  rw [nodes, List.mem_cons, List.mem_append, mem_nodesOfJoins]
  cases source with
  | table name table => simp [nodesOfSource]
  | nested source => simp [nodesOfSource]

end Model

/-! ### Room for an interval -/

namespace Reader

/-- How many layers of a grouped select list, the row source included, may come below a reader
that has itself room for `above`: three below the groups, namely columns computed for them, columns
renamed for these, and row sources. Nothing is said below a joined source. -/
def below (r : Reader) (above : Nat) : Nat :=
  if r.joined then 1
  else match r.projection with
    | none => min above 1
    | some (.choose _) => if 2 ≤ above then 1 else 0
    | some (.virtual _) => if 3 ≤ above then 2 else 0
    | some (.groupBy _) => 3
    | some (.analytic _) => 0

theorem below_mono (r : Reader) {a b : Nat} (h : a ≤ b) : r.below a ≤ r.below b := by
  unfold below
  split
  · exact Nat.le_refl 1
  · split <;> (try split) <;> (try split) <;> omega

end Reader

namespace Model

/-- Every interval in the model is that of a group or stands on a row source with room for it,
when there is room for `above` layers where the model stands. -/
def Sampled (above : Nat) (m : Model) : Prop :=
  ∀ node ∈ m.nodes, node.1.sampleBy.isSome = true →
    node.1.isGrouped = true ∨
      node.1.projection = none ∧ 0 < node.2.foldr Reader.below above

theorem sampled_iff {above : Nat} {m : Model} :
    m.Sampled above ↔
      (m.sampleBy.isSome = true → m.isGrouped = true ∨ m.projection = none ∧ 0 < above) ∧
        (∀ inner, m.source = .nested inner →
          inner.Sampled (Reader.below ⟨m.projection, false⟩ above)) ∧
        ∀ j ∈ m.joins, j.model.Sampled 1 := by
  have hjoined : Reader.below ⟨m.projection, true⟩ above = 1 := rfl
  constructor
  · intro h
    refine ⟨h (m, []) (mem_nodes.mpr (.inl rfl)), fun inner hsource node hnode => ?_,
      fun j hj node hnode => ?_⟩
    · have hbelow := h (node.1, node.2 ++ [⟨m.projection, false⟩])
        (mem_nodes.mpr (.inr (.inl ⟨inner, hsource, node, hnode, rfl⟩)))
      simpa using hbelow
    · have hbelow := h (node.1, node.2 ++ [⟨m.projection, true⟩])
        (mem_nodes.mpr (.inr (.inr ⟨j, hj, node, hnode, rfl⟩)))
      simpa [hjoined] using hbelow
  · rintro ⟨hhere, hsource, hjoins⟩ node hnode
    rcases mem_nodes.mp hnode with rfl | ⟨source, heq, inner, hinner, rfl⟩ | ⟨j, hj, inner, hinner, rfl⟩
    · exact hhere
    · simpa using hsource source heq inner hinner
    · simpa [hjoined] using hjoins j hj inner hinner

theorem Sampled.mono {a b : Nat} {m : Model} (h : m.Sampled a) (hab : a ≤ b) : m.Sampled b := by
  intro node hnode hinterval
  refine (h node hnode hinterval).imp id fun ⟨hp, hroom⟩ => ⟨hp, Nat.lt_of_lt_of_le hroom ?_⟩
  induction node.2 with
  | nil => exact hab
  | cons r readers ih => exact r.below_mono ih

/-- Clauses other than the interval do not matter. -/
theorem Sampled.of_eq {above : Nat} {m m' : Model} (h : m.Sampled above)
    (hp : m'.projection = m.projection) (hs : m'.source = m.source) (hj : m'.joins = m.joins)
    (hi : m'.sampleBy = m.sampleBy) : m'.Sampled above := by
  rw [sampled_iff] at h ⊢
  rwa [isGrouped, hp, hs, hj, hi]

theorem sampled_ofTable (name : String) (table : Table) : (Model.ofTable name table).Sampled 1 := by
  refine sampled_iff.2 ⟨fun h => (Bool.false_ne_true h).elim, fun inner hs => ?_,
    fun _ hj => (List.not_mem_nil hj).elim⟩
  cases hs

/-- Without an interval of its own a row source hands on the room that it has. -/
theorem sampled_nested {above : Nat} {m : Model} (h : m.Sampled (min above 1)) :
    (Model.nested m).Sampled above :=
  sampled_iff.2 ⟨fun h => (Bool.false_ne_true h).elim, fun _ hs => RowSource.nested.inj hs ▸ h,
    fun _ hj => (List.not_mem_nil hj).elim⟩

theorem sampled_select {above : Nat} {p : Projection} {m : Model}
    (h : m.Sampled (Reader.below ⟨some p, false⟩ above)) : (Model.select p m).Sampled above :=
  sampled_iff.2 ⟨fun h => (Bool.false_ne_true h).elim, fun _ hs => RowSource.nested.inj hs ▸ h,
    fun _ hj => (List.not_mem_nil hj).elim⟩

/-- An interval needs room in its place. -/
def sampledProperty : TreeProperty Nat where
  here above m :=
    m.sampleBy.isSome = true → m.isGrouped = true ∨ m.projection = none ∧ 0 < above
  below above m := Reader.below ⟨m.projection, false⟩ above
  joined _ := 1
  here_alike h := by simp only [isGrouped, h.projection, h.sampleBy, imp_self]
  below_alike h := by rw [h.projection]

theorem sampled_iff_satisfies {above : Nat} {m : Model} :
    m.Sampled above ↔ m.Satisfies sampledProperty above := by
  induction m using treeInduct generalizing above with
  | step m ihSource ihJoins =>
    rw [sampled_iff, satisfies_iff]
    refine and_congr Iff.rfl (and_congr ?_ ?_)
    · exact forall₂_congr fun inner hinner => ihSource inner hinner
    · exact forall₂_congr fun j hj => ihJoins j hj

theorem Sampled.addFilters {above : Nat} {m : Model} (h : m.Sampled above)
    (conditions : List Expr) : (m.addFilters conditions).Sampled above :=
  sampled_iff_satisfies.mpr ((sampled_iff_satisfies.mp h).addFilters conditions)

theorem Sampled.withFilters {above : Nat} {m : Model} (h : m.Sampled above)
    (conditions : List Expr) : (conditions.foldl Model.withFilter m).Sampled above :=
  sampled_iff_satisfies.mpr ((sampled_iff_satisfies.mp h).withFilters conditions)

theorem Sampled.eliminateOrders {above : Nat} {m : Model} (h : m.Sampled above)
    (orderedAbove : Bool) : (m.eliminateOrders orderedAbove).Sampled above :=
  sampled_iff_satisfies.mpr ((sampled_iff_satisfies.mp h).eliminateOrders orderedAbove)

/-! ### Intervals that wait -/

/-- A row source of which no interval waits needs no room. -/
theorem Sampled.of_pending {m : Model} (h : m.Sampled 1) (hp : m.projection = none)
    (hpending : Clause.pendingSampleBy? m = none) : m.Sampled 0 := by
  induction m using nestedInduct with
  | step m ih =>
    obtain ⟨projection, source, givenName, timestamp, latestBy, joins, filter, constFilter, sampleBy,
      orderBy, limit⟩ := m
    obtain rfl : projection = none := hp
    obtain ⟨-, hsource, hjoins⟩ := sampled_iff.1 h
    cases sampleBy with
    | some interval => cases source <;> cases hpending
    | none =>
      refine sampled_iff.2 ⟨by simp, fun inner hs => ?_, hjoins⟩
      have hinner : inner.Sampled 1 := hsource inner hs
      obtain rfl : source = .nested inner := hs
      cases hprojection : inner.projection with
      | none => exact ih inner rfl hinner hprojection hpending
      | some p =>
        -- a projection leaves no more room below it for that above
        obtain ⟨hown, hbelow, hjoined⟩ := sampled_iff.1 hinner
        refine sampled_iff.2 ⟨fun hi => .inl ?_, fun next hnext => ?_, hjoined⟩
        · exact (hown hi).resolve_right fun hnone => by simp [hprojection] at hnone
        · have hroom : Reader.below ⟨inner.projection, false⟩ 1 =
              Reader.below ⟨inner.projection, false⟩ 0 := by
            rw [hprojection]
            cases p <;> rfl
          exact hroom ▸ hbelow next hnext

end Model

/-! ### Layers over a row source -/

namespace Layers

open Model

variable {l : Layers} {body : Model}

theorem sampled_stack {m : Model} (h : m.Sampled 0) (p : Option Projection) :
    (stack p m).Sampled 0 := by
  cases p with
  | none => exact h
  | some p => exact sampled_select (h.mono (Nat.zero_le _))

/-- The two layers below the groups take up their room. -/
theorem sampled_below_groups (h : body.Sampled 1) (naming inner : Option Layer) :
    (stack (inner.map fun layer => .virtual layer.columns)
      (stack (naming.map fun layer => .choose layer.columns) body)).Sampled 3 := by
  have hnamed : (stack (naming.map fun layer => .choose layer.columns) body).Sampled 2 := by
    cases naming with
    | none => exact h.mono (by decide)
    | some layer => exact sampled_select h
  cases inner with
  | none => exact hnamed.mono (by decide)
  | some layer => exact sampled_select hnamed

/-- Layers that group have room below them, and others over a row source that needs none. -/
theorem sampled_onto (hbody : body.Sampled 1) (hown : l.sampleBy.isSome = true → l.main.isGroupBy = true)
    (hroom : l.main.isGroupBy = false → body.Sampled 0) : (l.onto body).Sampled 0 := by
  unfold onto
  extract_lets named computed main timed outer top
  have hmain : main.Sampled 0 := by
    apply sampled_select
    by_cases hgroups : l.main.isGroupBy = true
    · obtain ⟨columns, hcolumns⟩ : ∃ columns, l.main = .groupBy columns := by
        cases hl : l.main <;> simp_all [Projection.isGroupBy]
      rw [hcolumns]
      exact sampled_below_groups hbody l.naming l.inner
    · have hcomputed : computed.Sampled 0 :=
        sampled_stack (sampled_stack (hroom (Bool.eq_false_iff.mpr hgroups)) _) _
      exact hcomputed.mono (Nat.zero_le _)
  have htimed : timed.Sampled 0 := by
    obtain ⟨-, hsource, hjoins⟩ := sampled_iff.1 hmain
    exact sampled_iff.2 ⟨fun h => .inl (hown h), hsource, hjoins⟩
  have houter : outer.Sampled 0 := sampled_stack htimed l.outer
  have htop : top.Sampled 0 := houter.of_eq rfl rfl rfl rfl
  split
  · exact sampled_select htop
  · exact htop

/-- A list that is grouped is laid out as groups. -/
theorem IsLayout.isGroupBy {select : SelectClause} {scope : Scope} {key : Option Expr}
    (h : l.IsLayout select scope key) (hagg : select.hasAggregate = true) :
    l.main.isGroupBy = true := by
  have hprojections := h.projections
  rw [hagg] at hprojections
  rw [show l.main = _ from congrArg (fun p => p.2.1) hprojections]
  rfl

end Layers

namespace Clause

variable {scope : Scope} {l t : Layers}

theorem sampleBy_publishHidden (l : Layers) (e : Expr) :
    (l.publishHidden e).2.sampleBy = l.sampleBy := by
  unfold Layers.publishHidden
  split
  · rfl
  · split
    · rfl
    · simp only [Layers.hiddenInput]
      split <;> rfl

/-- An order keeps the groups and the interval of the layers. -/
theorem orderLayers_ok {maxColumns : Nat} {items : List OrderItem}
    (h : orderLayers scope maxColumns items l = .ok t) :
    t.sampleBy = l.sampleBy ∧ (l.main.isGroupBy = true → t.main = l.main) := by
  unfold orderLayers at h
  split at h
  · cases h
    exact ⟨rfl, fun _ => rfl⟩
  · obtain ⟨-, -, h⟩ := Except.bind_eq_ok.mp h
    obtain ⟨⟨bound, t'⟩, hbound, h⟩ := Except.bind_eq_ok.mp h
    cases h
    have hinterval : t'.sampleBy = l.sampleBy :=
      orderColumns_keeps (P := fun t => t.sampleBy = l.sampleBy)
        (fun _ _ hl => (sampleBy_publishHidden _ _).trans hl) rfl hbound
    refine ⟨hinterval, fun hgroups => ?_⟩
    have hcombines : (l.combinesRows || l.outer.isSome) = true := by
      simp [Layers.combinesRows, hgroups]
    rw [orderColumns_combining hcombines hbound]

/-- A limit is put on the layers or on the row source. -/
theorem setLimit_eq (limit : Option Limit) (l : Layers) (body : Model) :
    ∃ layersLimit bodyLimit,
      setLimit limit l body = ({ l with limit := layersLimit }, { body with limit := bodyLimit }) := by
  unfold setLimit
  split
  · exact ⟨l.limit, body.limit, by cases body; rfl⟩
  · split
    · exact ⟨_, body.limit, by cases body; rfl⟩
    · exact ⟨l.limit, _, rfl⟩

theorem setLimit_ok (limit : Option Limit) (l : Layers) (body : Model) :
    (setLimit limit l body).1.main = l.main ∧ (setLimit limit l body).1.sampleBy = l.sampleBy ∧
      ∀ above, body.Sampled above → (setLimit limit l body).2.Sampled above := by
  unfold setLimit
  split
  · exact ⟨rfl, rfl, fun _ h => h⟩
  · split
    · exact ⟨rfl, rfl, fun _ h => h⟩
    · exact ⟨rfl, rfl, fun _ h => h.of_eq rfl rfl rfl rfl⟩

/-- An interval that waits is aggregated here or left to a level above. -/
theorem checkSampleBelow_ok {layers : Option Layers} {nested : Bool} {body : Model}
    (h : checkSampleBelow layers nested body = .ok ()) :
    pendingSampleBy? body = none ∨
      (layers.elim nested fun l => l.main.isGroupBy) = true := by
  unfold checkSampleBelow at h
  cases hpending : pendingSampleBy? body with
  | none => exact .inl rfl
  | some interval =>
    right
    cases layers with
    | none =>
      simp only [hpending] at h
      split at h
      · assumption
      · cases h
    | some l =>
      simp only [hpending] at h
      split at h
      · assumption
      · cases h

theorem setSampleBy_key {select : SelectClause} {body body' : Model} {interval key : Expr}
    (h : setSampleBy select scope body interval = .ok (key, body')) :
    sampleColumn scope body interval = .ok key := by
  unfold setSampleBy at h
  obtain ⟨aggregates, -, h⟩ := Except.bind_eq_ok.mp h
  split at h
  · obtain ⟨found, hfound, h⟩ := Except.bind_eq_ok.mp h
    cases h
    exact hfound
  · cases h

theorem setSampleBy_ok {select : SelectClause} {body body' : Model} {interval key : Expr}
    (h : setSampleBy select scope body interval = .ok (key, body')) :
    select.hasAggregate = true ∧ body' = { body with timestamp := none } := by
  unfold setSampleBy at h
  obtain ⟨aggregates, hresolve, h⟩ := Except.bind_eq_ok.mp h
  obtain ⟨-, haggregates, -⟩ := SelectClause.resolve_ok hresolve
  split at h
  · rename_i htrue
    obtain ⟨_, -, h⟩ := Except.bind_eq_ok.mp h
    cases h
    exact ⟨haggregates.symm.trans htrue, rfl⟩
  · cases h

theorem leaveSampleBy_ok {nested : Bool} {body body' : Model} {interval : Expr}
    (h : leaveSampleBy scope nested body interval = .ok body') :
    ∃ key, body' = { body with timestamp := some key, sampleBy := some interval } := by
  unfold leaveSampleBy at h
  split at h
  · obtain ⟨key, -, h⟩ := Except.bind_eq_ok.mp h
    cases h
    exact ⟨key, rfl⟩
  · cases h

theorem orderBody_ok {maxColumns : Nat} {items : List OrderItem} {m m' : Model}
    (h : orderBody scope maxColumns items m = .ok m') :
    ∃ orderBy, m' = { m with orderBy := orderBy } := by
  unfold orderBody at h
  split at h
  · cases h
    exact ⟨m.orderBy, by cases m; rfl⟩
  · obtain ⟨-, -, h⟩ := Except.bind_eq_ok.mp h
    obtain ⟨-, -, h⟩ := Except.bind_eq_ok.mp h
    cases h
    exact ⟨_, rfl⟩

theorem sampled_fillTimestamp {above : Nat} {m : Model} (h : m.Sampled above) :
    (fillTimestamp m).Sampled above := by
  unfold fillTimestamp
  split
  · exact h
  · exact h.of_eq rfl rfl rfl rfl

theorem sampled_fillTimestamps {above : Nat} {m : Model} (h : m.Sampled above) :
    (fillTimestamps m).Sampled above := by
  unfold fillTimestamps
  split
  · obtain ⟨hown, hsource, hjoins⟩ := Model.sampled_iff.1 (sampled_fillTimestamp h)
    refine Model.sampled_iff.2 ⟨hown, hsource, fun j hj => ?_⟩
    obtain ⟨j, hmem, rfl⟩ := List.mem_map.mp hj
    have hmodel := (Model.sampled_iff.1 h).2.2 j hmem
    split
    · exact sampled_fillTimestamp hmodel
    · exact hmodel
  · exact h

end Clause

namespace Compile

variable {env : Environment} {nested : Bool} {scope : Scope} {q : Query} {body m : Model}

/-! ### The clauses of a level -/

/-- A level with a select list puts layers on its row source, which may lose its timestamp; a limit is
put on one of them. -/
theorem finishLevel_layers {select : SelectClause} (hselect : q.select = some select)
    (h : finishLevel env nested scope q body = .ok m) :
    ∃ key layers ordered limit timestamp bodyLimit,
      (∀ k ∈ key, select.hasAggregate = true ∧
        ∃ interval, Clause.sampleColumn scope body interval = .ok k) ∧
      Layers.ofSelect select scope key = .ok layers ∧
      Clause.orderLayers scope env.settings.maxOrderByColumns q.orderBy
        { layers with sampleBy := q.sampleBy } = .ok ordered ∧
      m = { ordered with limit := limit }.onto { body with timestamp := timestamp, limit := bodyLimit } := by
  obtain ⟨key, body', layers, ordered, hkey, hlayers, -, hordered, rfl⟩ := finishLevel_select hselect h
  obtain ⟨timestamp, hsampled, rfl⟩ : ∃ timestamp, (∀ k ∈ key, select.hasAggregate = true ∧
      ∃ interval, Clause.sampleColumn scope body interval = .ok k) ∧
        body' = { body with timestamp := timestamp } := by
    generalize q.sampleBy = interval at hkey
    cases hkey with
    | plain => exact ⟨body.timestamp, fun _ hk => (nomatch hk), by cases body; rfl⟩
    | @sampled interval key body' hset =>
      obtain ⟨haggregates, rfl⟩ := Clause.setSampleBy_ok hset
      exact ⟨none, fun k hk => by cases hk; exact ⟨haggregates, interval, Clause.setSampleBy_key hset⟩, rfl⟩
  obtain ⟨limit, bodyLimit, hlimited⟩ :=
    Clause.setLimit_eq q.limit ordered { body with timestamp := timestamp }
  exact ⟨key, layers, ordered, limit, timestamp, bodyLimit, hsampled, hlayers, hordered, by rw [hlimited]⟩

/-- A level without a select list is its row source with other clauses. -/
theorem finishLevel_clauses (hselect : q.select = none)
    (h : finishLevel env nested scope q body = .ok m) :
    ∃ timestamp sampleBy orderBy limit, m = { body with
      timestamp := timestamp, sampleBy := sampleBy, orderBy := orderBy, limit := limit } := by
  obtain ⟨body', ordered, hleft, -, hordered, rfl⟩ := finishLevel_rows hselect h
  obtain ⟨orderBy, rfl⟩ := Clause.orderBody_ok hordered
  generalize q.sampleBy = interval at hleft
  cases hleft with
  | plain => exact ⟨body.timestamp, body.sampleBy, orderBy, q.limit, by cases body; rfl⟩
  | left hleave =>
    obtain ⟨key, rfl⟩ := Clause.leaveSampleBy_ok hleave
    exact ⟨_, _, _, _, rfl⟩

/-- A level without a select list leaves its interval, and the one that waits below it. -/
theorem sampled_ordered {maxColumns : Nat} (hp : body.projection = none) (hbody : body.Sampled 1)
    (hcheck : Clause.checkSampleBelow none nested body = .ok ())
    (hordered : Clause.orderBody scope maxColumns q.orderBy body = .ok m) (limit : Option Limit) :
    { m with limit := limit }.Sampled 1 ∧ (nested = false → { m with limit := limit }.Sampled 0) := by
  obtain ⟨orderBy, rfl⟩ := Clause.orderBody_ok hordered
  refine ⟨hbody.of_eq rfl rfl rfl rfl, fun houtermost => ?_⟩
  rcases Clause.checkSampleBelow_ok hcheck with hpending | hnested
  · exact (hbody.of_pending hp hpending).of_eq rfl rfl rfl rfl
  · exact absurd (houtermost.symm.trans hnested) (by decide)

/-- A select list over a row source groups if it has an interval or one waits below it. -/
theorem sampled_layered {select : SelectClause} {key : Option Expr} {layers ordered : Layers}
    {maxColumns : Nat} (hp : body.projection = none) (hbody : body.Sampled 1)
    (haggregates : q.sampleBy.isSome = true → select.hasAggregate = true)
    (hlayers : Layers.ofSelect select scope key = .ok layers)
    (hcheck : Clause.checkSampleBelow (some { layers with sampleBy := q.sampleBy }) nested body = .ok ())
    (hordered : Clause.orderLayers scope maxColumns q.orderBy { layers with sampleBy := q.sampleBy } =
      .ok ordered) :
    ((Clause.setLimit q.limit ordered body).1.onto (Clause.setLimit q.limit ordered body).2).Sampled 0 := by
  have hlayout := Layers.ofSelect_ok hlayers
  obtain ⟨hinterval, hgroups⟩ := Clause.orderLayers_ok hordered
  obtain ⟨hmain, hsample, hlimited⟩ := Clause.setLimit_ok q.limit ordered body
  refine Layers.sampled_onto (hlimited 1 hbody) ?_ ?_
  · intro hsome
    rw [hsample, hinterval] at hsome
    have hkept : layers.main.isGroupBy = true := hlayout.isGroupBy (haggregates hsome)
    rw [hmain, hgroups hkept]
    exact hkept
  · intro hplain
    refine hlimited 0 ?_
    rcases Clause.checkSampleBelow_ok hcheck with hpending | hkept
    · exact hbody.of_pending hp hpending
    · rw [hmain, hgroups hkept] at hplain
      exact absurd (hplain.symm.trans hkept) (by decide)

/-- A level keeps every interval where there is room for it, under a row source if another level
encloses it. -/
theorem sampled_finishLevel (hp : body.projection = none) (hbody : body.Sampled 1)
    (h : finishLevel env nested scope q body = .ok m) :
    m.Sampled 1 ∧ (nested = false → m.Sampled 0) := by
  cases hselect : q.select with
  | some select =>
    obtain ⟨key, body', layers, ordered, hkey, hlayers, hcheck, hordered, rfl⟩ :=
      finishLevel_select hselect h
    obtain ⟨hp', hbody', haggregates⟩ : body'.projection = none ∧ body'.Sampled 1 ∧
        (q.sampleBy.isSome = true → select.hasAggregate = true) := by
      generalize q.sampleBy = interval at hkey ⊢
      cases hkey with
      | plain => exact ⟨hp, hbody, fun h => by cases h⟩
      | sampled hset =>
        obtain ⟨haggregates, rfl⟩ := Clause.setSampleBy_ok hset
        exact ⟨hp, hbody.of_eq rfl rfl rfl rfl, fun _ => haggregates⟩
    have hm := sampled_layered hp' hbody' haggregates hlayers hcheck hordered
    exact ⟨hm.mono (Nat.zero_le 1), fun _ => hm⟩
  | none =>
    obtain ⟨body', ordered, hleft, hcheck, hordered, rfl⟩ := finishLevel_rows hselect h
    obtain ⟨hp', hbody'⟩ : body'.projection = none ∧ body'.Sampled 1 := by
      generalize q.sampleBy = interval at hleft
      cases hleft with
      | plain => exact ⟨hp, hbody⟩
      | left hleave =>
        obtain ⟨key, rfl⟩ := Clause.leaveSampleBy_ok hleave
        obtain ⟨-, hsource, hjoins⟩ := Model.sampled_iff.1 hbody
        exact ⟨hp, Model.sampled_iff.2 ⟨fun _ => .inr ⟨hp, Nat.one_pos⟩, hsource, hjoins⟩⟩
    exact sampled_ordered hp' hbody' hcheck hordered q.limit

/-! ### Levels -/

variable {c c' : Counters}

theorem sampled_joinSources {master m : Model} {pending : List UnplacedJoin}
    {placement : Placement} (hm : master.Sampled 1) (hpending : ∀ j ∈ pending, j.model.Sampled 1)
    (h : joinSources env master pending placement c = .ok (m, c')) : m.Sampled 1 := by
  obtain ⟨filters, conditions, constFilter, rfl⟩ := joinSources_eq h
  obtain ⟨hown, hsource, -⟩ := Model.sampled_iff.1 ((hm.addFilters filters).withFilters conditions)
  refine Model.sampled_iff.2 ⟨hown, hsource, fun j hj => ?_⟩
  obtain ⟨unplaced, hunplaced, filters, -, hmodel⟩ := mem_placedJoins hj
  rw [hmodel]
  exact (hpending unplaced hunplaced).addFilters filters

theorem sampled_modelOfLevel {master : Model} {s : Sources} (hrows : master.IsRowSource)
    (hm : master.Sampled 1) (hs : ∀ j ∈ s.joins, j.model.Sampled 1)
    (h : modelOfLevel env nested q master s c = .ok (m, c')) :
    m.Sampled 1 ∧ (nested = false → m.Sampled 0) := by
  obtain ⟨placement, body, -, hbody, h⟩ := modelOfLevel_ok h
  have hfilled := (isRowSource_fillTimestamps (isRowSource_joinSources hrows hbody)).projection
  have hsampled := Clause.sampled_fillTimestamps (sampled_joinSources hm hs hbody)
  exact sampled_finishLevel hfilled hsampled h

/-- The model of a query keeps every interval where there is room for it. -/
theorem sampled_levels :
    LevelInvariant env (fun m => m.IsRowSource ∧ m.Sampled 1) fun nested m =>
      m.ProjectsAlone ∧ m.Sampled 1 ∧ (nested = false → m.Sampled 0) where
  table h := ⟨.of_standsAlone (projectsAlone_levels.table h), Model.sampled_ofTable _ _⟩
  nested hm := ⟨.nested hm.1, Model.sampled_nested hm.2.1⟩
  level _ hsource hmaster _ hjoined h := by
    have hrows := isRowSource_addMaster hsource.1 hmaster
    obtain ⟨_, _, -, rfl⟩ := addMaster_eq hmaster
    refine ⟨projectsAlone_modelOfLevel hrows h,
      sampled_modelOfLevel hrows (hsource.2.of_eq rfl rfl rfl rfl) (fun j hj => ?_) h⟩
    obtain ⟨joined, name, ⟨-, hsampled⟩, hmodel⟩ := hjoined j hj
    rw [hmodel]
    exact hsampled.of_eq rfl rfl rfl rfl

end Compile

/-! ### The nearest select list -/

/-- Whether the projection only selects and renames columns. -/
def Projection.renames : Projection → Bool
  | choose _ => true
  | _ => false

namespace Reader

/-- The readers above the first one if that is a layer of the given kind, else all of them. -/
def dropLayer (kind : Projection → Bool) : List Reader → List Reader
  | [] => []
  | r :: readers => if r.projection.any kind then readers else r :: readers

/-- Whether the nearest reader groups rows. -/
def groups (readers : List Reader) : Bool :=
  readers.head?.any fun r => r.projection.any Projection.isGroupBy

/-- Whether the first projection above groups rows. -/
def firstGroups (readers : List Reader) : Bool :=
  groups (readers.dropWhile fun r => r.projection.isNone)

/-- Whether the nearest select list above groups rows, perhaps with a layer that computes columns
for the groups and one that renames columns for these. Nothing is asked of readers above a join. -/
def aggregated : List Reader → Bool
  | [] => false
  | r :: readers =>
    r.joined ||
      if r.projection.isNone then aggregated readers
      else groups (dropLayer Projection.computes (dropLayer Projection.renames (r :: readers)))

variable {readers : List Reader}

theorem groups_of_room (h : 3 ≤ readers.foldr below 0) : groups readers = true := by
  cases readers with
  | nil => exact absurd h (by decide)
  | cons r readers =>
    obtain ⟨projection, joined⟩ := r
    rw [List.foldr_cons, below] at h
    split at h
    · omega
    · split at h
      · omega
      · split at h <;> omega
      · split at h <;> omega
      · rename_i hprojection
        obtain rfl : projection = some _ := hprojection
        rfl
      · omega

theorem computed_of_room (h : 2 ≤ readers.foldr below 0) :
    groups (dropLayer Projection.computes readers) = true := by
  cases readers with
  | nil => exact absurd h (by decide)
  | cons r readers =>
    obtain ⟨projection, joined⟩ := r
    rw [List.foldr_cons, below] at h
    split at h
    · omega
    · split at h
      · omega
      · split at h <;> omega
      · rename_i hprojection
        obtain rfl : projection = some _ := hprojection
        refine groups_of_room ?_
        split at h
        · assumption
        · omega
      · rename_i hprojection
        obtain rfl : projection = some _ := hprojection
        rfl
      · omega

/-- Where there is room for a row source, the nearest select list above groups. -/
theorem aggregated_of_room (h : 0 < readers.foldr below 0) : aggregated readers = true := by
  induction readers with
  | nil => exact absurd h (by decide)
  | cons r readers ih =>
    obtain ⟨projection, joined⟩ := r
    cases joined with
    | true => rfl
    | false =>
      rw [List.foldr_cons, below, if_neg Bool.false_ne_true] at h
      rw [aggregated, Bool.false_or]
      cases projection with
      | none => exact ih (by simp only at h; omega)
      | some p =>
        cases p with
        | choose columns =>
          refine computed_of_room ?_
          simp only at h
          split at h
          · assumption
          · omega
        | virtual columns =>
          refine groups_of_room ?_
          simp only at h
          split at h
          · assumption
          · omega
        | groupBy columns => rfl
        | analytic columns => exact absurd h (Nat.lt_irrefl 0)

end Reader

/-! ### Compiled statements -/

/-- The nodes of a compiled statement; a table definition has none. -/
def Compiled.nodes : Compiled → List (Model × List Reader)
  | query model => model.nodes
  | createTable _ => []

/-- **An interval is aggregated by the nearest select list.** In every compiled statement a model
with an interval groups rows, or it is a row source and the nearest select list above it groups
rows. -/
theorem compile_sampleBy_aggregated {env : Environment} {sql : String} {r : Compiled}
    (h : compile env sql = .ok r) :
    ∀ node ∈ r.nodes, node.1.sampleBy.isSome = true →
      node.1.isGrouped = true ∨
        node.1.projection = none ∧ Reader.aggregated node.2 = true := by
  obtain ⟨statement, -, h⟩ := Except.bind_eq_ok.mp h
  cases statement with
  | createTable d =>
    obtain ⟨t, -, h⟩ := Except.bind_eq_ok.mp h
    cases h
    intro node hnode
    cases hnode
  | query q =>
    obtain ⟨m, hm, h⟩ := Except.bind_eq_ok.mp h
    cases h
    obtain ⟨⟨built, c⟩, hbuilt, hm⟩ := Except.bind_eq_ok.mp hm
    cases hm
    have hsampled := (Compile.sampled_levels.modelOfQuery q hbuilt).2.2 rfl
    intro node hnode hinterval
    refine (hsampled.eliminateOrders false node hnode hinterval).imp id ?_
    rintro ⟨hp, hroom⟩
    exact ⟨hp, Reader.aggregated_of_room hroom⟩

/-- A table of ticks with a time. -/
def ticksEnvironment : Environment where
  table? name :=
    if Ascii.same name "ticks" then
      some ((((Table.empty "ticks").withColumn "a" .int).withColumn "b" .int).withColumn "t" .timestamp)
    else none
  settings := .standard

/-- A node that a test finds in a statement. -/
theorem exists_node (env : Environment) (sql : String) (p : Model × List Reader → Bool)
    (h : (compile env sql).toOption.any (fun r => r.nodes.any p) = true) :
    ∃ r, compile env sql = .ok r ∧ ∃ node ∈ r.nodes, p node = true := by
  obtain ⟨r, hr, hany⟩ := Except.any_toOption.mp h
  exact ⟨r, hr, List.any_eq_true.mp hany⟩

/-- The groups are two row sources and a layer of renamed columns away from the interval. -/
theorem compile_sampleBy_aggregated_renamed :
    ∃ r, compile ticksEnvironment
        "select a b, sum(b) from ((ticks timestamp(t) sample by 10m) where a = 1)" = .ok r ∧
      ∃ node ∈ r.nodes, node.1.sampleBy.isSome = true ∧ node.1.projection = none ∧
        Reader.aggregated node.2 = true := by
  obtain ⟨r, hr, node, hnode, hp⟩ := exists_node ticksEnvironment
    "select a b, sum(b) from ((ticks timestamp(t) sample by 10m) where a = 1)"
    (fun node => node.1.sampleBy.isSome && !node.1.isGrouped) (by decide +kernel)
  obtain ⟨hinterval, hrows⟩ := Bool.and_eq_true_iff.mp hp
  have haggregated := (compile_sampleBy_aggregated hr node hnode hinterval).resolve_left
    fun hgrouped => by simp [hgrouped] at hrows
  exact ⟨r, hr, node, hnode, hinterval, haggregated⟩

/-- The first projection above an interval need not be the groups: columns may be renamed for
them. Nor does a level look at the intervals of its joined sources. -/
theorem sampleBy_not_under_groups :
    (∃ r, compile ticksEnvironment
        "select a b, sum(b) from ((ticks) timestamp(t) sample by 10m)" = .ok r ∧
      ∃ node ∈ r.nodes, node.1.sampleBy.isSome = true ∧ node.1.isGrouped = false ∧
        Reader.firstGroups node.2 = false) ∧
    ∃ r, compile ticksEnvironment
        "select x.a from ticks x cross join ((ticks) timestamp(t) sample by 10m) y" = .ok r ∧
      ∃ node ∈ r.nodes, node.1.sampleBy.isSome = true ∧ node.1.isGrouped = false ∧
        Reader.firstGroups node.2 = false := by
  have hnode : ∀ node : Model × List Reader,
      (node.1.sampleBy.isSome && !node.1.isGrouped && !Reader.firstGroups node.2) = true →
        node.1.sampleBy.isSome = true ∧ node.1.isGrouped = false ∧
          Reader.firstGroups node.2 = false := by
    intro node h
    simpa [and_assoc] using h
  constructor
  · obtain ⟨r, hr, node, hmem, hp⟩ := exists_node ticksEnvironment
      "select a b, sum(b) from ((ticks) timestamp(t) sample by 10m)"
      (fun node => node.1.sampleBy.isSome && !node.1.isGrouped && !Reader.firstGroups node.2)
      (by decide +kernel)
    exact ⟨r, hr, node, hmem, hnode node hp⟩
  · obtain ⟨r, hr, node, hmem, hp⟩ := exists_node ticksEnvironment
      "select x.a from ticks x cross join ((ticks) timestamp(t) sample by 10m) y"
      (fun node => node.1.sampleBy.isSome && !node.1.isGrouped && !Reader.firstGroups node.2)
      (by decide +kernel)
    exact ⟨r, hr, node, hmem, hnode node hp⟩

end SeriesQuery
