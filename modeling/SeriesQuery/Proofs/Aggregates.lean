import SeriesQuery.Proofs.OutputNames
import SeriesQuery.Proofs.Select.Aggregates

/-!
Where compiled queries aggregate.

Every level puts its aggregate calls into the main projection of its layers, and nothing that is done
to a tree of models afterwards changes a projection (`Compile.aggregatesApart_levels`). So in a compiled
query groups and windows alone aggregate, and a column of groups that is no aggregate call contains none
(`Query.compile_aggregates`).
-/

namespace SeriesQuery

namespace Model

variable {m m' body : Model}

/-- Aggregate calls are whole columns of groups, or stand beside windows. -/
def aggregatesApart : TreeProperty Unit where
  here _ m := ∀ p ∈ m.projection, p.AggregatesApart
  below _ _ := ()
  joined _ := ()
  here_alike h hm := by rwa [h.projection]
  below_alike _ := rfl

/-- The projections of the model and of all that it reads keep aggregate calls apart. -/
abbrev AggregatesApart (m : Model) : Prop :=
  m.Satisfies aggregatesApart ()

theorem aggregatesApart_iff : m.AggregatesApart ↔ (∀ p ∈ m.projection, p.AggregatesApart) ∧
    (∀ inner, m.source = .nested inner → inner.AggregatesApart) ∧
      ∀ j ∈ m.joins, j.model.AggregatesApart :=
  satisfies_iff

/-- Projections and sources are all that matters. -/
theorem AggregatesApart.congr (h : m.AggregatesApart) (hp : m'.projection = m.projection)
    (hs : m'.source = m.source) (hj : m'.joins = m.joins) : m'.AggregatesApart := by
  rw [aggregatesApart_iff, hp, hs, hj]
  exact aggregatesApart_iff.mp h

theorem aggregatesApart_nested (h : body.AggregatesApart) : (nested body).AggregatesApart :=
  aggregatesApart_iff.mpr ⟨fun _ h => (nomatch h), fun _ hs => RowSource.nested.inj hs ▸ h,
    fun _ h => (nomatch h)⟩

theorem aggregatesApart_select {p : Projection} (hp : p.AggregatesApart)
    (h : body.AggregatesApart) : (select p body).AggregatesApart := by
  refine aggregatesApart_iff.mpr ⟨?_, fun _ hs => RowSource.nested.inj hs ▸ h, fun _ h => (nomatch h)⟩
  rintro _ ⟨⟩
  exact hp

theorem aggregatesApart_stack {p : Option Projection} (hp : ∀ q ∈ p, q.AggregatesApart)
    (h : body.AggregatesApart) : (Layers.stack p body).AggregatesApart := by
  cases p with
  | none => exact h
  | some p => exact aggregatesApart_select (hp p rfl) h

/-- Layers that aggregate in the main projection alone, over a row source. -/
theorem aggregatesApart_onto {l : Layers} (hl : l.AggregatesInMain) (h : body.AggregatesApart) :
    (l.onto body).AggregatesApart := by
  have hlayer : ∀ {layer : Option Layer} (kind : List PublishedColumn → Projection),
      (∀ x : Layer, x.RowWise → (kind x.columns).AggregatesApart) →
        (∀ x ∈ layer, x.RowWise) → ∀ p ∈ layer.map fun x => kind x.columns, p.AggregatesApart := by
    intro layer kind hkind hrow p hp
    obtain ⟨x, hx, rfl⟩ := Option.map_eq_some_iff.mp hp
    exact hkind x (hrow x hx)
  have hvisible : l.visible.AggregatesApart := by
    intro c hc
    obtain ⟨item, -, rfl⟩ := List.mem_map.mp hc
    rfl
  unfold Layers.onto
  extract_lets named computed main timed outer top
  have hcomputed : computed.AggregatesApart :=
    aggregatesApart_stack (hlayer .virtual (fun _ h => h) hl.inner)
      (aggregatesApart_stack (hlayer .choose (fun _ h => h) hl.naming) h)
  have hmain : timed.AggregatesApart := (aggregatesApart_select hl.main hcomputed).congr rfl rfl rfl
  have houter : outer.AggregatesApart := aggregatesApart_stack hl.outer hmain
  have htop : top.AggregatesApart := houter.congr rfl rfl rfl
  split
  · exact aggregatesApart_select hvisible htop
  · exact htop

theorem AggregatesApart.fillTimestamps (h : m.AggregatesApart) :
    (Clause.fillTimestamps m).AggregatesApart := by
  have hfill : ∀ {n : Model}, n.AggregatesApart → (Clause.fillTimestamp n).AggregatesApart := by
    intro n hn
    obtain ⟨timestamp, heq, -⟩ := Clause.fillTimestamp_eq n
    rw [heq]
    exact hn.congr rfl rfl rfl
  unfold Clause.fillTimestamps
  split
  · obtain ⟨hp, hs, -⟩ := aggregatesApart_iff.mp (hfill h)
    refine aggregatesApart_iff.mpr ⟨hp, hs, fun joined hjoined => ?_⟩
    obtain ⟨j, hj, rfl⟩ := List.mem_map.mp hjoined
    have hjoin := (aggregatesApart_iff.mp h).2.2 j hj
    split
    · exact hfill hjoin
    · exact hjoin
  · exact h

end Model

namespace Compile

variable {env : Environment} {nested : Bool} {scope : Scope} {q : Query} {body m : Model}
  {c c' : Counters}

theorem aggregatesApart_finishLevel (hbody : body.AggregatesApart)
    (h : finishLevel env nested scope q body = .ok m) : m.AggregatesApart := by
  cases hselect : q.select with
  | some select =>
    obtain ⟨key, layers, ordered, limit, timestamp, bodyLimit, hkey, hlayers, hordered, rfl⟩ :=
      finishLevel_layers hselect h
    have hlayered : { layers with sampleBy := q.sampleBy }.AggregatesInMain := by
      have hmain := (Layers.ofSelect_ok hlayers).aggregatesInMain fun hagg =>
        Option.eq_none_iff_forall_not_mem.mpr fun k hk => by simp [(hkey k hk).1] at hagg
      exact ⟨hmain.naming, hmain.inner, hmain.main, hmain.outer⟩
    have hfinal : ordered.AggregatesInMain :=
      Clause.orderLayers_keeps (P := Layers.AggregatesInMain) (fun _ _ hl => hl.publishHidden rfl)
        (fun _ hl => ⟨hl.naming, hl.inner, hl.main, hl.outer⟩) hlayered hordered
    exact Model.aggregatesApart_onto ⟨hfinal.naming, hfinal.inner, hfinal.main, hfinal.outer⟩
      (hbody.congr rfl rfl rfl)
  | none =>
    obtain ⟨timestamp, sampleBy, orderBy, limit, rfl⟩ := finishLevel_clauses hselect h
    exact hbody.congr rfl rfl rfl

theorem aggregatesApart_joinSources {master : Model} {pending : List UnplacedJoin}
    {placement : Placement} (hm : master.AggregatesApart)
    (hjoined : ∀ j ∈ pending, j.model.AggregatesApart)
    (h : joinSources env master pending placement c = .ok (m, c')) : m.AggregatesApart := by
  obtain ⟨filters, conditions, constFilter, rfl⟩ := joinSources_eq h
  obtain ⟨hp, hs, -⟩ :=
    Model.aggregatesApart_iff.mp ((hm.addFilters filters).withFilters conditions)
  refine Model.aggregatesApart_iff.mpr ⟨hp, hs, fun j hj => ?_⟩
  obtain ⟨unplaced, hunplaced, filters, -, hmodel⟩ := mem_placedJoins hj
  rw [hmodel]
  exact (hjoined unplaced hunplaced).addFilters filters

theorem aggregatesApart_addMaster {source master : Model} (hsource : source.AggregatesApart)
    (h : addMaster q source c = .ok ((master, scope), c')) : master.AggregatesApart := by
  obtain ⟨_, _, -, rfl⟩ := addMaster_eq h
  exact hsource.congr rfl rfl rfl

/-- **Every level aggregates in its groups and beside its windows alone.** -/
theorem aggregatesApart_levels :
    LevelInvariant env Model.AggregatesApart fun _ m => m.AggregatesApart where
  table _ := Model.aggregatesApart_iff.mpr
    ⟨fun _ h => (nomatch h), fun _ h => (nomatch h), fun _ h => (nomatch h)⟩
  nested := Model.aggregatesApart_nested
  level _ hsource hmaster _ hjoined h := by
    obtain ⟨placement, body, -, hbody, h⟩ := modelOfLevel_ok h
    have hjoins := aggregatesApart_joinSources (aggregatesApart_addMaster hsource hmaster)
      (fun j hj => by
        obtain ⟨joined, name, hjoin, hmodel⟩ := hjoined j hj
        rw [hmodel]
        exact hjoin.congr rfl rfl rfl) hbody
    exact aggregatesApart_finishLevel hjoins.fillTimestamps h

end Compile

/-- **Aggregation happens in groups and beside windows alone.** In every model of the tree of a compiled
query, no column of a `select-choose` or a `select-virtual` projection contains an aggregate call, and
a column of a `select-group-by` projection is itself an aggregate call or contains none. -/
theorem Query.compile_aggregates {env : Environment} {q : Query} {m : Model}
    (h : q.compile env = .ok m) :
    ∀ node ∈ m.nodes, ∀ columns,
      (node.1.projection = some (.choose columns) ∨ node.1.projection = some (.virtual columns) →
        ∀ c ∈ columns, c.expr.hasAggregate = false) ∧
      (node.1.projection = some (.groupBy columns) →
        ∀ c ∈ columns, c.expr.isAggregate = true ∨ c.expr.hasAggregate = false) := by
  obtain ⟨⟨built, counters⟩, hbuilt, h⟩ := Except.bind_eq_ok.mp h
  cases h
  have hbuilt : built.AggregatesApart := Compile.aggregatesApart_levels.modelOfQuery q hbuilt
  intro node hnode columns
  obtain ⟨_, hhere⟩ := (hbuilt.eliminateOrders false).exists_here node hnode
  refine ⟨?_, fun hp => hhere _ hp⟩
  rintro (hp | hp)
  · exact hhere _ hp
  · exact hhere _ hp

/-- The texts of the columns of a `select-group-by` projection. -/
def Projection.groupTexts : Projection → List String
  | groupBy columns => columns.map fun c => c.expr.text
  | _ => []

/-- Aggregate calls inside of a list, of another call and of arithmetic, beside a computed key. -/
theorem Query.compile_aggregates_nested :
    ∃ q m, Statement.ofText "select a + b k, abs(sum(a)) + max(b) n, sum(a) in (min(b), 2) i from ticks" =
        .ok (.query q) ∧ q.compile ticksEnvironment = .ok m ∧
      ∃ node ∈ m.nodes, ∃ columns, node.1.projection = some (.groupBy columns) ∧
        columns.map (fun c => c.expr.text) = ["k", "sum(a)", "max(b)", "sum(a)", "min(b)"] ∧
        ∀ c ∈ columns, c.expr.isAggregate = true ∨ c.expr.hasAggregate = false := by
  obtain ⟨q, hq, hcompiles⟩ := Statement.exists_query
    "select a + b k, abs(sum(a)) + max(b) n, sum(a) in (min(b), 2) i from ticks"
    (fun q => (q.compile ticksEnvironment).toOption.any fun m => m.nodes.any fun node =>
      node.1.projection.any fun p => p.groupTexts == ["k", "sum(a)", "max(b)", "sum(a)", "min(b)"])
    (by decide +kernel)
  obtain ⟨m, hm, hnode⟩ := Except.any_toOption.mp hcompiles
  obtain ⟨node, hnode, hp⟩ := List.any_eq_true.mp hnode
  obtain ⟨p, hp, htexts⟩ := (Option.any_eq_true _ _).mp hp
  have htexts := eq_of_beq htexts
  cases p with
  | groupBy columns =>
    exact ⟨q, m, hq, hm, node, hnode, columns, hp, htexts,
      (q.compile_aggregates hm node hnode columns).2 hp⟩
  | choose | virtual | analytic => cases htexts

end SeriesQuery
