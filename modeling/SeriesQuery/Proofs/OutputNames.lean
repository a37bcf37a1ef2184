import SeriesQuery.Proofs.Formed

/-!
The names of the columns of a query.

A query with a select list shows the columns that the list is written with: the sample key first, then
every item under the alias that it is given or under its default name made unique
(`Query.compile_names`). Columns that only an order needs, aggregate calls that are computed on their
own and layers below do not show, and no projection of the tree has two columns of one name.
-/

namespace SeriesQuery

/-! ### Names of items -/

namespace Select

/-- The names of items in order, where `names` are taken already: an item has the alias that it is
given, or its default name made unique. -/
inductive NamedAs : List String → List SelectItem → List String → Prop where
  | nil (names : List String) : NamedAs names [] []
  | given {names shown : List String} {item : SelectItem} {items : List SelectItem} {given : Ident}
      (hitem : item.givenName = some given) (hitems : NamedAs (names ++ [given.name]) items shown) :
      NamedAs names (item :: items) (given.name :: shown)
  | made {names shown : List String} {item : SelectItem} {items : List SelectItem} {name : String}
      (hitem : item.givenName = none) (hname : AliasSet.MadeUnique names item.expr.defaultName name)
      (hitems : NamedAs (names ++ [name]) items shown) : NamedAs names (item :: items) (name :: shown)

theorem nameAll_namedAs {items : List SelectItem} {s : AliasSet} {names : List String}
    (hs : s.Holds names)
    (hgiven : ∀ item ∈ items, ∀ given ∈ item.givenName, s.isFree given.name = false) :
    NamedAs names items ((items.mapM nameItem s).1.map Item.name) := by
  induction items generalizing s names with
  | nil => exact .nil names
  | cons item items ih =>
    obtain ⟨hitem, hitems⟩ := List.forall_mem_cons.mp hgiven
    rw [mapM_cons_apply, nameItem_eq]
    cases hname : item.givenName with
    | some given => exact .given hname (ih (hs.again (hitem given hname)) hitems)
    | none =>
      refine .made hname (hs.madeUnique _) (ih (hs.insert _) fun other hother given hg => ?_)
      exact s.within_insert _ _ (hitems other hother given hg)

end Select

/-- The aliases that a select list gives. -/
def SelectClause.givenAliases (select : SelectClause) : List String :=
  (select.items.filterMap SelectItem.givenName).map Ident.name

theorem SelectClause.holds_explicitAliases {aliases : List Ident} {s t : AliasSet}
    {names : List String} (hs : s.Holds names) (h : explicitAliases aliases s = .ok t) :
    t.Holds (names ++ aliases.map Ident.name) := by
  induction aliases generalizing s names with
  | nil =>
    cases h
    simpa using hs
  | cons given aliases ih =>
    rw [explicitAliases] at h
    split at h
    · simpa using ih (hs.insert given.name) h
    · cases h

/-- The items of a select list are named in order behind the sample key, among the aliases that are
given in the list. -/
theorem Layers.IsLayout.namedAs {select : SelectClause} {scope : Scope} {key : Option Expr} {l : Layers}
    (h : l.IsLayout select scope key) :
    Select.NamedAs select.givenAliases (Select.keyed key select.items) (l.items.map Prod.fst) := by
  have hnames : l.items.map Prod.fst =
      ((Select.keyed key select.items).mapM Select.nameItem (Select.given select)).1.map
        Select.Item.name := by
    rw [h.items, List.map_map, ← Select.nameItems_eq]
    rfl
  have hgiven := (SelectClause.explicitAliases_spec h.given).2.1
  rw [hnames]
  refine Select.nameAll_namedAs (SelectClause.holds_explicitAliases AliasSet.holds_empty h.given) ?_
  intro item hitem given hname
  rcases List.mem_append.mp hitem with hkey | hitem
  · obtain ⟨key, -, rfl⟩ := List.mem_map.mp hkey
    cases hname
  · exact (hgiven given (List.mem_filterMap.mpr ⟨item, hitem, hname⟩)).2

/-! ### The sample key -/

/-- The designated timestamp of the table that a source is. -/
def SourceOf.timestamp? (env : Environment) : SourceOf Query → Option Expr
  | .table name =>
    ((env.table? name.name).bind Table.designatedTimestamp?).map fun column => .column (.plain column) 0
  | .query _ => none

/-- The key of a `sample by`: the timestamp that the level nominates, else the designated timestamp
of the table that it reads. -/
def Query.sampleKey? (env : Environment) (q : Query) : Option Expr :=
  q.sampleBy.bind fun _ => q.timestamp <|> q.source.timestamp? env

namespace Compile

variable {env : Environment} {c c' : Counters}

theorem timestamp_modelOfSource {source : SourceOf Query} {m : Model}
    (h : modelOfSource env source c = .ok (m, c')) :
    m.timestamp = none ∧ m.timestampOfTable? = source.timestamp? env := by
  cases source with
  | table name =>
    rw [modelOfSource] at h
    obtain ⟨h, rfl⟩ := lift_eq_ok.mp h
    unfold modelOfTable at h
    split at h
    · rename_i table htable
      cases h
      refine ⟨rfl, ?_⟩
      rw [SourceOf.timestamp?, htable]
      rfl
    · cases h
  | query q =>
    rw [modelOfSource] at h
    obtain ⟨inner, _, -, h⟩ := bind_eq_ok.mp h
    cases h
    exact ⟨rfl, rfl⟩

/-- Conditions and joins leave the timestamps of the master alone. -/
theorem timestamp_joinSources {master m : Model} {pending : List UnplacedJoin} {placement : Placement}
    (h : joinSources env master pending placement c = .ok (m, c')) :
    m.timestamp = master.timestamp ∧ m.timestampOfTable? = master.timestampOfTable? := by
  obtain ⟨filters, conditions, constFilter, rfl⟩ := joinSources_eq h
  have halike := (Model.Alike.addFilters master filters).trans (.withFilters _ conditions)
  exact ⟨halike.timestamp, halike.timestampOfTable⟩

theorem designatedTimestamp?_eq {m : Model} {key : Expr} (h : m.designatedTimestamp? = some key) :
    (m.timestamp <|> m.timestampOfTable?) = some key := by
  unfold Model.designatedTimestamp? at h
  cases ht : m.timestamp with
  | some timestamp => simpa [ht] using h
  | none =>
    rw [ht] at h
    obtain ⟨-, htable⟩ := Option.ite_none_right_eq_some.mp h
    simpa using htable

/-- The timestamps that joins by time need do not change that of the row source. -/
theorem timestamp_fillTimestamps (m : Model) :
    ((Clause.fillTimestamps m).timestamp <|> (Clause.fillTimestamps m).timestampOfTable?) =
      (m.timestamp <|> m.timestampOfTable?) := by
  unfold Clause.fillTimestamps
  split
  · cases ht : m.timestamp with
    | some timestamp => simp [Clause.fillTimestamp, ht]
    | none =>
      simp only [Clause.fillTimestamp, ht]
      change (m.timestampOfTable? <|> m.timestampOfTable?) = _
      cases m.timestampOfTable? <;> rfl
  · rfl

/-- A select list with `sample by` has the timestamp of its level as its key. -/
theorem TakesKey.eq_sampleKey? {q : Query} {select : SelectClause} {scope : Scope} {body body' : Model}
    {key : Option Expr} (h : TakesKey select scope body q.sampleBy key body')
    (hbody : (body.timestamp <|> body.timestampOfTable?) =
      (q.timestamp <|> q.source.timestamp? env)) :
    key = q.sampleKey? env ∧ key.isSome = q.sampleBy.isSome := by
  rw [Query.sampleKey?, ← hbody]
  generalize q.sampleBy = interval at h ⊢
  cases h with
  | plain => exact ⟨rfl, rfl⟩
  | @sampled interval key body' hset =>
    refine ⟨?_, rfl⟩
    have htimestamp : body.designatedTimestamp? = some key := by
      unfold Clause.setSampleBy at hset
      obtain ⟨aggregates, -, hset⟩ := Except.bind_eq_ok.mp hset
      split at hset
      · obtain ⟨timestamp, hcolumn, hset⟩ := Except.bind_eq_ok.mp hset
        cases hset
        unfold Clause.sampleColumn at hcolumn
        split at hcolumn
        · cases hcolumn
        · rename_i hsome
          split at hcolumn
          · cases hcolumn
          · cases hcolumn
            exact hsome
      · cases hset
    exact (designatedTimestamp?_eq htimestamp).symm

/-! ### Levels -/

/-- The layers of a level show the names of their items. -/
theorem aliases_onto {l : Layers} (hl : l.Apart) (body : Model) :
    ∃ p, (l.onto body).projection = some p ∧ p.aliases = l.items.map Prod.fst := by
  rw [Layers.onto_eq]
  cases hwrap : l.wrap with
  | true =>
    refine ⟨l.visible, rfl, ?_⟩
    simp [Layers.visible, Projection.aliases, Projection.columns, Function.comp_def]
  | false =>
    refine ⟨l.top, ?_, hl.shown hwrap⟩
    unfold Layers.sorted Layers.top
    cases l.outer <;> rfl

theorem names_modelOfQuery {nested : Bool} {q : Query} {m : Model} {select : SelectClause}
    (hselect : q.select = some select) (h : modelOfQuery env nested q c = .ok (m, c')) :
    (q.sampleKey? env).isSome = q.sampleBy.isSome ∧ ∃ p, m.projection = some p ∧
      Select.NamedAs select.givenAliases (Select.keyed (q.sampleKey? env) select.items) p.aliases := by
  obtain ⟨source, _, master, scope, _, s, _, hsource, hmaster, -, h⟩ := modelOfQuery_ok h
  obtain ⟨placement, body, -, hbody, h⟩ := modelOfLevel_ok h
  obtain ⟨key, body', layers, ordered, hkey, hlayers, -, hordered, rfl⟩ := finishLevel_select hselect h
  have htimestamp : ((Clause.fillTimestamps body).timestamp <|>
      (Clause.fillTimestamps body).timestampOfTable?) =
        (q.timestamp <|> q.source.timestamp? env) := by
    obtain ⟨hnone, htable⟩ := timestamp_modelOfSource hsource
    obtain ⟨hkept, hkeptTable⟩ := timestamp_joinSources hbody
    obtain ⟨name, latestBy, -, rfl⟩ := addMaster_eq hmaster
    rw [timestamp_fillTimestamps, hkept, hkeptTable, ← htable, hnone]
    cases q.timestamp <;> rfl
  obtain ⟨rfl, hsome⟩ := hkey.eq_sampleKey? htimestamp
  have hlayout := Layers.ofSelect_ok hlayers
  have hapart := hlayout.apart_layers
  have hsampled : { layers with sampleBy := q.sampleBy }.Apart :=
    ⟨hapart.naming, hapart.inner, hapart.main, hapart.outer, hapart.items, hapart.shown⟩
  obtain ⟨hfinal, hitems⟩ := Clause.apart_orderLayers hsampled hordered
  have hlimited : (Clause.setLimit q.limit ordered body').1.Apart ∧
      (Clause.setLimit q.limit ordered body').1.items = ordered.items := by
    unfold Clause.setLimit
    split
    · exact ⟨hfinal, rfl⟩
    · split
      · exact ⟨⟨hfinal.naming, hfinal.inner, hfinal.main, hfinal.outer, hfinal.items, hfinal.shown⟩, rfl⟩
      · exact ⟨hfinal, rfl⟩
  obtain ⟨p, hp, haliases⟩ := aliases_onto hlimited.1 (Clause.setLimit q.limit ordered body').2
  refine ⟨hsome, p, hp, ?_⟩
  rw [haliases, hlimited.2, hitems]
  exact hlayout.namedAs

end Compile

/-- Every node of a tree has the property in some place. -/
theorem Model.Satisfies.exists_here {Place : Type} {P : TreeProperty Place} {place : Place} {m : Model}
    (h : m.Satisfies P place) : ∀ node ∈ m.nodes, ∃ place, P.here place node.1 := by
  induction h with
  | @intro place m here source joins ihSource ihJoins =>
    intro node hnode
    rcases Model.mem_nodes.mp hnode with rfl | ⟨inner, hinner, below, hbelow, rfl⟩ |
      ⟨j, hj, below, hbelow, rfl⟩
    · exact ⟨place, here⟩
    · exact ihSource inner hinner below hbelow
    · exact ihJoins j hj below hbelow

theorem Model.Formed.apart {place : Place} {m : Model} (h : m.Formed place) :
    ∀ node ∈ m.nodes, ∀ p ∈ node.1.projection, p.Apart := by
  intro node hnode
  obtain ⟨_, hhere⟩ := h.exists_here node hnode
  exact hhere.apart

/-! ### Compiled queries -/

/-- **The columns of a query are those of its select list.** A compiled query with a select list shows
the sample key, if it has a `sample by`, and then every item, each under the alias that it is given or
under its default name made unique among these aliases and the names before it. And in every
projection of the tree the names differ in more than case. -/
theorem Query.compile_names {env : Environment} {q : Query} {m : Model} (h : q.compile env = .ok m) :
    (∀ select, q.select = some select →
      (q.sampleKey? env).isSome = q.sampleBy.isSome ∧
        Select.NamedAs select.givenAliases (Select.keyed (q.sampleKey? env) select.items)
          (m.shownColumns.map ShownColumn.name)) ∧
      ∀ node ∈ m.nodes, ∀ p ∈ node.1.projection,
        p.aliases.Pairwise fun a b => Ascii.same a b = false := by
  refine ⟨fun select hselect => ?_, (q.compile_formed h).apart⟩
  obtain ⟨⟨built, c⟩, hbuilt, h⟩ := Except.bind_eq_ok.mp h
  cases h
  obtain ⟨hkey, p, hp, hnames⟩ := Compile.names_modelOfQuery hselect hbuilt
  refine ⟨hkey, ?_⟩
  rw [Model.names_shownColumns ((built.alike_eliminateOrders false).projection.trans hp)]
  exact hnames

/-- Two sums and an alias that looks like one of them. -/
theorem Query.compile_names_sums :
    ∃ q m select, Statement.ofText "select sum(a), sum(b), min(b) sum1 from ticks timestamp(t) sample by 1h" =
        .ok (.query q) ∧
      q.compile ticksEnvironment = .ok m ∧ q.select = some select ∧
      m.shownColumns.map ShownColumn.name = ["t", "sum", "sum2", "sum1"] ∧
      Select.NamedAs select.givenAliases (Select.keyed (q.sampleKey? ticksEnvironment) select.items)
        ["t", "sum", "sum2", "sum1"] := by
  obtain ⟨q, hq, hcompiles⟩ := Statement.exists_query
    "select sum(a), sum(b), min(b) sum1 from ticks timestamp(t) sample by 1h"
    (fun q => (q.compile ticksEnvironment).toOption.any fun m => q.select.isSome &&
      m.shownColumns.map ShownColumn.name == ["t", "sum", "sum2", "sum1"]) (by decide +kernel)
  obtain ⟨m, hm, hp⟩ := Except.any_toOption.mp hcompiles
  obtain ⟨hselect, hnames⟩ := Bool.and_eq_true_iff.mp hp
  obtain ⟨select, hselect⟩ := Option.isSome_iff_exists.mp hselect
  have hshown := eq_of_beq hnames
  exact ⟨q, m, select, hq, hm, hselect, hshown, hshown ▸ ((q.compile_names hm).1 select hselect).2⟩

end SeriesQuery
