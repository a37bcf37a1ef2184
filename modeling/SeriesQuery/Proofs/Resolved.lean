import SeriesQuery.Proofs.Model.Shown
import SeriesQuery.Proofs.Select.Grounded
import SeriesQuery.Proofs.Sentinels.Numbering

/-!
References in compiled models.

While a level is compiled its references are looked up in a scope, and of the compiled model the scope
is no part. The sources that the lowest projection of the level reads are those of the scope, in another
order (`Compile.perm_sources`), and whether a reference leads somewhere does not hang on the order
(`Scope.leadsTo_of_perm`). So in a compiled model every plain column of a projection over a row source
is a column of one of its sources, at every depth (`Compile.resolved_levels`).
-/

namespace SeriesQuery

/-! ### Scopes in another order -/

namespace Scope

variable {s t : Scope} {ref : ColumnRef}

theorem filter_zipIdx (entries : List ScopeEntry) (test : ScopeEntry → Bool) :
    (entries.zipIdx.filter fun e => test e.1).map Prod.fst = entries.filter test := by
  conv_rhs => rw [← List.zipIdx_map_fst 0 entries, List.filter_map]
  rfl

/-- A reference leads somewhere if one source alone competes for it, and has the column. -/
theorem exists_leadsTo_iff : (∃ source, s.LeadsTo ref source) ↔
    ∃ entry c, s.entries.filter (·.competes ref) = [entry] ∧ entry.column? ref.name = some c := by
  obtain ⟨qualifier, name⟩ := ref
  have hcompete := filter_zipIdx s.entries (·.competes ⟨qualifier, name⟩)
  cases qualifier with
  | some qualifier =>
    constructor
    · rintro ⟨source, hleads⟩
      obtain ⟨type, hresolve⟩ := hleads 0
      obtain ⟨entry, c, hnamed, hcolumn, -⟩ := resolve_qualified hresolve
      refine ⟨entry, c, ?_, hcolumn⟩
      rw [← hcompete]
      exact congrArg (List.map Prod.fst) hnamed
    · rintro ⟨entry, c, hone, hcolumn⟩
      rw [hone, List.map_eq_singleton_iff] at hcompete
      obtain ⟨⟨_, source⟩, hnamed, rfl⟩ := hcompete
      have hnamed : s.named qualifier = [(_, source)] := hnamed
      exact ⟨source, fun p => ⟨c.type, by simp only [resolve, hnamed, hcolumn]⟩⟩
  | none =>
    have hlength : (s.holders name).length = (s.entries.filter (·.competes ⟨none, name⟩)).length := by
      rw [holders, List.length_filterMap_eq_countP, List.countP_eq_length_filter, ← hcompete,
        List.length_map]
      simp only [Option.isSome_map]
      rfl
    constructor
    · rintro ⟨source, hleads⟩
      obtain ⟨type, hresolve⟩ := hleads 0
      rw [resolve_plain hresolve, List.length_singleton] at hlength
      obtain ⟨entry, hone⟩ := List.length_eq_one_iff.mp hlength.symm
      have hhas := (List.mem_filter.mp (hone ▸ List.mem_singleton_self entry)).2
      obtain ⟨c, hc⟩ := Option.isSome_iff_exists.mp hhas
      exact ⟨entry, c, hone, hc⟩
    · rintro ⟨entry, c, hone, -⟩
      rw [hone, List.length_singleton] at hlength
      obtain ⟨r, hholders⟩ := List.length_eq_one_iff.mp hlength
      exact ⟨r.source, fun p => ⟨r.type, by simp only [resolve, hholders]⟩⟩

/-- The order of the sources does not matter. -/
theorem leadsTo_of_perm (h : s.entries.Perm t.entries) (href : ∃ source, s.LeadsTo ref source) :
    ∃ source, t.LeadsTo ref source := by
  obtain ⟨entry, c, hone, hc⟩ := exists_leadsTo_iff.mp href
  have hperm := h.filter (·.competes ref)
  rw [hone] at hperm
  exact exists_leadsTo_iff.mpr ⟨entry, c, List.perm_singleton.mp hperm.symm, hc⟩

end Scope

/-! ### Models whose references lead to their sources -/

namespace Model

variable {env : Environment} {m m' body : Model}

/-- A reference leads to a source that a projection over the row source sees. -/
def Knows (body : Model) (ref : ColumnRef) : Prop :=
  ∃ source, (⟨body.sources⟩ : Scope).LeadsTo ref source

/-- The table of the model is one of the environment; a projection stands on a model, and its plain
columns lead to the sources of that if it is a row source. -/
structure ResolvedIn (env : Environment) (m : Model) : Prop where
  table : ∀ name table, m.source = .table name table → env.table? name = some table
  projection : ∀ p ∈ m.projection, ∃ body, m.source = .nested body ∧
    (body.projection = none → ∀ c ∈ p.columns, c.2.PlainIn body.Knows)

/-- The model is resolved, and so is everything that it reads. -/
inductive Resolved (env : Environment) : Model → Prop where
  | intro {m : Model} (here : m.ResolvedIn env)
      (source : ∀ inner, m.source = .nested inner → Resolved env inner)
      (joins : ∀ j ∈ m.joins, Resolved env j.model) : Resolved env m

theorem resolved_iff : m.Resolved env ↔ m.ResolvedIn env ∧
    (∀ inner, m.source = .nested inner → inner.Resolved env) ∧ ∀ j ∈ m.joins, j.model.Resolved env :=
  ⟨fun ⟨here, source, joins⟩ => ⟨here, source, joins⟩, fun ⟨here, source, joins⟩ => ⟨here, source, joins⟩⟩

/-- Projections and sources are all that matters. -/
theorem Resolved.of_eq (h : m.Resolved env) (hp : m'.projection = m.projection)
    (hs : m'.source = m.source) (hj : m'.joins = m.joins) : m'.Resolved env := by
  obtain ⟨⟨htable, hprojection⟩, hsource, hjoins⟩ := resolved_iff.mp h
  rw [resolved_iff, hs, hj]
  exact ⟨⟨by rwa [hs], by rwa [hp, hs]⟩, hsource, hjoins⟩

/-- What is read may be replaced by something resolved that shows the same. -/
theorem Resolved.of_sameSource (h : m.Resolved env) (hp : m'.projection = m.projection)
    (hs : SameSource m.source m'.source)
    (source : ∀ inner, m'.source = .nested inner → inner.Resolved env)
    (joins : ∀ j ∈ m'.joins, j.model.Resolved env) : m'.Resolved env := by
  refine .intro ?_ source joins
  obtain ⟨htable, hprojection⟩ := (resolved_iff.mp h).1
  generalize m.source = rows at htable hprojection hs
  generalize hrows' : m'.source = rows' at hs
  cases hs with
  | refl =>
    exact ⟨fun name table hm => htable name table (hrows'.symm.trans hm),
      fun p hmem => (hprojection p (hp ▸ hmem)).imp fun body h => ⟨hrows'.trans h.1, h.2⟩⟩
  | @nested inner next hsame =>
    refine ⟨fun name table hm => ?_, fun p hmem => ⟨next, hrows', fun hplain c hc => ?_⟩⟩
    · rw [hrows'] at hm
      cases hm
    · obtain ⟨_, ⟨⟩, hcolumns⟩ := hprojection p (hp ▸ hmem)
      refine (hcolumns (hsame.projection ▸ hplain) c hc).mono fun ref hknown => ?_
      rwa [Knows, hsame.sources]

theorem Resolved.withSource (h : m.Resolved env) {inner next : Model} (hs : m.source = .nested inner)
    (hsame : inner.SameShown next) (hnext : next.Resolved env) :
    { m with source := .nested next }.Resolved env :=
  h.of_sameSource rfl (hs ▸ .nested hsame) (fun _ hs => RowSource.nested.inj hs ▸ hnext)
    (resolved_iff.mp h).2.2

theorem resolved_ofTable {name : String} {table : Table} (h : env.table? name = some table) :
    (ofTable name table).Resolved env := by
  refine .intro ⟨?_, fun _ hp => (nomatch hp)⟩ (fun _ hs => by cases hs) fun _ hj => (nomatch hj)
  rintro _ _ ⟨⟩
  exact h

theorem resolved_nested (h : m.Resolved env) : (nested m).Resolved env :=
  .intro ⟨fun _ _ hs => (nomatch hs), fun _ hp => (nomatch hp)⟩
    (fun _ hs => RowSource.nested.inj hs ▸ h) fun _ hj => (nomatch hj)

theorem resolved_select {p : Projection} (h : body.Resolved env)
    (hp : body.projection = none → ∀ c ∈ p.columns, c.2.PlainIn body.Knows) :
    (select p body).Resolved env := by
  refine .intro ⟨fun _ _ hs => (nomatch hs), ?_⟩ (fun _ hs => RowSource.nested.inj hs ▸ h)
    fun _ hj => (nomatch hj)
  rintro _ ⟨⟩
  exact ⟨body, rfl, hp⟩

/-! ### Filters and orders -/

theorem followsFilters_resolved :
    FollowsFilters fun m m' => m.SameShown m' ∧ (m.Resolved env → m'.Resolved env) where
  here _ _ := ⟨.of_eq rfl rfl rfl rfl, fun h => h.of_eq rfl rfl rfl⟩
  below hs hnext := ⟨.withSource hs hnext.1, fun h =>
    h.withSource hs hnext.1 (hnext.2 ((resolved_iff.mp h).2.1 _ hs))⟩

theorem Resolved.addFilters (h : m.Resolved env) (conditions : List Expr) :
    (m.addFilters conditions).Resolved env :=
  List.foldlRecOn conditions Model.addFilter h fun n hn condition _ =>
    (followsFilters_resolved.addFilter n condition).2 hn

theorem Resolved.withFilters (h : m.Resolved env) (conditions : List Expr) :
    (conditions.foldl Model.withFilter m).Resolved env :=
  List.foldlRecOn conditions Model.withFilter h fun _ hm _ _ => hm.of_eq rfl rfl rfl

theorem Resolved.eliminateOrders (h : m.Resolved env) (orderedAbove : Bool) :
    (m.eliminateOrders orderedAbove).Resolved env := by
  induction h generalizing orderedAbove with
  | @intro m here source joins ihSource ihJoins =>
    obtain ⟨orderBy, inSource, inJoins, heq⟩ := m.eliminateOrders_eq orderedAbove
    rw [heq]
    refine Resolved.of_sameSource ⟨here, source, joins⟩ rfl ?_ (fun inner hinner => ?_) fun j hj => ?_
    · cases hs : m.source with
      | table => exact .refl _
      | nested inner => exact .nested (.eliminateOrders inner inSource)
    · obtain ⟨kept, hkept, rfl⟩ := nested_of_eliminateInSource hinner
      exact ihSource kept hkept inSource
    · obtain ⟨kept, hkept, above, rfl⟩ := mem_eliminateInJoins hj
      exact ihJoins kept hkept above

theorem Resolved.fillTimestamps (h : m.Resolved env) : (Clause.fillTimestamps m).Resolved env := by
  have hfill : ∀ {n : Model}, n.Resolved env → (Clause.fillTimestamp n).Resolved env := by
    intro n hn
    obtain ⟨timestamp, heq, -⟩ := Clause.fillTimestamp_eq n
    rw [heq]
    exact hn.of_eq rfl rfl rfl
  unfold Clause.fillTimestamps
  split
  · obtain ⟨hhere, hsource, -⟩ := resolved_iff.mp (hfill h)
    refine .intro ⟨hhere.table, hhere.projection⟩ hsource fun joined hjoined => ?_
    obtain ⟨j, hj, rfl⟩ := List.mem_map.mp hjoined
    have hjoin := (resolved_iff.mp h).2.2 j hj
    split
    · exact hfill hjoin
    · exact hjoin
  · exact h

/-! ### Layers -/

theorem resolved_stack {p : Option Projection} (h : body.Resolved env)
    (hp : body.projection = none → ∀ q ∈ p, ∀ c ∈ q.columns, c.2.PlainIn body.Knows) :
    (Layers.stack p body).Resolved env := by
  cases p with
  | none => exact h
  | some p => exact resolved_select h fun hplain => hp hplain p rfl

/-- Without a projection there is nothing on the stack. -/
theorem eq_of_stack_plain {p : Option Projection} (h : (Layers.stack p m).projection = none) :
    p = none ∧ Layers.stack p m = m := by
  cases p with
  | none => exact ⟨rfl, rfl⟩
  | some p => cases h

/-- The lowest one of the layers reads the row source, and the others read what is published. -/
theorem resolved_onto {l : Layers} (hl : l.Grounded body.Knows) (h : body.Resolved env) :
    (l.onto body).Resolved env := by
  have hlayer : ∀ {layer : Option Layer} (kind : List PublishedColumn → Projection),
      (∀ columns, (kind columns).columns = columns.map fun c => (c.name, c.expr)) →
        (∀ x ∈ layer, x.PlainIn body.Knows) → ∀ q ∈ layer.map fun x => kind x.columns,
          ∀ c ∈ q.columns, c.2.PlainIn body.Knows := by
    intro layer kind hkind hknown q hq c hc
    obtain ⟨x, hx, rfl⟩ := Option.map_eq_some_iff.mp hq
    rw [hkind] at hc
    obtain ⟨column, hcolumn, rfl⟩ := List.mem_map.mp hc
    exact hknown x hx column hcolumn
  unfold Layers.onto
  extract_lets named computed main timed outer top
  have hnaming : named.projection = none → l.naming = none ∧ named = body := fun hplain =>
    (eq_of_stack_plain hplain).imp Option.map_eq_none_iff.mp id
  have hinner : computed.projection = none → l.inner = none ∧ computed = named := fun hplain =>
    (eq_of_stack_plain hplain).imp Option.map_eq_none_iff.mp id
  have hnamed : named.Resolved env :=
    resolved_stack h fun _ => hlayer .choose (fun _ => rfl) hl.naming
  have hcomputed : computed.Resolved env := resolved_stack hnamed fun hplain => by
    obtain ⟨habsent, hsame⟩ := hnaming hplain
    rw [hsame]
    exact hlayer .virtual (fun _ => rfl) (hl.inner habsent)
  have hmain : timed.Resolved env := by
    refine (resolved_select hcomputed fun hplain => ?_).of_eq rfl rfl rfl
    obtain ⟨hnone, hsame⟩ := hinner hplain
    obtain ⟨habsent, hbody⟩ := hnaming (hsame ▸ hplain)
    rw [hsame, hbody]
    exact hl.main habsent hnone
  have houter : outer.Resolved env := resolved_stack hmain fun hplain => (nomatch hplain)
  have htop : top.Resolved env := houter.of_eq rfl rfl rfl
  split
  · refine resolved_select htop fun hplain => ?_
    obtain ⟨-, hsame⟩ := eq_of_stack_plain (m := timed) (p := l.outer) hplain
    have hprojection : timed.projection = none := hsame ▸ hplain
    cases hprojection
  · exact htop

end Model

/-! ### Levels -/

namespace Clause

variable {scope : Scope} {body : Model} {interval key : Expr}

/-- The key of a `sample by` is the timestamp of the level, and it is looked up. -/
theorem sampleColumn_ok (h : sampleColumn scope body interval = .ok key) :
    body.designatedTimestamp? = some key ∧ checkTimestamp scope key = .ok () := by
  unfold sampleColumn at h
  split at h
  · cases h
  · rename_i timestamp hdesignated
    split at h
    · cases h
    · rename_i hcheck
      cases h
      exact ⟨hdesignated, hcheck⟩

theorem leadsTo_of_checkTimestamp {ref : ColumnRef} {p : Nat}
    (h : checkTimestamp scope (.column ref p) = .ok ()) : ∃ source, scope.LeadsTo ref source := by
  simp only [checkTimestamp, Expr.column?, Expr.position] at h
  split at h
  · cases h
  · rename_i resolved hresolved
    exact ⟨_, Scope.leadsTo_of_resolve hresolved⟩

end Clause

namespace Compile

variable {env : Environment} {nested : Bool} {q : Query} {c c' : Counters} {scope : Scope}
  {master body m : Model} {s : Sources}

/-- Placed joins show what the joined sources do. -/
theorem entries_placedJoins {placement : Placement} {pending : List UnplacedJoin}
    (horder : placement.order.tail.Perm (List.range' 1 pending.length)) :
    ((placedJoins placement pending).map fun j => j.model.asEntry).Perm
      (pending.map fun j => j.model.asEntry) := by
  have hentry : ∀ source (j : UnplacedJoin),
      (placedJoin placement source j).model.asEntry = j.model.asEntry :=
    fun source j => (Model.SameShown.addFilters j.model _).asEntry
  have hperm := perm_placed (pending.map fun j => j.model.asEntry) (by rwa [List.length_map])
  simpa only [placedJoins, List.map_filterMap, List.getElem?_map, Option.map_map, Function.comp_def,
    hentry] using hperm

/-- **The row source of a level has the sources of its scope**, in the order of its joins. -/
theorem perm_sources (hdeclared : declare env q c = .ok ((master, s), c'))
    (hbody : IsBody env q master s c' body) : s.scope.entries.Perm body.sources := by
  obtain ⟨placement, joined, _, hplace, hjoined, rfl⟩ := hbody
  obtain ⟨filters, conditions, constFilter, rfl⟩ := joinSources_eq hjoined
  have horder := Placement.tail_order_place hplace
  rw [List.tail_cons, List.length_map] at horder
  have hmaster := ((Model.SameShown.addFilters master filters).trans (.withFilters _ conditions)).asEntry
  rw [(Model.SameShown.fillTimestamps _).sources, Model.sources_eq, scope_declared hdeclared]
  refine .trans (.cons _ (entries_placedJoins horder).symm) (.of_eq ?_)
  exact congrArg (· :: _) hmaster.symm

/-- The timestamp that a level nominates is a column. -/
theorem isColumn_timestamp {source : Model} (h : addMaster q source c = .ok ((m, scope), c')) :
    ∀ e ∈ q.timestamp, ∃ ref p, e = .column ref p := by
  intro e he
  unfold addMaster at h
  obtain ⟨named, _, -, h⟩ := bind_eq_ok.mp h
  obtain ⟨declared, _, -, h⟩ := bind_eq_ok.mp h
  obtain ⟨stamped, _, hstamp, -⟩ := bind_eq_ok.mp h
  obtain ⟨hstamped, -⟩ := lift_eq_ok.mp hstamp
  rw [show q.timestamp = some e from he] at hstamped
  simp only [Clause.setTimestamp, Clause.inMaster] at hstamped
  cases hcolumn : e.column? with
  | none => simp [hcolumn] at hstamped
  | some ref => exact ⟨ref, Expr.column?_eq_some.mp hcolumn⟩

/-- The timestamp of a level is a column. -/
theorem isColumn_designatedTimestamp (hdeclared : declare env q c = .ok ((master, s), c'))
    (hbody : IsBody env q master s c' body) {key : Expr} (hkey : body.designatedTimestamp? = some key) :
    ∃ ref p, key = .column ref p := by
  obtain ⟨placement, joined, _, -, hjoined, rfl⟩ := hbody
  obtain ⟨_, _, _, _, -, hmaster, -⟩ := declare_ok hdeclared
  rcases designatedTimestamp?_level hdeclared hjoined hkey with hwritten | ⟨-, -, name, rfl, -⟩
  · exact isColumn_timestamp hmaster key hwritten
  · exact ⟨_, _, rfl⟩

theorem resolved_finishLevel (hbody : body.Resolved env)
    (hscope : ∀ ref, (∃ source, scope.LeadsTo ref source) → body.Knows ref)
    (hcolumn : ∀ key, body.designatedTimestamp? = some key → ∃ ref p, key = .column ref p)
    (h : finishLevel env nested scope q body = .ok m) : m.Resolved env := by
  cases hselect : q.select with
  | some select =>
    obtain ⟨key, layers, ordered, limit, timestamp, bodyLimit, hkey, hlayers, hordered, rfl⟩ :=
      finishLevel_layers hselect h
    have hleads : ∀ k ∈ key, ∀ c ∈ k.columns, ∃ source, scope.LeadsTo c.1 source := by
      intro k hk c hc
      obtain ⟨-, interval, hsampled⟩ := hkey k hk
      obtain ⟨hdesignated, hcheck⟩ := Clause.sampleColumn_ok hsampled
      obtain ⟨ref, p, rfl⟩ := hcolumn k hdesignated
      obtain rfl := List.mem_singleton.mp hc
      exact Clause.leadsTo_of_checkTimestamp hcheck
    have hlayered : { layers with sampleBy := q.sampleBy }.Grounded
        fun ref => ∃ source, scope.LeadsTo ref source := by
      have hgrounded := (Layers.ofSelect_ok hlayers).grounded hleads
      exact ⟨hgrounded.naming, hgrounded.inner, hgrounded.main, hgrounded.rowwise⟩
    have hfinal : ordered.Grounded fun ref => ∃ source, scope.LeadsTo ref source :=
      Clause.orderLayers_keeps
        (P := Layers.Grounded fun ref => ∃ source, scope.LeadsTo ref source)
        (fun p hleads hl => hl.publishHidden hleads p)
        (fun _ hl => ⟨hl.naming, hl.inner, hl.main, hl.rowwise⟩) hlayered hordered
    have hsame : body.SameShown { body with timestamp := timestamp, limit := bodyLimit } :=
      .of_eq rfl rfl rfl rfl
    have hknown := hfinal.mono fun ref href => by
      have hleads := hscope ref href
      rwa [Model.Knows, ← hsame.sources] at hleads
    exact Model.resolved_onto ⟨hknown.naming, hknown.inner, hknown.main, hknown.rowwise⟩
      (hbody.of_eq rfl rfl rfl)
  | none =>
    obtain ⟨timestamp, sampleBy, orderBy, limit, rfl⟩ := finishLevel_clauses hselect h
    exact hbody.of_eq rfl rfl rfl

theorem resolved_addMaster {source : Model} (hsource : source.Resolved env)
    (h : addMaster q source c = .ok ((master, scope), c')) : master.Resolved env := by
  obtain ⟨_, _, -, rfl⟩ := addMaster_eq h
  exact hsource.of_eq rfl rfl rfl

theorem resolved_joinSources {pending : List UnplacedJoin} {placement : Placement}
    (hm : master.Resolved env) (hjoined : ∀ j ∈ pending, j.model.Resolved env)
    (h : joinSources env master pending placement c = .ok (m, c')) : m.Resolved env := by
  obtain ⟨filters, conditions, constFilter, rfl⟩ := joinSources_eq h
  obtain ⟨hhere, hs, -⟩ := Model.resolved_iff.mp ((hm.addFilters filters).withFilters conditions)
  refine .intro ⟨hhere.table, hhere.projection⟩ hs fun j hj => ?_
  obtain ⟨unplaced, hunplaced, filters, -, hmodel⟩ := mem_placedJoins hj
  rw [hmodel]
  exact (hjoined unplaced hunplaced).addFilters filters

/-- **Every level resolves its references**, also after its sources are joined in another order. -/
theorem resolved_levels : LevelInvariant env (Model.Resolved env) fun _ m => m.Resolved env where
  table := Model.resolved_ofTable
  nested := Model.resolved_nested
  level hsource hresolved hmaster hsources hjoined h := by
    obtain ⟨placement, body, hplace, hbody, h⟩ := modelOfLevel_ok h
    have hdeclared := declare_of_ok hsource hmaster hsources
    have hisBody : IsBody env _ _ _ _ _ := ⟨placement, body, _, hplace, hbody, rfl⟩
    have hjoins := resolved_joinSources (resolved_addMaster hresolved hmaster) (fun j hj => by
      obtain ⟨joined, name, hjoin, hmodel⟩ := hjoined j hj
      rw [hmodel]
      exact hjoin.of_eq rfl rfl rfl) hbody
    exact resolved_finishLevel hjoins.fillTimestamps
      (fun ref href => Scope.leadsTo_of_perm (perm_sources hdeclared hisBody) href)
      (fun key hkey => isColumn_designatedTimestamp hdeclared hisBody hkey) h

end Compile

/-- A compiled query is resolved. -/
theorem Query.compile_resolved {env : Environment} {q : Query} {m : Model}
    (h : q.compile env = .ok m) : m.Resolved env := by
  obtain ⟨⟨built, c⟩, hbuilt, h⟩ := Except.bind_eq_ok.mp h
  cases h
  exact (Compile.resolved_levels.modelOfQuery q hbuilt).eliminateOrders false

end SeriesQuery
