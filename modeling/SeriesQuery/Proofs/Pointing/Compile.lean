import SeriesQuery.Proofs.OutputNames
import SeriesQuery.Proofs.Placement.Criteria
import SeriesQuery.Proofs.Pointing.Clauses

/-!
Where the errors of a statement are.

An error is at an offset of the statement text, where the part that is wrong starts, with one exception
(`compile_error_position`). The `sample by` of a level without a `timestamp` clause groups on the
designated timestamp of the table that the level reads. Nobody wrote that column, it is at offset zero,
and so is the error if it is not of type timestamp or if a table that is joined by time has a column of
its name (`supplied_timestamp_unplaced`).
-/

namespace SeriesQuery

variable {P : Nat → Prop}

/-! ### Timestamps that nobody wrote -/

/-- The `sample by` of the level groups on the designated timestamp of the table that the level reads,
which the compiler supplies. -/
structure Query.SuppliesTimestamp (env : Environment) (q : Query) (name : String) : Prop where
  sampled : q.sampleBy.isSome = true
  unwritten : q.timestamp = none
  designated : q.source.timestamp? env = some (.column (.plain name) 0)

/-- The errors of a timestamp that the compiler supplies, all at offset zero. -/
inductive Query.SupplyFault (env : Environment) (q : Query) : SqlError → Prop where
  /-- Its type is not `TIMESTAMP`. -/
  | notATimestamp {name : String} (h : q.SuppliesTimestamp env name) :
      SupplyFault env q ⟨0, .notATimestamp name⟩
  /-- A join by time needs it too, and what is joined has a column of its name. -/
  | ambiguous {name : String} (h : q.SuppliesTimestamp env name)
      (hjoin : ∃ j ∈ q.joins, j.kind.matchesByTime = true) :
      SupplyFault env q ⟨0, .ambiguousColumn name⟩

/-- The error is at an offset of `P`, or it is that of a timestamp which the compiler supplies to one of
the levels. -/
def Reports (env : Environment) (P : Nat → Prop) (levels : List Query) (e : SqlError) : Prop :=
  P e.position ∨ ∃ level ∈ levels, level.SupplyFault env e

theorem Reports.mono {env : Environment} {levels more : List Query} (hsub : levels ⊆ more)
    {e : SqlError} (h : Reports env P levels e) : Reports env P more e :=
  h.imp id fun ⟨level, hlevel, hfault⟩ => ⟨level, hsub hlevel, hfault⟩

theorem Table.find?_designatedTimestamp {t : Table} {name : String}
    (h : t.designatedTimestamp? = some name) : (ShownColumn.find? t.shownColumns name).isSome = true := by
  obtain ⟨index, -, h⟩ := Option.bind_eq_some_iff.mp h
  obtain ⟨column, hcolumn, rfl⟩ := Option.map_eq_some_iff.mp h
  rw [ShownColumn.find?, List.find?_isSome]
  exact ⟨⟨column.name, some column.type⟩,
    List.mem_map.mpr ⟨column, List.mem_of_getElem? hcolumn, rfl⟩, Ascii.same_self _⟩

namespace Compile

variable {env : Environment} {nested : Bool} {q : Query} {c c' : Counters} {α β : Type}
  {E : SqlError → Prop}

theorem bind_fails {x : CompileM α} {f : α → CompileM β} (hx : FailsIn E (x c))
    (hf : ∀ a c', x c = .ok (a, c') → FailsIn E (f a c')) : FailsIn E ((x >>= f) c) :=
  FailsIn.bind hx fun r hr => hf r.1 r.2 hr

theorem lift_fails {x : Except SqlError α} (hx : FailsIn E x) :
    FailsIn E ((liftM x : CompileM α) c) := by
  cases hrun : x with
  | ok a => exact .ok _ _
  | error e => exact .error (hx e hrun)

/-! ### Sources -/

theorem nameSource_fails (m : Model) (given : Option Ident) (needsName : Bool) :
    FailsIn E (nameSource m given needsName c) := by
  unfold nameSource
  dsimp only
  split
  · exact .ok _ _
  · exact .ok _ _

theorem modelOfTable_fails {name : Ident} (h : P name.position) :
    FailsIn (SqlError.At P) (modelOfTable env name) := by
  unfold modelOfTable
  split
  · exact .ok _ _
  · exact .error h

theorem addMaster_fails (h : q.Located P) (m : Model) : FailsIn (SqlError.At P) (addMaster q m c) := by
  unfold addMaster
  refine bind_fails (nameSource_fails _ _ _) fun named _ _ => ?_
  refine bind_fails (lift_fails (Scope.declare_fails _ _ h.givenName)) fun scope _ _ => ?_
  refine bind_fails (lift_fails (Clause.setTimestamp_fails h.timestamp _)) fun stamped _ _ => ?_
  refine bind_fails (lift_fails (Clause.setLatestBy_fails h.latestBy _)) fun latest _ _ => ?_
  exact .ok _ _

theorem addJoin_fails (master : Model) {j : JoinOf Query} (h : j.Located P) (m : Model) (s : Sources) :
    FailsIn (SqlError.At P) (addJoin master j m s c) := by
  unfold addJoin
  refine bind_fails (nameSource_fails _ _ _) fun named _ _ => ?_
  refine bind_fails (lift_fails (Scope.declare_fails _ _ h.givenName)) fun scope _ _ => ?_
  exact .ok _ _

/-- What declaring one join keeps is kept by declaring joins from left to right. -/
theorem sourcesOfJoins_keeps {master : Model} {I : Sources → Prop} {Q : JoinOf Query → Prop}
    (step : ∀ {j m s s' c c'}, Q j → I s → addJoin master j m s c = .ok (s', c') → I s') :
    ∀ (joins : List (JoinOf Query)) {s s' : Sources} {c c' : Counters}, (∀ j ∈ joins, Q j) → I s →
      sourcesOfJoins env master joins s c = .ok (s', c') → I s'
  | [], s, s', c, c', _, hs, h => by
    rw [sourcesOfJoins] at h
    cases h
    exact hs
  | ⟨kind, position, source, givenName, condition⟩ :: joins, s, s', c, c', hjoins, hs, h => by
    obtain ⟨hj, hjoins⟩ := List.forall_mem_cons.mp hjoins
    rw [sourcesOfJoins] at h
    obtain ⟨m, _, hm, h⟩ := bind_eq_ok.mp h
    obtain ⟨added, _, hadded, h⟩ := bind_eq_ok.mp h
    exact sourcesOfJoins_keeps step joins hjoins (step hj hs hadded) h

theorem located_onConjuncts (index : Nat) (joined master : Model) {condition : Option JoinCondition}
    (h : ∀ on ∈ condition, on.Located P) :
    ∀ k ∈ onConjuncts index joined master condition, k.Located P := by
  cases condition with
  | none => exact List.forall_mem_nil _
  | some condition =>
    have hcondition := h condition rfl
    cases condition with
    | on e => exact Conjunct.located_ofCondition hcondition
    | columns names =>
      refine List.forall_mem_map.mpr fun name hname ref href => ?_
      have hname : P name.position := hcondition name hname
      have hsides : ref ∈ (sharedColumn joined master name).columns := href
      simp only [sharedColumn, Expr.equality, Expr.columns, List.mem_append, List.mem_singleton] at hsides
      rcases hsides with rfl | rfl <;> exact hname

theorem located_addJoin {master m : Model} {j : JoinOf Query} {s s' : Sources} (hj : j.Located P)
    (hs : ∀ k ∈ s.conjuncts, k.Located P) (h : addJoin master j m s c = .ok (s', c')) :
    ∀ k ∈ s'.conjuncts, k.Located P := by
  obtain ⟨named, -, -, -, hconjuncts⟩ := addJoin_ok h
  rw [hconjuncts]
  exact List.forall_mem_append.mpr ⟨hs, located_onConjuncts _ _ _ hj.condition⟩

/-- The conjuncts of a level are written where its conditions are. -/
theorem located_levelConjuncts {master : Model} {s : Sources} (h : q.Located P)
    (hdeclared : declare env q c = .ok ((master, s), c')) : ∀ k ∈ levelConjuncts q s, k.Located P := by
  obtain ⟨_, _, scope, _, -, -, hjoins⟩ := declare_ok hdeclared
  refine List.forall_mem_append.mpr ⟨?_, ?_⟩
  · exact sourcesOfJoins_keeps (I := fun s => ∀ k ∈ s.conjuncts, k.Located P) located_addJoin q.joins
      h.joins (List.forall_mem_nil _) hjoins
  · cases hfilter : q.filter with
    | none => exact List.forall_mem_nil _
    | some filter => exact Conjunct.located_ofCondition (h.filter filter hfilter)

/-! ### The timestamp of a level -/

/-- A source is joined as a join of the query says. -/
theorem kinds_declare {master : Model} {s : Sources}
    (hdeclared : declare env q c = .ok ((master, s), c')) :
    ∀ pending ∈ s.joins, ∃ j ∈ q.joins, pending.kind = j.kind := by
  obtain ⟨_, _, scope, _, -, -, hjoins⟩ := declare_ok hdeclared
  refine sourcesOfJoins_keeps (I := fun s => ∀ pending ∈ s.joins, ∃ j ∈ q.joins, pending.kind = j.kind)
    (Q := (· ∈ q.joins)) ?_ q.joins (fun _ hj => hj) (List.forall_mem_nil _) hjoins
  intro j m s s' c c' hj hs hadded
  obtain ⟨name, hjoins, -⟩ := addJoin_eq hadded
  rw [hjoins]
  exact List.forall_mem_append.mpr ⟨hs, List.forall_mem_singleton.mpr ⟨j, hj, rfl⟩⟩

/-- No join is lost when it is placed. -/
theorem placedJoins_ne_nil {placement : Placement} {pending : List UnplacedJoin}
    (horder : placement.order.tail.Perm (List.range' 1 pending.length)) (h : pending ≠ []) :
    placedJoins placement pending ≠ [] := by
  obtain ⟨first, rest, rfl⟩ := List.exists_cons_of_ne_nil h
  have hfirst : 1 ∈ placement.order.tail := horder.mem_iff.mpr (by simp)
  have hplaced : placedJoin placement 1 first ∈ placedJoins placement (first :: rest) :=
    List.mem_filterMap.mpr ⟨1, hfirst, rfl⟩
  exact List.ne_nil_of_mem hplaced

/-- A level with joins that nominates no timestamp has one only if it joins by time. -/
theorem joinsByTime_of_designated {master body : Model} {s : Sources} {placement : Placement}
    {key : Expr} (hdeclared : declare env q c = .ok ((master, s), c'))
    (hplace : Placement.place s.scope (none :: s.joins.map fun j => some j.kind)
      (levelConjuncts q s) = .ok placement)
    {c₁ c₂ : Counters} (hbody : joinSources env master s.joins placement c₁ = .ok (body, c₂))
    (hmaster : master.timestamp = none) (hs : s.joins ≠ [])
    (hkey : (Clause.fillTimestamps body).designatedTimestamp? = some key) :
    ∃ j ∈ q.joins, j.kind.matchesByTime = true := by
  obtain ⟨htimestamp, -⟩ := timestamp_joinSources hbody
  obtain ⟨filters, conditions, constFilter, rfl⟩ := joinSources_eq hbody
  have horder := Placement.tail_order_place hplace
  rw [List.tail_cons, List.length_map] at horder
  have hjoins := placedJoins_ne_nil horder hs
  unfold Clause.fillTimestamps at hkey
  split at hkey
  · rename_i hany
    obtain ⟨placed, hplaced, htime⟩ := List.any_eq_true.mp hany
    obtain ⟨pending, hpending, -, hkind, -⟩ := mem_placedJoins hplaced
    obtain ⟨j, hj, hsame⟩ := kinds_declare hdeclared pending hpending
    exact ⟨j, hj, by rwa [← hsame, ← hkind]⟩
  · rw [Model.designatedTimestamp?, htimestamp, hmaster] at hkey
    simp [hjoins] at hkey

/-- The sources of the scope of a level are its master and what is joined to it. -/
theorem entries_declare {master : Model} {s : Sources}
    (hdeclared : declare env q c = .ok ((master, s), c')) :
    ∃ entries, s.scope.entries = ⟨master.name?, master.ownColumns⟩ :: entries ∧
      (entries ≠ [] → s.joins ≠ []) := by
  have hopens : Opens env q c s.scope _ := .sources hdeclared
  cases hentries : s.scope.entries with
  | nil =>
    have hnone := hopens.entries
    rw [hentries] at hnone
    cases hnone
  | cons entry entries =>
    have hall := hopens.entries
    rw [hentries, List.forall₂_cons] at hall
    obtain ⟨hmaster, hjoined⟩ := hall
    refine ⟨entries, by rw [hmaster.entry], fun hne hnil => hne ?_⟩
    rw [hnil, List.map_nil] at hjoined
    exact List.forall₂_nil_right_iff.mp hjoined

/-- The master of a level that reads a table has the columns of the table. -/
theorem column?_supplied {master : Model} {s : Sources} {name : String}
    (hdeclared : declare env q c = .ok ((master, s), c'))
    (h : q.source.timestamp? env = some (.column (.plain name) 0)) :
    (ScopeEntry.column? ⟨master.name?, master.ownColumns⟩ name).isSome = true := by
  obtain ⟨m, _, scope, _, hsource, hmaster, -⟩ := declare_ok hdeclared
  obtain ⟨_, _, -, rfl⟩ := addMaster_eq hmaster
  cases hq : q.source with
  | query inner =>
    rw [hq] at h
    cases h
  | table table =>
    rw [hq, modelOfSource] at hsource
    rw [hq, SourceOf.timestamp?] at h
    obtain ⟨hsource, -⟩ := lift_eq_ok.mp hsource
    unfold modelOfTable at hsource
    split at hsource
    · rename_i found hfound
      cases hsource
      rw [hfound] at h
      obtain ⟨column, hcolumn, heq⟩ := Option.map_eq_some_iff.mp h
      cases heq
      exact Table.find?_designatedTimestamp hcolumn
    · cases hsource

/-- The timestamp of a level is written on it, or it is that of the table which the level reads. -/
theorem designatedTimestamp?_level {master body : Model} {s : Sources} {placement : Placement}
    (hdeclared : declare env q c = .ok ((master, s), c'))
    {c₁ c₂ : Counters} (hbody : joinSources env master s.joins placement c₁ = .ok (body, c₂)) {key : Expr}
    (hkey : (Clause.fillTimestamps body).designatedTimestamp? = some key) :
    q.timestamp = some key ∨
      q.timestamp = none ∧ master.timestamp = none ∧
        ∃ name, key = .column (.plain name) 0 ∧ q.source.timestamp? env = some key := by
  obtain ⟨m, _, scope, _, hsource, hmaster, -⟩ := declare_ok hdeclared
  obtain ⟨hnone, htable⟩ := timestamp_modelOfSource hsource
  obtain ⟨hkept, hkeptTable⟩ := timestamp_joinSources hbody
  have htimestamp := designatedTimestamp?_eq hkey
  rw [timestamp_fillTimestamps, hkept, hkeptTable] at htimestamp
  obtain ⟨_, _, -, hmodel⟩ := addMaster_eq hmaster
  cases hwritten : q.timestamp with
  | some written =>
    refine .inl ?_
    simpa [hmodel, hwritten] using htimestamp
  | none =>
    have hmasterNone : master.timestamp = none := by rw [hmodel, hwritten, hnone]; rfl
    have hsupplied : q.source.timestamp? env = some key := by
      rw [hmasterNone, hmodel] at htimestamp
      exact htable ▸ htimestamp
    refine .inr ⟨rfl, hmasterNone, ?_⟩
    cases hsourceOf : q.source with
    | query inner =>
      rw [hsourceOf] at hsupplied
      cases hsupplied
    | table table =>
      rw [hsourceOf] at hsupplied
      obtain ⟨name, -, rfl⟩ := Option.map_eq_some_iff.mp hsupplied
      exact ⟨name, rfl, hsupplied⟩

/-- A supplied timestamp is a column of the table; what can be wrong with it is its type, or a column of
its name in something that is joined. -/
theorem checkSupplied_fails {scope : Scope} {entry : ScopeEntry} {entries : List ScopeEntry}
    {name : String} (hentries : scope.entries = entry :: entries)
    (hcolumn : (entry.column? name).isSome = true) (h : q.SuppliesTimestamp env name)
    (hjoin : entries ≠ [] → ∃ j ∈ q.joins, j.kind.matchesByTime = true) :
    FailsIn (q.SupplyFault env) (Clause.checkTimestamp scope (.column (.plain name) 0)) := by
  have hresolve := Scope.resolve_plain_fails hentries hcolumn 0
  simp only [Clause.checkTimestamp, Expr.column?, Expr.position]
  split
  · rename_i e he
    obtain ⟨rfl, hne⟩ := hresolve e he
    exact .error (.ambiguous h (hjoin hne))
  · split
    · exact .error (.notATimestamp h)
    · exact .ok _ _

/-- The key of a `sample by` is checked where it is written, or it is a timestamp that the compiler
supplies. -/
theorem sampleColumn_fails {master body : Model} {s : Sources} {placement : Placement}
    (hq : q.Located P) (hdeclared : declare env q c = .ok ((master, s), c'))
    (hplace : Placement.place s.scope (none :: s.joins.map fun j => some j.kind)
      (levelConjuncts q s) = .ok placement)
    {c₁ c₂ : Counters} (hbody : joinSources env master s.joins placement c₁ = .ok (body, c₂))
    {interval : Expr} (hinterval : q.sampleBy = some interval) :
    FailsIn (fun e => P e.position ∨ q.SupplyFault env e)
      (Clause.sampleColumn s.scope (Clause.fillTimestamps body) interval) := by
  unfold Clause.sampleColumn
  split
  · exact .error (.inl (hq.sampleBy interval hinterval).position)
  · rename_i key hkey
    suffices hcheck : FailsIn (fun e => P e.position ∨ q.SupplyFault env e)
        (Clause.checkTimestamp s.scope key) by
      split
      · rename_i e he
        exact .error (hcheck e he)
      · exact .ok _ _
    rcases designatedTimestamp?_level hdeclared hbody hkey with
      hwritten | ⟨hunwritten, hmaster, name, rfl, hsupplied⟩
    · have hlocated := hq.timestamp key hwritten
      exact (Clause.checkTimestamp_fails hlocated.position).mono fun _ => .inl
    · obtain ⟨entries, hentries, hjoined⟩ := entries_declare hdeclared
      have hcolumn := column?_supplied hdeclared hsupplied
      have hsupplies : q.SuppliesTimestamp env name := ⟨by rw [hinterval]; rfl, hunwritten, hsupplied⟩
      refine (checkSupplied_fails hentries hcolumn hsupplies fun hne => ?_).mono fun _ => .inr
      exact joinsByTime_of_designated hdeclared hplace hbody hmaster (hjoined hne) hkey

/-! ### Levels -/

/-- The clauses behind the sources of a level fail where they are written, if the key of its
`sample by` does. -/
theorem finishLevel_fails (hE : ∀ e, SqlError.At P e → E e) (hq : q.Located P) (nested : Bool)
    {scope : Scope} {body : Model} (hwaits : Clause.WaitsAt P body)
    (hcolumn : ∀ interval, q.sampleBy = some interval →
      FailsIn E (Clause.sampleColumn scope body interval)) :
    FailsIn E (finishLevel env nested scope q body) := by
  unfold finishLevel
  cases hselect : q.select with
  | some select =>
    have hlocated := hq.select select hselect
    simp -zeta only
    extract_lets maxColumns layered
    have hlayered : ∀ key body', Clause.WaitsAt P body' → FailsIn E (layered (key, body')) := by
      intro key body' hbody'
      refine .bind ((Layers.ofSelect_fails hlocated key).mono hE) fun layers _ => ?_
      refine .bind ((Clause.checkSampleBelow_fails _ nested hbody').mono hE) fun _ _ => ?_
      refine .bind ((Clause.orderLayers_fails _ hq.orderBy _).mono hE) fun ordered _ => ?_
      exact .ok _ _
    split
    · rename_i interval hinterval
      have hset := Clause.setSampleBy_fails hE hlocated (hq.sampleBy interval hinterval)
        (hcolumn interval hinterval)
      refine .bind hset fun r hr => hlayered _ _ ?_
      obtain ⟨-, hbody'⟩ := Clause.setSampleBy_ok hr
      rw [hbody']
      exact hwaits.congr rfl rfl rfl
    · exact hlayered none body hwaits
  | none =>
    simp -zeta only
    extract_lets maxColumns plain
    have hplain : ∀ body', Clause.WaitsAt P body' → FailsIn E (plain body') := by
      intro body' hbody'
      refine .bind ((Clause.checkSampleBelow_fails _ nested hbody').mono hE) fun _ _ => ?_
      refine .bind ((Clause.orderBody_fails _ hq.orderBy _).mono hE) fun ordered _ => ?_
      exact .ok _ _
    split
    · rename_i interval hinterval
      have hleave := Clause.leaveSampleBy_fails hE nested (hq.sampleBy interval hinterval)
        (hcolumn interval hinterval)
      refine .bind hleave fun body' hbody' => hplain _ ?_
      obtain ⟨key, rfl⟩ := Clause.leaveSampleBy_ok hbody'
      intro i hi
      rw [Clause.pendingSampleBy?_left rfl hi]
      exact (hq.sampleBy interval hinterval).position
    · exact hplain body hwaits

/-- What a level reads leaves no interval to it that is not written on one of its levels. -/
theorem waitsAt_body {master body : Model} {s : Sources} {placement : Placement}
    (hq : q.LocatedThroughout P) (hdeclared : declare env q c = .ok ((master, s), c'))
    {c₁ c₂ : Counters} (hbody : joinSources env master s.joins placement c₁ = .ok (body, c₂)) :
    Clause.WaitsAt P (Clause.fillTimestamps body) := by
  obtain ⟨m, _, scope, _, hsource, hmaster, -⟩ := declare_ok hdeclared
  obtain ⟨_, _, -, rfl⟩ := addMaster_eq hmaster
  have hsourceWaits : Clause.WaitsAt P m := by
    intro i hi
    obtain ⟨level, hlevel, hsample⟩ := pendingSampleBy?_modelOfSource q.source hsource hi
    have hbelow : level ∈ levelsOfQuery q := mem_levelsOfQuery.mpr (.inr (.inl hlevel))
    exact ((hq level hbelow).sampleBy i hsample).position
  rw [Clause.WaitsAt, Clause.pendingSampleBy?_fillTimestamps, pendingSampleBy?_joinSources hbody]
  exact hsourceWaits.congr rfl rfl rfl

/-- Placed joins can always be put together. -/
theorem joinSources_ok (env : Environment) (master : Model) (pending : List UnplacedJoin)
    (placement : Placement) (c : Counters) : ∃ r, joinSources env master pending placement c = .ok r := by
  obtain ⟨⟨added, c'⟩, hadded⟩ := sentinels_ok env.settings.synthesizeCrossJoinSentinels
    (placedJoins placement pending) c
  exact ⟨_, bind_of_ok hadded⟩

theorem modelOfLevel_fails {master : Model} {s : Sources} (hq : q.LocatedThroughout P) (nested : Bool)
    (hdeclared : declare env q c = .ok ((master, s), c')) :
    FailsIn (Reports env P (levelsOfQuery q)) (modelOfLevel env nested q master s c') := by
  have hself : q ∈ levelsOfQuery q := mem_levelsOfQuery.mpr (.inl rfl)
  have hlocated := hq q hself
  have hconditions := Placement.place_fails s.scope (none :: s.joins.map fun j => some j.kind)
    (located_levelConjuncts hlocated hdeclared)
  refine bind_fails (lift_fails (hconditions.mono fun _ => .inl)) fun placement c₁ hlifted => ?_
  obtain ⟨hplace, rfl⟩ := lift_eq_ok.mp hlifted
  obtain ⟨⟨body, c₂⟩, hbody⟩ := joinSources_ok env master s.joins placement c'
  rw [bind_of_ok hbody]
  apply lift_fails
  refine finishLevel_fails (fun e he => .inl he) hlocated nested (waitsAt_body hq hdeclared hbody) ?_
  intro interval hinterval
  have hkey := sampleColumn_fails hlocated hdeclared hplace hbody hinterval
  exact hkey.mono fun e => Or.imp id fun hfault => ⟨q, hself, hfault⟩

mutual

/-- **The errors of a query are where it is written**, or they are those of supplied timestamps. -/
theorem modelOfQuery_fails : ∀ (q : Query), q.LocatedThroughout P → ∀ (nested : Bool) (c : Counters),
    FailsIn (Reports env P (levelsOfQuery q)) (modelOfQuery env nested q c)
  | ⟨position, select, source, givenName, timestamp, latestBy, joins, filter, sampleBy, orderBy,
      limit⟩, hq, nested, c => by
    have hlocated := hq _ (mem_levelsOfQuery.mpr (.inl rfl))
    have hsource := modelOfSource_fails source
      ⟨hlocated.source, fun level hlevel => hq level (mem_levelsOfQuery.mpr (.inr (.inl hlevel)))⟩ c
    rw [modelOfQuery_eq]
    refine bind_fails ?_ fun r c' hdeclared => modelOfLevel_fails hq nested hdeclared
    refine bind_fails (hsource.mono fun _ => Reports.mono ?_) fun m c₁ _ => ?_
    · exact fun level hlevel => mem_levelsOfQuery.mpr (.inr (.inl hlevel))
    refine bind_fails ((addMaster_fails hlocated m).mono fun _ => .inl) fun r c₂ _ => ?_
    have hjoins := sourcesOfJoins_fails r.1 joins (fun j hj => ⟨hlocated.joins j hj,
      fun level hlevel => hq level (mem_levelsOfQuery.mpr (.inr (.inr (mem_levelsOfJoins.mpr
        ⟨j, hj, hlevel⟩))))⟩) ⟨r.2, [], []⟩ c₂
    refine bind_fails (hjoins.mono fun _ => Reports.mono ?_) fun _ _ _ => .ok _ _
    exact fun level hlevel => mem_levelsOfQuery.mpr (.inr (.inr hlevel))

theorem modelOfSource_fails : ∀ (source : SourceOf Query), Query.SourceLocated P source →
    ∀ c : Counters, FailsIn (Reports env P (levelsOfSource source)) (modelOfSource env source c)
  | .table name, hsource, c => by
    rw [modelOfSource]
    exact lift_fails ((modelOfTable_fails (hsource.named name rfl)).mono fun _ => .inl)
  | .query q, hsource, c => by
    have hlevels := hsource.levels
    rw [levelsOfSource] at hlevels ⊢
    rw [modelOfSource]
    exact bind_fails (modelOfQuery_fails q hlevels true c) fun _ _ _ => .ok _ _

theorem sourcesOfJoins_fails (master : Model) : ∀ (joins : List (JoinOf Query)),
    (∀ j ∈ joins, j.Located P ∧ ∀ level ∈ levelsOfSource j.source, level.Located P) →
      ∀ (s : Sources) (c : Counters),
        FailsIn (Reports env P (levelsOfJoins joins)) (sourcesOfJoins env master joins s c)
  | [], _, s, c => by
    rw [sourcesOfJoins]
    exact .ok _ _
  | ⟨kind, position, source, givenName, condition⟩ :: joins, hjoins, s, c => by
    obtain ⟨⟨hj, hlevels⟩, hjoins⟩ := List.forall_mem_cons.mp hjoins
    rw [sourcesOfJoins, levelsOfJoins]
    have hsource := modelOfSource_fails source ⟨hj.source, hlevels⟩ c
    refine bind_fails (hsource.mono fun _ => Reports.mono (List.subset_append_left _ _)) fun m c₁ _ => ?_
    refine bind_fails ((addJoin_fails master hj m s).mono fun _ => .inl) fun added c₂ _ => ?_
    have hrest := sourcesOfJoins_fails master joins hjoins added c₂
    exact hrest.mono fun _ => Reports.mono (List.subset_append_right _ _)

end

end Compile

/-! ### Statements -/

/-- **Every error points into the statement.** It is where a token of the text starts, where a missing
token is reported, or where the text cannot be read as tokens. The only other errors are those of a
timestamp that the compiler supplies for the `sample by` of a level. -/
theorem compile_error_position {env : Environment} {sql : String} {e : SqlError}
    (h : compile env sql = .error e) :
    e.position ∈ Cursor.offsetsOf sql ∨
      ∃ q, Statement.ofText sql = .ok (.query q) ∧
        ∃ level ∈ Compile.levelsOfQuery q, level.SupplyFault env e := by
  have hread := Statement.located_ofText sql
  unfold compile at h
  cases hstatement : Statement.ofText sql with
  | error e' =>
    rw [hstatement] at h hread
    cases h
    exact .inl hread
  | ok statement =>
    rw [hstatement] at h hread
    cases statement with
    | createTable d =>
      have hfails : FailsIn (SqlError.At (· ∈ Cursor.offsetsOf sql))
          (Statement.compile env (.createTable d)) :=
        .bind (TableDefinition.ofDeclaration_fails env.settings hread) fun _ _ => .ok _ _
      exact .inl (hfails e h)
    | query q =>
      have hmodel : FailsIn (Reports env (· ∈ Cursor.offsetsOf sql) (Compile.levelsOfQuery q))
          (Compile.modelOfQuery env false q ⟨0, 0⟩) := Compile.modelOfQuery_fails q hread false ⟨0, 0⟩
      have hfails : FailsIn (Reports env (· ∈ Cursor.offsetsOf sql) (Compile.levelsOfQuery q))
          (Statement.compile env (.query q)) :=
        .bind (.bind hmodel fun _ _ => .ok _ _) fun _ _ => .ok _ _
      exact (hfails e h).imp id fun hfault => ⟨q, rfl, hfault⟩

/-- An error that a test finds. -/
theorem exists_error (env : Environment) (sql : String) (p : SqlError → Bool)
    (h : (match compile env sql with
      | .ok _ => false
      | .error e => p e) = true) :
    ∃ e, compile env sql = .error e ∧ p e = true := by
  split at h
  · cases h
  · rename_i e he
    exact ⟨e, he, h⟩

/-- A table without a designated timestamp leaves the interval without a key. -/
theorem compile_error_position_unstamped :
    ∃ e, compile ticksEnvironment " select sum(a) from ticks sample by 1h" = .error e ∧
      e.fault = .timestampNotDefined ∧
      e.position ∈ Cursor.offsetsOf " select sum(a) from ticks sample by 1h" := by
  obtain ⟨e, he, hfault⟩ := exists_error ticksEnvironment " select sum(a) from ticks sample by 1h"
    (fun e => e.fault = .timestampNotDefined) (by decide +kernel)
  have hfault := of_decide_eq_true hfault
  refine ⟨e, he, hfault, (compile_error_position he).resolve_right ?_⟩
  rintro ⟨q, -, level, -, hsupplied⟩
  cases hsupplied <;> cases hfault

/-- Tables of trades and of quotes that call their time alike. -/
def tapeEnvironment : Environment where
  table? name :=
    if Ascii.same name "trades" then
      some ((((Table.empty "trades").withColumn "price" .double).withColumn "ts" .timestamp).withTimestamp "ts")
    else if Ascii.same name "quotes" then
      some ((((Table.empty "quotes").withColumn "bid" .double).withColumn "ts" .timestamp).withTimestamp "ts")
    else none
  settings := .standard

/-- The timestamp that is supplied for the interval is a column of both tables; the error is in front of
the first token. -/
theorem supplied_timestamp_unplaced :
    ∃ e, compile tapeEnvironment " select sum(price) from trades asof join quotes sample by 1h" =
        .error e ∧
      e = ⟨0, .ambiguousColumn "ts"⟩ ∧
      e.position ∉ Cursor.offsetsOf " select sum(price) from trades asof join quotes sample by 1h" := by
  obtain ⟨e, he, hfault⟩ := exists_error tapeEnvironment
    " select sum(price) from trades asof join quotes sample by 1h"
    (fun e => e = ⟨0, .ambiguousColumn "ts"⟩) (by decide +kernel)
  have hfault := of_decide_eq_true hfault
  refine ⟨e, he, hfault, ?_⟩
  rw [hfault]
  decide +kernel

end SeriesQuery
