import SeriesQuery.Proofs.Candidates
import SeriesQuery.Proofs.Rejection

/-!
What the references of a statement mean.

While a level is compiled its references are looked up in the scope of its master and then in that of
all its sources (`Compile.Opens`). An accepted reference matches columns of one source alone; they are
more than one if tables or select lists that stand side by side in the source share the name, and then
the first one is meant silently (`repeated_name_accepted`). Columns in two sources end the compilation
(`Query.compile_reference`).
-/

namespace SeriesQuery

namespace Compile

variable {env : Environment} {nested : Bool} {q : Query} {scope : Scope} {sources : List Model}
  {c c' : Counters}

/-! ### Scopes that are opened -/

/-- While a level is compiled with the counters given, its references are looked up in a scope of
the sources given. -/
inductive Opens (env : Environment) (q : Query) (c : Counters) : Scope → List Model → Prop where
  /-- For the columns of the master. -/
  | master {m master : Model} {scope : Scope} {c₁ c₂ : Counters}
      (hsource : modelOfSource env q.source c = .ok (m, c₁))
      (hmaster : addMaster q m c₁ = .ok ((master, scope), c₂)) : Opens env q c scope [master]
  /-- For everything else. -/
  | sources {master : Model} {s : Sources} {c' : Counters}
      (hdeclared : declare env q c = .ok ((master, s), c')) :
      Opens env q c s.scope (master :: s.joins.map UnplacedJoin.model)

/-- A source as a scope sees it. -/
structure IsEntry (entry : ScopeEntry) (m : Model) : Prop where
  entry : entry = ⟨m.name?, m.ownColumns⟩
  projection : m.projection = none
  formed : m.Formed .source

theorem isEntry_source {source : SourceOf Query} {m n : Model}
    (h : modelOfSource env source c = .ok (m, c')) (hp : n.projection = m.projection)
    (hs : n.source = m.source) (hj : n.joins = m.joins) :
    IsEntry ⟨n.name?, n.ownColumns⟩ n := by
  obtain ⟨halone, hformed⟩ := formed_levels.modelOfSource source h
  have hplain : n.projection = none := hp.trans halone.projection
  obtain ⟨-, hbelow, -⟩ := (Model.formed_rows_iff halone.projection).mp hformed
  have hjoins : n.joins = [] := hj.trans halone.joins
  refine ⟨rfl, hplain, Model.formed_of_rows hplain (.untimed hplain ?_) (by rwa [hs]) ?_⟩
  · rw [Model.hasTimeJoin, hjoins]
    rfl
  · rw [hjoins]
    intro j hj
    cases hj

theorem entries_sourcesOfJoins {master : Model} :
    ∀ (joins : List (JoinOf Query)) {s s' : Sources} {c c' : Counters},
      List.Forall₂ IsEntry s.scope.entries (master :: s.joins.map UnplacedJoin.model) →
        sourcesOfJoins env master joins s c = .ok (s', c') →
          List.Forall₂ IsEntry s'.scope.entries (master :: s'.joins.map UnplacedJoin.model)
  | [], s, s', c, c', hs, h => by
    rw [sourcesOfJoins] at h
    cases h
    exact hs
  | ⟨kind, position, source, givenName, condition⟩ :: joins, s, s', c, c', hs, h => by
    rw [sourcesOfJoins] at h
    obtain ⟨m, _, hm, h⟩ := bind_eq_ok.mp h
    obtain ⟨added, _, hadded, h⟩ := bind_eq_ok.mp h
    obtain ⟨name, hjoins, hscope⟩ := addJoin_eq hadded
    refine entries_sourcesOfJoins joins ?_ h
    rw [hjoins, hscope, List.map_append, ← List.cons_append]
    exact List.rel_append hs (.cons (isEntry_source hm rfl rfl rfl) .nil)

/-- The entries of a scope are its sources. -/
theorem Opens.entries (h : Opens env q c scope sources) :
    List.Forall₂ IsEntry scope.entries sources := by
  have hmaster : ∀ {m master : Model} {scope : Scope} {c₁ c₂ : Counters},
      modelOfSource env q.source c = .ok (m, c₁) →
        addMaster q m c₁ = .ok ((master, scope), c₂) → List.Forall₂ IsEntry scope.entries [master] := by
    intro m master scope c₁ c₂ hsource hmaster
    obtain rfl := scope_addMaster hmaster
    obtain ⟨name, latestBy, -, rfl⟩ := addMaster_eq hmaster
    exact .cons (isEntry_source hsource rfl rfl rfl) .nil
  cases h with
  | master hsource hadded => exact hmaster hsource hadded
  | @sources master s c' hdeclared =>
    obtain ⟨m, _, scope, _, hsource, hadded, hjoins⟩ := declare_ok hdeclared
    exact entries_sourcesOfJoins q.joins (hmaster hsource hadded) hjoins

/-! ### Levels of a query -/

mutual

/-- The levels of a query: the query itself and the sub-queries in its sources. -/
def levelsOfQuery : Query → List Query
  | q@{ source, joins, .. } => q :: (levelsOfSource source ++ levelsOfJoins joins)

/-- The levels of a source. -/
def levelsOfSource : SourceOf Query → List Query
  | .table _ => []
  | .query q => levelsOfQuery q

/-- The levels of joined sources. -/
def levelsOfJoins : List (JoinOf Query) → List Query
  | [] => []
  | { source, .. } :: joins => levelsOfSource source ++ levelsOfJoins joins

end

theorem mem_levelsOfQuery {q level : Query} :
    level ∈ levelsOfQuery q ↔
      level = q ∨ level ∈ levelsOfSource q.source ∨ level ∈ levelsOfJoins q.joins := by
  obtain ⟨position, select, source, givenName, timestamp, latestBy, joins, filter, sampleBy, orderBy,
    limit⟩ := q
  rw [levelsOfQuery, List.mem_cons, List.mem_append]

theorem mem_levelsOfJoins {joins : List (JoinOf Query)} {level : Query} :
    level ∈ levelsOfJoins joins ↔ ∃ j ∈ joins, level ∈ levelsOfSource j.source := by
  induction joins with
  | nil => simp [levelsOfJoins]
  | cons j joins ih =>
    obtain ⟨kind, position, source, givenName, condition⟩ := j
    rw [levelsOfJoins, List.mem_append, ih, List.exists_mem_cons_iff]

mutual

/-- A query that compiles reaches each of its levels, and each of these compiles. -/
theorem reaches_of_ok {level : Query} : ∀ (q : Query) {nested : Bool} {c : Counters}
    {r : Model × Counters}, modelOfQuery env nested q c = .ok r → level ∈ levelsOfQuery q →
      ∃ n c' r', Reaches env (n, level, c') nested q c ∧ modelOfQuery env n level c' = .ok r'
  | ⟨position, select, source, givenName, timestamp, latestBy, joins, filter, sampleBy, orderBy,
      limit⟩, nested, c, r, h, hlevel => by
    obtain ⟨m, _, master, scope, _, s, _, hsource, hmaster, hjoins, -⟩ := modelOfQuery_ok h
    rcases mem_levelsOfQuery.mp hlevel with rfl | hlevel | hlevel
    · exact ⟨nested, c, r, .here, h⟩
    · obtain ⟨inner, hinner, n, c', r', hreaches, hok⟩ := reaches_of_source source hsource hlevel
      exact ⟨n, c', r', .source hinner hreaches, hok⟩
    · obtain ⟨before, j, after, hsplit, c₃, s', hbefore, inner, hinner, n, c', r', hreaches, hok⟩ :=
        reaches_of_joins joins hjoins hlevel
      exact ⟨n, c', r', .joined hsource hmaster hsplit hbefore hinner hreaches, hok⟩

theorem reaches_of_source {level : Query} : ∀ (source : SourceOf Query) {c c₁ : Counters} {m : Model},
    modelOfSource env source c = .ok (m, c₁) → level ∈ levelsOfSource source →
      ∃ inner, source = .query inner ∧ ∃ n c' r',
        Reaches env (n, level, c') true inner c ∧ modelOfQuery env n level c' = .ok r'
  | .table name, c, c₁, m, h, hlevel => by
    rw [levelsOfSource] at hlevel
    cases hlevel
  | .query inner, c, c₁, m, h, hlevel => by
    rw [modelOfSource] at h
    obtain ⟨built, _, hbuilt, -⟩ := bind_eq_ok.mp h
    rw [levelsOfSource] at hlevel
    obtain ⟨n, c', r', hreaches⟩ := reaches_of_ok inner hbuilt hlevel
    exact ⟨inner, rfl, n, c', r', hreaches⟩

theorem reaches_of_joins {level : Query} {master : Model} : ∀ (joins : List (JoinOf Query))
    {s s' : Sources} {c c₁ : Counters}, sourcesOfJoins env master joins s c = .ok (s', c₁) →
      level ∈ levelsOfJoins joins → ∃ before j after, joins = before ++ j :: after ∧
        ∃ c₃ t, sourcesOfJoins env master before s c = .ok (t, c₃) ∧
          ∃ inner, j.source = .query inner ∧ ∃ n c' r',
            Reaches env (n, level, c') true inner c₃ ∧ modelOfQuery env n level c' = .ok r'
  | [], s, s', c, c₁, h, hlevel => by
    rw [levelsOfJoins] at hlevel
    cases hlevel
  | ⟨kind, position, source, givenName, condition⟩ :: joins, s, s', c, c₁, h, hlevel => by
    rw [sourcesOfJoins] at h
    obtain ⟨m, _, hm, h⟩ := bind_eq_ok.mp h
    obtain ⟨added, _, hadded, h⟩ := bind_eq_ok.mp h
    rw [levelsOfJoins, List.mem_append] at hlevel
    rcases hlevel with hlevel | hlevel
    · obtain ⟨inner, hinner, hreaches⟩ := reaches_of_source source hm hlevel
      exact ⟨[], _, joins, rfl, c, s, by rw [sourcesOfJoins]; rfl, inner, hinner, hreaches⟩
    · obtain ⟨before, j, after, rfl, c₃, t, hbefore, hrest⟩ := reaches_of_joins joins h hlevel
      refine ⟨_ :: before, j, after, rfl, c₃, t, ?_, hrest⟩
      rw [sourcesOfJoins]
      exact (bind_of_ok hm).trans ((bind_of_ok hadded).trans hbefore)

end

/-- Every join that is written is declared. -/
theorem length_sourcesOfJoins {master : Model} : ∀ (joins : List (JoinOf Query)) {s s' : Sources}
    {c c' : Counters}, sourcesOfJoins env master joins s c = .ok (s', c') →
      s'.joins.length = s.joins.length + joins.length
  | [], s, s', c, c', h => by
    rw [sourcesOfJoins] at h
    cases h
    rfl
  | ⟨kind, position, source, givenName, condition⟩ :: joins, s, s', c, c', h => by
    rw [sourcesOfJoins] at h
    obtain ⟨m, _, -, h⟩ := bind_eq_ok.mp h
    obtain ⟨added, _, hadded, h⟩ := bind_eq_ok.mp h
    obtain ⟨name, hjoins, -⟩ := addJoin_eq hadded
    rw [length_sourcesOfJoins joins h, hjoins, List.length_append, List.length_cons, List.length_cons,
      List.length_nil]
    omega

/-- Every level of a query that compiles is reached, and opens the scope of its master and of all that
is joined to it. -/
theorem opens_of_compile {m : Model} (h : q.compile env = .ok m) {level : Query}
    (hlevel : level ∈ levelsOfQuery q) :
    ∃ nested c, Reaches env (nested, level, c) false q ⟨0, 0⟩ ∧
      ∃ scope sources, Opens env level c scope sources ∧ sources.length = level.joins.length + 1 := by
  obtain ⟨r, hr, -⟩ := Except.bind_eq_ok.mp h
  obtain ⟨n, c, r', hreaches, hok⟩ := reaches_of_ok q hr hlevel
  rw [modelOfQuery_eq] at hok
  obtain ⟨⟨master, s⟩, _, hdeclared, -⟩ := bind_eq_ok.mp hok
  refine ⟨n, c, hreaches, s.scope, _, .sources hdeclared, ?_⟩
  obtain ⟨_, _, _, _, -, -, hjoins⟩ := declare_ok hdeclared
  rw [List.length_cons, List.length_map, length_sourcesOfJoins level.joins hjoins, List.length_nil,
    Nat.zero_add]

end Compile

/-! ### References of a query -/

/-- **A reference means columns of one source.** In every scope that a level of a query opens, an
accepted reference matches columns of one source only, and one column of it unless tables or select
lists that stand side by side in the source share the name. A reference that matches columns of two
sources is ambiguous, and so is the query if the level looks it up. -/
theorem Query.compile_reference {env : Environment} {q level : Query} {nested : Bool}
    {c : Compile.Counters} {scope : Scope} {sources : List Model} {ref : ColumnRef} {position : Nat}
    (hlevel : Compile.Reaches env (nested, level, c) false q ⟨0, 0⟩)
    (hscope : Compile.Opens env level c scope sources) :
    (∀ r, scope.resolve ref position = .ok r → ∃ source, sources[r.source]? = some source ∧
      scope.candidates ref ≠ [] ∧ (∀ found ∈ scope.candidates ref, found.1 = r.source) ∧
      ((scope.candidates ref).length = 1 ↔
        ¬ ShowsTwice (Model.ownColumnLists source.source) ref.name)) ∧
    ((∃ a ∈ scope.candidates ref, ∃ b ∈ scope.candidates ref, a.1 ≠ b.1) →
      scope.resolve ref position = .error ⟨position, .ambiguousColumn ref.text⟩ ∧
      (Compile.Asks env nested level c scope ref position →
        q.compile env = .error ⟨position, .ambiguousColumn ref.text⟩)) := by
  refine ⟨fun r hr => ?_, fun ⟨a, ha, b, hb, hne⟩ => ?_⟩
  · obtain ⟨entry, hentry, hcandidates, found, hfound, -⟩ := Scope.resolve_candidates hr
    obtain ⟨source, hsource, hisEntry⟩ : ∃ source, sources[r.source]? = some source ∧
        Compile.IsEntry entry source := by
      obtain ⟨hlength, hget⟩ := List.forall₂_iff_get.mp hscope.entries
      obtain ⟨hlt, rfl⟩ := List.getElem?_eq_some_iff.mp hentry
      have hlt' : r.source < sources.length := hlength ▸ hlt
      exact ⟨sources[r.source], List.getElem?_eq_getElem hlt', hget r.source hlt hlt'⟩
    have hne : entry.columnsNamed ref.name ≠ [] := by
      rw [ScopeEntry.column?_eq_head?] at hfound
      intro h
      rw [h] at hfound
      cases hfound
    have htwice := hisEntry.formed.two_columns_iff hisEntry.projection source.name? ref.name
    rw [← hisEntry.entry] at htwice
    refine ⟨source, hsource, ?_, ?_, ?_⟩
    · rw [hcandidates]
      simpa using hne
    · rw [hcandidates]
      intro found hfound
      obtain ⟨column, -, rfl⟩ := List.mem_map.mp hfound
      rfl
    · rw [hcandidates, List.length_map, ← htwice]
      have hpos := List.length_pos_iff.mpr hne
      omega
  · have hambiguous := Scope.resolve_of_two_sources ha hb hne position
    exact ⟨hambiguous, fun hasks => Query.compile_of_error (hlevel.error (hasks.error hambiguous))⟩

/-- Tables of orders and of customers, which both have an `id`. -/
def salesEnvironment : Environment where
  table? name :=
    if Ascii.same name "orders" then
      some (((Table.empty "orders").withColumn "id" .int).withColumn "total" .int)
    else if Ascii.same name "customers" then
      some (((Table.empty "customers").withColumn "id" .int).withColumn "name" .string)
    else none
  settings := .standard

/-- Of two tables side by side, a column of one is meant by its name, and one that both have is
ambiguous. -/
theorem Query.compile_reference_crossed :
    ∃ q scope sources, Statement.ofText "select id from orders cross join customers" = .ok (.query q) ∧
      Compile.Opens salesEnvironment q ⟨0, 0⟩ scope sources ∧
      (∃ r source, scope.resolve (.plain "total") 7 = .ok r ∧ sources[r.source]? = some source ∧
        ¬ ShowsTwice (Model.ownColumnLists source.source) "total") ∧
      q.compile salesEnvironment = .error ⟨7, .ambiguousColumn "id"⟩ := by
  obtain ⟨q, hq, hdeclares⟩ := Statement.exists_query "select id from orders cross join customers"
    (fun q => (Compile.declare salesEnvironment q ⟨0, 0⟩).toOption.any fun r =>
      r.1.2.scope.rejection? [(.plain "total", 7)] = none ∧
      (r.1.2.scope.candidates (.plain "total")).length = 1 ∧
      (r.1.2.scope.candidates (.plain "id")).map Prod.fst = [0, 1] ∧
      Compile.levelColumns q r.1.2 = [(.plain "id", 7)]) (by decide +kernel)
  obtain ⟨⟨⟨master, s⟩, c⟩, hdeclared, hp⟩ := Except.any_toOption.mp hdeclares
  obtain ⟨haccepted, hone, htwo, hcolumns⟩ := of_decide_eq_true hp
  have hopens : Compile.Opens salesEnvironment q ⟨0, 0⟩ s.scope _ := .sources hdeclared
  have hreaches : Compile.Reaches salesEnvironment (false, q, ⟨0, 0⟩) false q ⟨0, 0⟩ := .here
  refine ⟨q, s.scope, _, hq, hopens, ?_, ?_⟩
  · obtain ⟨r, hr⟩ := Scope.rejection?_eq_none.mp haccepted _ List.mem_cons_self
    obtain ⟨source, hsource, -, -, hunique⟩ := (Query.compile_reference hreaches hopens).1 r hr
    exact ⟨r, source, hr, hsource, hunique.mp hone⟩
  · have hapart : ∃ a ∈ s.scope.candidates (.plain "id"), ∃ b ∈ s.scope.candidates (.plain "id"),
        a.1 ≠ b.1 := by
      obtain ⟨a, b, hcandidates⟩ := List.length_eq_two.mp (by simpa using congrArg List.length htwo)
      rw [hcandidates, List.map_cons, List.map_cons, List.map_nil, List.cons.injEq,
        List.cons.injEq] at htwo
      refine ⟨a, by simp [hcandidates], b, by simp [hcandidates], ?_⟩
      rw [htwo.1, htwo.2.1]
      exact Nat.zero_ne_one
    have hrefs : Compile.levelColumns q s = [] ++ (.plain "id", 7) :: [] := hcolumns
    exact ((Query.compile_reference hreaches hopens).2 hapart).2 (.column hdeclared hrefs rfl)

/-- A sub-query without a select list shows the columns of both tables, and the first of two of one
name is meant. -/
theorem repeated_name_accepted :
    ∃ q m scope sources, Statement.ofText "select id from (orders cross join customers)" =
        .ok (.query q) ∧
      q.compile salesEnvironment = .ok m ∧ Compile.Opens salesEnvironment q ⟨0, 0⟩ scope sources ∧
      (∃ r, scope.resolve (.plain "id") 7 = .ok r) ∧
      (scope.candidates (.plain "id")).length = 2 := by
  obtain ⟨q, hq, hp⟩ := Statement.exists_query "select id from (orders cross join customers)"
    (fun q => (q.compile salesEnvironment).toOption.any (fun _ => true) &&
      (Compile.declare salesEnvironment q ⟨0, 0⟩).toOption.any fun r =>
        r.1.2.scope.rejection? [(.plain "id", 7)] = none ∧
        (r.1.2.scope.candidates (.plain "id")).length = 2) (by decide +kernel)
  obtain ⟨hcompiles, hdeclares⟩ := Bool.and_eq_true_iff.mp hp
  obtain ⟨m, hm, -⟩ := Except.any_toOption.mp hcompiles
  obtain ⟨⟨⟨master, s⟩, c⟩, hdeclared, htest⟩ := Except.any_toOption.mp hdeclares
  obtain ⟨haccepted, htwo⟩ := of_decide_eq_true htest
  exact ⟨q, m, s.scope, _, hq, hm, .sources hdeclared,
    Scope.rejection?_eq_none.mp haccepted _ List.mem_cons_self, htwo⟩

end SeriesQuery
