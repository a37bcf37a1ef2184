import SeriesQuery.Fingerprint
import SeriesQuery.Proofs.Levels
import SeriesQuery.Proofs.Positions.Clauses

/-!
Compiling without positions.

Every step of the compiler does on a statement without positions what it does on the statement
(`Compile.modelOfQuery_forgets`, `Statement.compile_forgets`), and a text is read by its tokens alone
(`Statement.ofText_layout`).
-/

namespace SeriesQuery

open Forgetful

namespace Compile

/-! ### Sources -/

/-- The numbers given out count no positions. -/
instance : Erasable Counters := ⟨id⟩

theorem madeUpAlias_forgets : Forgets id madeUpAlias madeUpAlias := fun _ => rfl

theorem modelOfTable_forgets (env : Environment) (name : Ident) :
    Forgets Model.erase (modelOfTable env name) (modelOfTable env name.erase) := by
  have hname : name.erase.name = name.name := rfl
  unfold modelOfTable
  rw [hname]
  cases env.table? name.name <;> rfl

theorem nameSource_forgets (m : Model) (given : Option Ident) (needsName : Bool) :
    Forgets Model.erase (nameSource m given needsName)
      (nameSource m.erase (given.map Ident.erase) needsName) := by
  have hgiven : ∀ (m : Model) (name : Option String),
      ({ m with givenName := name } : Model).erase = { m.erase with givenName := name } := by
    rintro ⟨⟩ name
    rfl
  have hname : (given.map Ident.erase).map Ident.name = given.map Ident.name := by
    simp [Ident.erase, Function.comp_def]
  unfold nameSource
  simp only [hname, ← hgiven, Model.name?_erase]
  refine Forgets.ite ?_ (pure Model.erase { m with givenName := given.map Ident.name })
  refine bind madeUpAlias_forgets fun made => ?_
  exact pure Model.erase { m with givenName := some made }

/-! ### Joins -/

/-- A joined source that waits for its place, without positions. -/
def UnplacedJoin.erase (j : UnplacedJoin) : UnplacedJoin :=
  ⟨j.kind, 0, j.model.erase⟩

/-- The sources of a level without positions. -/
def Sources.erase (s : Sources) : Sources :=
  ⟨s.scope, s.joins.map UnplacedJoin.erase, s.conjuncts.map Conjunct.erase⟩

theorem namesColumns_erase (condition : Option JoinCondition) :
    namesColumns (condition.map JoinCondition.erase) = namesColumns condition := by
  cases condition with
  | none => rfl
  | some condition => cases condition <;> rfl

theorem sharedColumn_erase (joined master : Model) (column : Ident) :
    sharedColumn joined.erase master.erase column.erase =
      (sharedColumn joined master column).erase := by
  simp [sharedColumn, Expr.erase, Ident.erase]

theorem onConjuncts_erase (index : Nat) (joined master : Model)
    (condition : Option JoinCondition) :
    onConjuncts index joined.erase master.erase (condition.map JoinCondition.erase) =
      (onConjuncts index joined master condition).map Conjunct.erase := by
  cases condition with
  | none => rfl
  | some condition =>
    cases condition with
    | on condition => exact Conjunct.ofCondition_erase _ condition
    | columns names =>
      simp [onConjuncts, JoinCondition.erase, Function.comp_def, sharedColumn_erase, Conjunct.erase]

theorem addJoin_forgets (master : Model) (j : JoinOf Query) (m : Model) (s : Sources) :
    Forgets Sources.erase (addJoin master j m s)
      (addJoin master.erase (Query.eraseJoin j) m.erase s.erase) := by
  obtain ⟨kind, position, source, givenName, condition⟩ := j
  unfold addJoin
  simp only [Query.eraseJoin, namesColumns_erase]
  refine bind (nameSource_forgets m givenName _) fun m => ?_
  rw [Model.name?_erase, Model.ownColumns_erase]
  refine bind (Forgets.lift (Scope.declare_forgets s.scope _ givenName _)) fun scope => ?_
  have hsources : Sources.erase
        { scope
          joins := s.joins ++ [⟨kind, position, m⟩]
          conjuncts :=
            s.conjuncts ++ onConjuncts s.scope.entries.length m master condition } =
      { scope
        joins := s.erase.joins ++ [⟨kind, 0, m.erase⟩]
        conjuncts := s.erase.conjuncts ++ onConjuncts s.erase.scope.entries.length m.erase
          master.erase (condition.map JoinCondition.erase) } := by
    simp [Sources.erase, UnplacedJoin.erase, onConjuncts_erase]
  rw [id_eq, ← hsources]
  exact pure Sources.erase _

theorem erase_sentinel (n position : Nat) :
    (sentinel n position).erase = sentinel n 0 := by
  simp [sentinel, Expr.erase]

theorem placedJoin_erase (placement : Placement) (source : Nat) (pending : UnplacedJoin) :
    placedJoin placement.erase source pending.erase =
      Model.eraseJoin (placedJoin placement source pending) := by
  have hget : ∀ lists : List (List Expr), (lists.map (List.map Expr.erase)).getD source [] =
      (lists.getD source []).map Expr.erase := by
    intro lists
    simp only [List.getD_eq_getElem?_getD, List.getElem?_map]
    cases lists[source]? <;> rfl
  simp only [placedJoin, Placement.erase, UnplacedJoin.erase, hget, ← Model.erase_addFilters,
    ← Expr.erase_conjunction, List.isEmpty_map]
  rfl

theorem placedJoins_erase (placement : Placement) (pending : List UnplacedJoin) :
    placedJoins placement.erase (pending.map UnplacedJoin.erase) =
      (placedJoins placement pending).map Model.eraseJoin := by
  have horder : placement.erase.order = placement.order := rfl
  simp only [placedJoins, horder, List.map_filterMap, List.getElem?_map, Option.map_map,
    Function.comp_def, placedJoin_erase]

theorem sentinels_forgets (enabled : Bool) (joins : List (JoinClause Model)) :
    Forgets (List.map Expr.erase) (sentinels enabled joins)
      (sentinels enabled (joins.map Model.eraseJoin)) := by
  induction joins with
  | nil => exact pure (List.map Expr.erase) []
  | cons j joins ih =>
    obtain ⟨kind, model, criteria, postJoinFilter, provenance, position⟩ := j
    simp only [List.map_cons, Model.eraseJoin, sentinels]
    refine Forgets.ite ?_ ih
    have hnumber : Forgets (m := CompileM) id
        (modifyGet fun c => (c.sentinels + 1, { c with sentinels := c.sentinels + 1 }))
        (modifyGet fun c => (c.sentinels + 1, { c with sentinels := c.sentinels + 1 })) :=
      fun _ => rfl
    refine bind hnumber fun n => ?_
    refine bind ih fun added => ?_
    rw [id_eq, ← erase_sentinel n position]
    exact pure (List.map Expr.erase) (sentinel n position :: added)

theorem joinSources_forgets (env : Environment) (master : Model) (pending : List UnplacedJoin)
    (placement : Placement) :
    Forgets Model.erase (joinSources env master pending placement)
      (joinSources env master.erase (pending.map UnplacedJoin.erase) placement.erase) := by
  have hget : ∀ lists : List (List Expr), (lists.map (List.map Expr.erase)).getD 0 [] =
      (lists.getD 0 []).map Expr.erase := by
    intro lists
    cases lists <;> rfl
  have hfilters : ∀ (es : List Expr) (m : Model),
      (es.map Expr.erase).foldl Model.withFilter m.erase = (es.foldl Model.withFilter m).erase := by
    intro es
    induction es with
    | nil => exact fun _ => rfl
    | cons e es ih =>
      intro m
      simp only [List.map_cons, List.foldl_cons, ← Model.erase_withFilter, ih]
  unfold joinSources
  simp only [placedJoins_erase]
  refine bind (sentinels_forgets _ _) fun added => ?_
  simp only [Placement.erase, hget, ← Model.erase_addFilters, hfilters, ← List.map_append,
    ← Expr.erase_conjunction]
  have hm : ∀ (m : Model) (joins : List (JoinClause Model)) (constFilter : Option Expr),
      ({ m with joins, constFilter } : Model).erase =
        { m.erase with
          joins := joins.map Model.eraseJoin
          constFilter := constFilter.map Expr.erase } := by
    simp [Model.erase_eq]
  generalize (placement.postJoin.getD 0 []).foldl Model.withFilter _ = m
  have hbody := hm m (placedJoins placement pending)
    (Expr.conjunction (placement.constFilters ++ added))
  exact hbody ▸ pure Model.erase _

/-! ### Query levels -/

theorem finishLevel_forgets (env : Environment) (nested : Bool) (scope : Scope) (q : Query)
    (body : Model) :
    Forgets Model.erase (finishLevel env nested scope q body)
      (finishLevel env nested scope q.erase body.erase) := by
  obtain ⟨position, select, source, givenName, timestamp, latestBy, joins, filter, sampleBy,
    orderBy, limit⟩ := q
  cases select with
  | none =>
    simp -zeta only [Query.erase, finishLevel, Option.map_none]
    extract_lets maxColumns finish finish'
    have hfinish : ∀ body, Forgets Model.erase (finish body) (finish' body.erase) := by
      intro body
      refine bind (Clause.checkSampleBelow_forgets none nested body) fun _ => ?_
      refine bind (Clause.orderBody_forgets scope maxColumns orderBy body) fun body => ?_
      have hlimit : ({ body with limit } : Model).erase =
          { body.erase with limit := limit.map Limit.erase } := by simp [Model.erase_eq]
      rw [← hlimit]
      exact pure Model.erase { body with limit }
    cases sampleBy with
    | none => exact hfinish body
    | some interval => exact bind (Clause.leaveSampleBy_forgets scope nested body interval) hfinish
  | some select =>
    simp -zeta only [Query.erase, finishLevel, Option.map_some]
    extract_lets maxColumns finish finish'
    have hfinish : ∀ (key : Option Expr) (body : Model),
        Forgets Model.erase (finish (key, body)) (finish' (key.map Expr.erase, body.erase)) := by
      intro key body
      refine bind (Layers.ofSelect_forgets select scope key) fun layers => ?_
      have hlayers : Layers.erase { layers with sampleBy } =
          { layers.erase with sampleBy := sampleBy.map Expr.erase } := rfl
      extract_lets layers layers'
      refine bind (Clause.checkSampleBelow_forgets (some layers) nested body) fun _ => ?_
      refine bind (Clause.orderLayers_forgets scope maxColumns orderBy layers) fun layers => ?_
      have hlimit := Clause.setLimit_erase limit layers body
      simp only [hlimit, Prod.map_fst, Prod.map_snd, ← Layers.onto_erase]
      exact pure Model.erase _
    cases sampleBy with
    | none => exact hfinish none body
    | some interval =>
      exact bind (Clause.setSampleBy_forgets select scope body interval) fun r =>
        hfinish (some r.1) r.2

theorem addMaster_forgets (q : Query) (m : Model) :
    Forgets (Prod.map Model.erase id) (addMaster q m) (addMaster q.erase m.erase) := by
  obtain ⟨position, select, source, givenName, timestamp, latestBy, joins, filter, sampleBy,
    orderBy, limit⟩ := q
  have hjoins : (Query.eraseJoins joins).isEmpty = joins.isEmpty := by cases joins <;> rfl
  simp only [Query.erase, addMaster, hjoins]
  refine bind (nameSource_forgets m givenName _) fun master => ?_
  rw [Model.name?_erase, Model.ownColumns_erase]
  refine bind (Forgets.lift (Scope.declare_forgets _ _ givenName _)) fun scope => ?_
  refine bind (Forgets.lift (Clause.setTimestamp_forgets scope timestamp master)) fun master => ?_
  refine bind (Forgets.lift (Clause.setLatestBy_forgets scope latestBy master)) fun master => ?_
  exact pure (Prod.map Model.erase id) (master, scope)

theorem levelConjuncts_erase (q : Query) (s : Sources) :
    levelConjuncts q.erase s.erase = (levelConjuncts q s).map Conjunct.erase := by
  obtain ⟨_, _, _, _, _, _, _, filter, _, _, _⟩ := q
  cases filter <;> simp [levelConjuncts, Query.erase, Sources.erase, Conjunct.ofCondition_erase]

theorem modelOfLevel_forgets (env : Environment) (nested : Bool) (q : Query) (master : Model)
    (s : Sources) :
    Forgets Model.erase (modelOfLevel env nested q master s)
      (modelOfLevel env nested q.erase master.erase s.erase) := by
  have hkinds : (s.erase.joins.map fun j => some j.kind) = s.joins.map fun j => some j.kind := by
    simp [Sources.erase, UnplacedJoin.erase, Function.comp_def]
  have hplace : ∀ conjuncts erased, erased = conjuncts.map Conjunct.erase →
      Forgets Placement.erase
        (Placement.place s.scope (none :: s.joins.map fun j => some j.kind) conjuncts)
        (Placement.place s.erase.scope (none :: s.erase.joins.map fun j => some j.kind) erased) := by
    rintro conjuncts _ rfl
    rw [hkinds]
    exact Placement.place_forgets s.scope _ conjuncts
  refine bind (Forgets.lift (hplace _ _ (levelConjuncts_erase q s))) fun placement => ?_
  refine bind (joinSources_forgets env master s.joins placement) fun body => ?_
  rw [← Clause.fillTimestamps_erase]
  exact Forgets.lift (finishLevel_forgets env nested s.scope _ _)

mutual

theorem modelOfQuery_forgets (env : Environment) (nested : Bool) : ∀ q : Query,
    Forgets Model.erase (modelOfQuery env nested q) (modelOfQuery env nested q.erase)
  | ⟨position, select, source, givenName, timestamp, latestBy, joins, filter, sampleBy, orderBy,
      limit⟩ => by
    simp only [Query.erase, modelOfQuery]
    refine bind (modelOfSource_forgets env source) fun m => ?_
    refine bind (addMaster_forgets _ m) fun r => ?_
    refine bind (sourcesOfJoins_forgets env r.1 joins ⟨r.2, [], []⟩) fun sources => ?_
    exact modelOfLevel_forgets env nested _ r.1 sources

theorem modelOfSource_forgets (env : Environment) : ∀ source : SourceOf Query,
    Forgets Model.erase (modelOfSource env source) (modelOfSource env (Query.eraseSource source))
  | .table name => Forgets.lift (modelOfTable_forgets env name)
  | .query q => bind (modelOfQuery_forgets env true q) fun m => pure Model.erase (.nested m)

theorem sourcesOfJoins_forgets (env : Environment) (master : Model) :
    ∀ (joins : List (JoinOf Query)) (s : Sources),
    Forgets Sources.erase (sourcesOfJoins env master joins s)
      (sourcesOfJoins env master.erase (Query.eraseJoins joins) s.erase)
  | [], s => pure Sources.erase s
  | ⟨kind, position, source, givenName, condition⟩ :: joins, s => by
    refine bind (modelOfSource_forgets env source) fun m => ?_
    refine bind (addJoin_forgets master _ m s) fun s => ?_
    exact sourcesOfJoins_forgets env master joins s

end

end Compile

theorem Query.compile_forgets (env : Environment) (q : Query) :
    Forgets Model.erase (q.compile env) (q.erase.compile env) := by
  have hmodel := Compile.modelOfQuery_forgets env false q ⟨0, 0⟩
  refine bind hmodel fun r => ?_
  obtain ⟨m, counters⟩ := r
  simp only [Prod.map_apply, ← Model.erase_eliminateOrders]
  exact pure Model.erase (m.eliminateOrders false)

/-! ### Table declarations -/

namespace TableDefinition

theorem defineColumns_forgets (blockSize : Nat) (defined : List ColumnDefinition)
    (ds : List ColumnDeclaration) :
    Forgets id (defineColumns blockSize defined ds)
      (defineColumns blockSize defined (ds.map ColumnDeclaration.erase)) := by
  induction ds generalizing defined with
  | nil => rfl
  | cons d ds ih => exact Forgets.ite (Forgets.fail _ _) (ih _)

theorem addIndexes_forgets (blockSize : Nat) (ds : List IndexDeclaration)
    (columns : List ColumnDefinition) :
    Forgets id (addIndexes blockSize ds columns)
      (addIndexes blockSize (ds.map IndexDeclaration.erase) columns) := by
  induction ds generalizing columns with
  | nil => rfl
  | cons d ds ih => exact Forgets.ite (ih _) (Forgets.fail _ _)

theorem findTimestamp_forgets (columns : List ColumnDefinition) (timestamp : Option Ident) :
    Forgets id (findTimestamp columns timestamp)
      (findTimestamp columns (timestamp.map Ident.erase)) := by
  cases timestamp with
  | none => rfl
  | some timestamp =>
    have hname : timestamp.erase.name = timestamp.name := rfl
    simp only [Option.map_some, findTimestamp, hname]
    cases columns.zipIdx.find? fun c => hasName timestamp.name c.1 with
    | none => rfl
    | some c => exact Forgets.ite rfl (Forgets.fail _ _)

theorem ofDeclaration_forgets (settings : CompilerSettings) (d : TableDeclaration) :
    Forgets id (ofDeclaration settings d) (ofDeclaration settings d.erase) := by
  refine bind (defineColumns_forgets _ [] d.columns) fun defined => ?_
  refine bind (addIndexes_forgets _ d.indexes defined) fun columns => ?_
  refine bind (findTimestamp_forgets columns d.timestamp) fun timestampIndex => ?_
  obtain ⟨name, declared, indexes, timestamp, _ | partitionBy, recordHint⟩ := d <;>
    exact pure id _

end TableDefinition

/-! ### Texts -/

/-- A compiled statement without positions. -/
def Compiled.erase : Compiled → Compiled
  | query model => query model.erase
  | createTable definition => createTable definition

theorem Compiled.text_erase (c : Compiled) : c.erase.text = c.text := by
  cases c with
  | query model => exact model.text_erase
  | createTable definition => rfl

theorem Statement.compile_forgets (env : Environment) (s : Statement) :
    Forgets Compiled.erase (s.compile env) (s.erase.compile env) := by
  cases s with
  | query q => exact bind (q.compile_forgets env) fun m => pure Compiled.erase (.query m)
  | createTable d =>
    exact bind (TableDefinition.ofDeclaration_forgets env.settings d) fun definition =>
      pure Compiled.erase (.createTable definition)

/-- The statement that a text writes has, without positions, the tokens of the text alone. -/
theorem Statement.ofText_layout {a b : String} {as bs : List Lexeme} (ha : lex a = .ok as)
    (hb : lex b = .ok bs) (h : as.map Lexeme.token = bs.map Lexeme.token) :
    ((Statement.ofText a).map Statement.erase).mapError SqlError.erase =
      ((Statement.ofText b).map Statement.erase).mapError SqlError.erase := by
  have hlexemes : as.map Lexeme.erase = bs.map Lexeme.erase := by
    have hplaced := congrArg (List.map fun token => (⟨token, 0, 0⟩ : Lexeme)) h
    rwa [List.map_map, List.map_map] at hplaced
  have hread : Parser.forget Statement.erase (parser ⟨[], as, Cursor.endOf a.utf8ByteSize as, 0⟩) =
      Parser.forget Statement.erase (parser ⟨[], bs, Cursor.endOf b.utf8ByteSize bs, 0⟩) := by
    rw [← parser_forgets, ← parser_forgets]
    simp only [Cursor.erase, hlexemes]
  simp only [Statement.ofText, Cursor.ofText, ha, hb]
  generalize parser ⟨[], as, Cursor.endOf a.utf8ByteSize as, 0⟩ = readA at hread ⊢
  generalize parser ⟨[], bs, Cursor.endOf b.utf8ByteSize bs, 0⟩ = readB at hread ⊢
  cases readA with
  | ok statementA restA =>
    cases readB with
    | ok statementB restB => exact congrArg Except.ok (EStateM.Result.ok.inj hread).1
    | error e restB => cases hread
  | error e restA =>
    cases readB with
    | ok statementB restB => cases hread
    | error f restB => exact congrArg Except.error (EStateM.Result.error.inj hread).1

/-- **Layout does not count**: texts with the same tokens compile, up to positions, to the same
statement, or fail with the same fault. -/
theorem compile_layout (env : Environment) {a b : String} {as bs : List Lexeme}
    (ha : lex a = .ok as) (hb : lex b = .ok bs) (h : as.map Lexeme.token = bs.map Lexeme.token) :
    (∃ c d, compile env a = .ok c ∧ compile env b = .ok d ∧ c.erase = d.erase ∧
      c.text = d.text ∧ c.fingerprint = d.fingerprint) ∨
    (∃ e f, compile env a = .error e ∧ compile env b = .error f ∧ e.fault = f.fault) := by
  have hforget : ((compile env a).map Compiled.erase).mapError SqlError.erase =
      ((compile env b).map Compiled.erase).mapError SqlError.erase := by
    have hcompile : ∀ text, ((compile env text).map Compiled.erase).mapError SqlError.erase =
        ((Statement.ofText text).map Statement.erase).mapError SqlError.erase >>=
          Statement.compile env := by
      intro text
      unfold compile
      cases Statement.ofText text with
      | error e => rfl
      | ok s => exact (s.compile_forgets env).eq.symm
    rw [hcompile, hcompile, Statement.ofText_layout ha hb h]
  cases hca : compile env a with
  | error e =>
    cases hcb : compile env b with
    | error f =>
      rw [hca, hcb] at hforget
      have herror : e.erase = f.erase := Except.error.inj hforget
      have hfault : e.erase.fault = f.erase.fault := congrArg SqlError.fault herror
      exact .inr ⟨e, f, rfl, rfl, hfault⟩
    | ok d =>
      rw [hca, hcb] at hforget
      cases hforget
  | ok c =>
    cases hcb : compile env b with
    | error f =>
      rw [hca, hcb] at hforget
      cases hforget
    | ok d =>
      rw [hca, hcb] at hforget
      have hsame : c.erase = d.erase := Except.ok.inj hforget
      have htext : c.text = d.text := by rw [← c.text_erase, hsame, d.text_erase]
      have hfingerprint : c.fingerprint = d.fingerprint := congrArg fingerprint htext
      exact .inl ⟨c, d, rfl, rfl, hsame, htext, hfingerprint⟩

/-- An environment with one table. -/
def measuresEnvironment : Environment where
  table? name :=
    if Ascii.same name "measures" then
      some (((Table.empty "measures").withColumn "a" .int).withColumn "b" .int)
    else none
  settings := .standard

/-- Blanks, line breaks and a comment between the tokens. -/
theorem compile_layout_comment :
    ∃ as bs, lex "select a,b from measures" = .ok as ∧
      lex "select a , -- first\n  b\nfrom\tmeasures " = .ok bs ∧
      as.map Lexeme.token = bs.map Lexeme.token ∧
      ((∃ c d, compile measuresEnvironment "select a,b from measures" = .ok c ∧
        compile measuresEnvironment "select a , -- first\n  b\nfrom\tmeasures " = .ok d ∧
        c.erase = d.erase ∧ c.text = d.text ∧ c.fingerprint = d.fingerprint) ∨
      ∃ e f, compile measuresEnvironment "select a,b from measures" = .error e ∧
        compile measuresEnvironment "select a , -- first\n  b\nfrom\tmeasures " = .error f ∧
        e.fault = f.fault) := by
  have hlex : ∀ text, (lex text).isOk = true → ∃ lexemes, lex text = .ok lexemes := by
    intro text h
    cases hl : lex text with
    | error e => simp [hl, Except.isOk, Except.toBool] at h
    | ok lexemes => exact ⟨lexemes, rfl⟩
  have htokens : (lex "select a,b from measures").map (List.map Lexeme.token) =
      (lex "select a , -- first\n  b\nfrom\tmeasures ").map (List.map Lexeme.token) := by
    decide +kernel
  obtain ⟨as, ha⟩ := hlex "select a,b from measures" (by decide +kernel)
  obtain ⟨bs, hb⟩ := hlex "select a , -- first\n  b\nfrom\tmeasures " (by decide +kernel)
  rw [ha, hb] at htokens
  have hsame : as.map Lexeme.token = bs.map Lexeme.token := Except.ok.inj htokens
  exact ⟨as, bs, ha, hb, hsame, compile_layout measuresEnvironment ha hb hsame⟩

end SeriesQuery
