import SeriesQuery.Proofs.Levels
import SeriesQuery.Proofs.Placement.Destination

/-!
References that are rejected.

The first reference of a list that leads nowhere decides the error of the list, whoever looks it up
(`Scope.rejection?`). A level looks up the references of its conditions and of its select list, the
sample key and the references of its order, each when what comes before is in order (`Compile.Asks`),
and the error of one of them is the error of the level, of every level that encloses it and of the
statement (`Compile.Asks.error`, `Compile.Reaches.error`).
-/

namespace SeriesQuery

namespace Scope

variable {s : Scope}

/-- The error of the first reference that leads nowhere. -/
def rejection? (s : Scope) (refs : List (ColumnRef × Nat)) : Option SqlError :=
  refs.findSome? fun ref => match s.resolve ref.1 ref.2 with
    | .ok _ => none
    | .error e => some e

theorem rejection?_append (first second : List (ColumnRef × Nat)) :
    s.rejection? (first ++ second) = (s.rejection? first).or (s.rejection? second) :=
  List.findSome?_append

theorem rejection?_eq_none {refs : List (ColumnRef × Nat)} :
    s.rejection? refs = none ↔ ∀ ref ∈ refs, ∃ r, s.resolve ref.1 ref.2 = .ok r := by
  rw [rejection?, List.findSome?_eq_none_iff]
  refine forall₂_congr fun ref _ => ?_
  cases s.resolve ref.1 ref.2 with
  | ok r => simp
  | error e => simp

/-- The first reference that leads nowhere. -/
theorem rejection?_first {refs before after : List (ColumnRef × Nat)} {ref : ColumnRef}
    {position : Nat} (hrefs : refs = before ++ (ref, position) :: after)
    (hbefore : s.rejection? before = none) {e : SqlError} (h : s.resolve ref position = .error e) :
    s.rejection? refs = some e := by
  rw [hrefs, rejection?_append, hbefore, rejection?, List.findSome?_cons, h]
  rfl

theorem sourcesOf_rejected {refs : List (ColumnRef × Nat)} {e : SqlError}
    (h : s.rejection? refs = some e) : s.sourcesOf refs = .error e := by
  induction refs with
  | nil => cases h
  | cons ref refs ih =>
    rw [rejection?, List.findSome?_cons] at h
    obtain ⟨ref, position⟩ := ref
    rw [sourcesOf]
    cases hr : s.resolve ref position with
    | error e' =>
      simp only [hr, Option.some.injEq] at h
      rw [h]
    | ok r =>
      simp only [hr] at h
      rw [ih h]

theorem sourcesOf_accepted {refs : List (ColumnRef × Nat)} (h : s.rejection? refs = none) :
    ∃ sources, s.sourcesOf refs = .ok sources :=
  sourcesOf_ok fun ref href => by
    obtain ⟨r, hr⟩ := rejection?_eq_none.mp h ref href
    exact ⟨r.source, leadsTo_of_resolve hr⟩

end Scope

/-! ### Conditions -/

namespace Placement

variable {scope : Scope} {kinds : JoinKinds}

theorem equalityOf_accepted {e : Expr} (h : scope.rejection? e.columns = none) :
    ∃ equality, equalityOf scope e = .ok equality := by
  unfold equalityOf
  split
  · rename_i left right position
    split
    · rename_i l r hl hr
      obtain ⟨p, rfl⟩ := Expr.column?_eq_some.mp hl
      obtain ⟨p', rfl⟩ := Expr.column?_eq_some.mp hr
      have haccepted := Scope.rejection?_eq_none.mp h
      obtain ⟨leftSource, hleft⟩ := haccepted (l, p) (by simp [Expr.columns])
      obtain ⟨rightSource, hright⟩ := haccepted (r, p') (by simp [Expr.columns])
      simp only [Expr.position, hleft, hright]
      change ∃ equality, (if leftSource.source = rightSource.source then _ else _) = _
      split
      · exact ⟨_, rfl⟩
      · exact ⟨_, rfl⟩
    · exact ⟨_, rfl⟩
  · exact ⟨_, rfl⟩

theorem destination_accepted (kinds : JoinKinds) {c : Conjunct} (h : scope.rejection? c.expr.columns = none) :
    ∃ d, destination scope kinds c = .ok d := by
  obtain ⟨sources, hsources⟩ := Scope.sourcesOf_accepted h
  obtain ⟨equality, hequality⟩ := equalityOf_accepted h
  have hread : scope.sourcesIn c.expr = .ok sources := hsources
  rw [destination, hread, hequality]
  change ∃ d, (if sources = [] then _ else _) = _
  split
  · exact ⟨_, rfl⟩
  · cases c.origin with
    | on join =>
      change ∃ d, (if kinds.isFixed join then _ else _) = _
      split
      · exact ⟨_, rfl⟩
      · exact ⟨_, rfl⟩
    | whereClause => exact ⟨_, rfl⟩

theorem destination_rejected {c : Conjunct} {e : SqlError}
    (h : scope.rejection? c.expr.columns = some e) : destination scope kinds c = .error e := by
  have hsources : scope.sourcesIn c.expr = .error e := Scope.sourcesOf_rejected h
  rw [destination, hsources]
  rfl

/-- The columns of conjuncts, in order. -/
def columnsOf (conjuncts : List Conjunct) : List (ColumnRef × Nat) :=
  conjuncts.flatMap fun c => c.expr.columns

theorem destinations_accepted (kinds : JoinKinds) {conjuncts : List Conjunct}
    (h : scope.rejection? (columnsOf conjuncts) = none) :
    ∃ placed, destinations scope kinds conjuncts = .ok placed := by
  induction conjuncts with
  | nil => exact ⟨[], rfl⟩
  | cons c conjuncts ih =>
    rw [columnsOf, List.flatMap_cons, Scope.rejection?_append, Option.or_eq_none_iff] at h
    obtain ⟨d, hd⟩ := destination_accepted kinds h.1
    obtain ⟨placed, hplaced⟩ := ih h.2
    exact ⟨(c.expr, d) :: placed, by rw [destinations, hd, hplaced]⟩

theorem destinations_rejected {conjuncts : List Conjunct} {e : SqlError}
    (h : scope.rejection? (columnsOf conjuncts) = some e) :
    destinations scope kinds conjuncts = .error e := by
  induction conjuncts with
  | nil => cases h
  | cons c conjuncts ih =>
    rw [columnsOf, List.flatMap_cons, Scope.rejection?_append] at h
    rw [destinations]
    cases hc : scope.rejection? c.expr.columns with
    | some e' =>
      rw [hc] at h
      cases h
      rw [destination_rejected hc]
    | none =>
      rw [hc, Option.none_or] at h
      obtain ⟨d, hd⟩ := destination_accepted kinds hc
      rw [hd, ih h]

theorem place_accepted (kinds : JoinKinds) {conjuncts : List Conjunct}
    (h : scope.rejection? (columnsOf conjuncts) = none) :
    ∃ placement, place scope kinds conjuncts = .ok placement := by
  obtain ⟨placed, hplaced⟩ := destinations_accepted kinds h
  exact ⟨_, by rw [place, hplaced]⟩

theorem place_rejected {conjuncts : List Conjunct} {e : SqlError}
    (h : scope.rejection? (columnsOf conjuncts) = some e) :
    place scope kinds conjuncts = .error e := by
  rw [place, destinations_rejected h]

end Placement

/-! ### Select lists -/

namespace SelectClause

variable {scope : Scope}

/-- The columns of expressions, in order. -/
def columnsOfAll (es : List Expr) : List (ColumnRef × Nat) :=
  es.flatMap Expr.columns

theorem resolveAll_rejected {es : List Expr} {e : SqlError}
    (h : scope.rejection? (columnsOfAll es) = some e) : resolveAll scope es = .error e := by
  induction es with
  | nil => cases h
  | cons first es ih =>
    rw [columnsOfAll, List.flatMap_cons, Scope.rejection?_append] at h
    rw [resolveAll]
    cases hfirst : scope.rejection? first.columns with
    | some e' =>
      rw [hfirst] at h
      cases h
      rw [Scope.sourcesIn, Scope.sourcesOf_rejected hfirst]
    | none =>
      rw [hfirst, Option.none_or] at h
      obtain ⟨sources, hsources⟩ := Scope.sourcesOf_accepted hfirst
      rw [Scope.sourcesIn, hsources, ih h]

/-- The columns of the items of a select list and of their windows, in order. -/
def columns (select : SelectClause) : List (ColumnRef × Nat) :=
  columnsOfAll (select.items.flatMap itemExprs)

theorem resolve_rejected {select : SelectClause} {e : SqlError}
    (h : scope.rejection? select.columns = some e) : select.resolve scope = .error e := by
  rw [resolve, resolveAll_rejected h]
  rfl

end SelectClause

namespace Compile

variable {env : Environment} {nested : Bool} {q : Query} {scope : Scope} {c c' : Counters}

/-! ### Steps that fail -/

theorem bind_of_ok {α β : Type} {x : CompileM α} {f : α → CompileM β} {a : α}
    (h : x c = .ok (a, c')) : (x >>= f) c = f a c' := by
  change (x c >>= fun r => f r.1 r.2) = _
  rw [h]
  rfl

theorem bind_of_error {α β : Type} {x : CompileM α} {f : α → CompileM β} {e : SqlError}
    (h : x c = .error e) : (x >>= f) c = .error e := by
  change (x c >>= fun r => f r.1 r.2) = _
  rw [h]
  rfl

theorem lift_of_error {α : Type} {x : Except SqlError α} {e : SqlError} (h : x = .error e) :
    (liftM x : CompileM α) c = .error e := by
  rw [h]
  rfl

/-! ### The sources of a level -/

/-- The sources of a level, declared: its master and what is joined to it. -/
def declare (env : Environment) (q : Query) : CompileM (Model × Sources) := do
  let m ← modelOfSource env q.source
  let (master, scope) ← addMaster q m
  let s ← sourcesOfJoins env master q.joins ⟨scope, [], []⟩
  return (master, s)

/-- A level is declared by its source, its master and its joins. -/
theorem declare_ok {env : Environment} {q : Query} {master : Model} {s : Sources} {c c' : Counters}
    (h : declare env q c = .ok ((master, s), c')) :
    ∃ m c₁ scope c₂, modelOfSource env q.source c = .ok (m, c₁) ∧
      addMaster q m c₁ = .ok ((master, scope), c₂) ∧
      sourcesOfJoins env master q.joins ⟨scope, [], []⟩ c₂ = .ok (s, c') := by
  obtain ⟨m, c₁, hsource, h⟩ := bind_eq_ok.mp h
  obtain ⟨⟨master', scope⟩, c₂, hmaster, h⟩ := bind_eq_ok.mp h
  obtain ⟨s', _, hjoins, h⟩ := bind_eq_ok.mp h
  cases h
  exact ⟨m, c₁, scope, c₂, hsource, hmaster, hjoins⟩

theorem declare_of_ok {env : Environment} {q : Query} {m master : Model} {scope : Scope} {s : Sources}
    {c c₁ c₂ c' : Counters} (hsource : modelOfSource env q.source c = .ok (m, c₁))
    (hmaster : addMaster q m c₁ = .ok ((master, scope), c₂))
    (hjoins : sourcesOfJoins env master q.joins ⟨scope, [], []⟩ c₂ = .ok (s, c')) :
    declare env q c = .ok ((master, s), c') :=
  (bind_of_ok hsource).trans ((bind_of_ok hmaster).trans (bind_of_ok hjoins))

theorem modelOfQuery_eq (env : Environment) (nested : Bool) (q : Query) :
    modelOfQuery env nested q =
      declare env q >>= fun r => modelOfLevel env nested q r.1 r.2 := by
  obtain ⟨position, select, source, givenName, timestamp, latestBy, joins, filter, sampleBy, orderBy,
    limit⟩ := q
  rw [modelOfQuery, declare]
  simp only [bind_assoc, pure_bind]

theorem sourcesOfJoins_append (env : Environment) (master : Model) (before after : List (JoinOf Query))
    (s : Sources) :
    sourcesOfJoins env master (before ++ after) s =
      sourcesOfJoins env master before s >>= sourcesOfJoins env master after := by
  induction before generalizing s with
  | nil => rw [List.nil_append, sourcesOfJoins, pure_bind]
  | cons j before ih =>
    obtain ⟨kind, position, source, givenName, condition⟩ := j
    rw [List.cons_append, sourcesOfJoins, sourcesOfJoins]
    simp only [bind_assoc, ih]

/-! ### The row source of a level -/

/-- The columns of the conditions of a level. -/
def conditionColumns (q : Query) (s : Sources) : List (ColumnRef × Nat) :=
  Placement.columnsOf (levelConjuncts q s)

/-- The row source of a level with its sources joined and its conditions placed. -/
def IsBody (env : Environment) (q : Query) (master : Model) (s : Sources) (c : Counters)
    (body : Model) : Prop :=
  ∃ placement joined c', Placement.place s.scope (none :: s.joins.map fun j => some j.kind)
      (levelConjuncts q s) = .ok placement ∧
    joinSources env master s.joins placement c = .ok (joined, c') ∧
    body = Clause.fillTimestamps joined

theorem sentinels_ok (enabled : Bool) (joins : List (JoinClause Model)) (c : Counters) :
    ∃ r, sentinels enabled joins c = .ok r := by
  induction joins generalizing c with
  | nil => exact ⟨_, rfl⟩
  | cons j joins ih =>
    rw [sentinels]
    split
    · obtain ⟨⟨added, c'⟩, hadded⟩ := ih { c with sentinels := c.sentinels + 1 }
      have hnumber : (modifyGet fun c : Counters =>
          (c.sentinels + 1, { c with sentinels := c.sentinels + 1 }) : CompileM Nat) c =
            .ok (c.sentinels + 1, { c with sentinels := c.sentinels + 1 }) := rfl
      exact ⟨_, (bind_of_ok hnumber).trans (bind_of_ok hadded)⟩
    · exact ih c

/-- A level whose conditions are accepted has a row source. -/
theorem exists_isBody (env : Environment) (master : Model) {s : Sources} (c : Counters)
    (h : s.scope.rejection? (conditionColumns q s) = none) :
    ∃ body, IsBody env q master s c body := by
  obtain ⟨placement, hplacement⟩ :=
    Placement.place_accepted (none :: s.joins.map fun j => some j.kind) h
  obtain ⟨⟨added, c'⟩, hadded⟩ := sentinels_ok env.settings.synthesizeCrossJoinSentinels
    (placedJoins placement s.joins) c
  exact ⟨_, placement, _, _, hplacement, bind_of_ok hadded, rfl⟩

theorem modelOfLevel_of_error {master body : Model} {s : Sources} (hbody : IsBody env q master s c body)
    {e : SqlError} (h : finishLevel env nested s.scope q body = .error e) :
    modelOfLevel env nested q master s c = .error e := by
  obtain ⟨placement, joined, c', hplacement, hjoined, rfl⟩ := hbody
  refine (bind_of_ok (lift_eq_ok.mpr ⟨hplacement, rfl⟩)).trans ?_
  exact (bind_of_ok hjoined).trans (lift_of_error h)

/-! ### The clauses of a level -/

/-- A level without a select list whose interval is left on its row source. -/
theorem finishLevel_of_left {body body' : Model} (hselect : q.select = none)
    (hleft : LeavesInterval scope nested body q.sampleBy body') :
    finishLevel env nested scope q body = (do
      Clause.checkSampleBelow none nested body'
      let ordered ← Clause.orderBody scope env.settings.maxOrderByColumns q.orderBy body'
      return { ordered with limit := q.limit }) := by
  unfold finishLevel
  generalize q.sampleBy = interval at hleft
  simp only [hselect]
  cases hleft with
  | plain => rfl
  | left hleave => simp only [hleave]; rfl

/-- A level with a select list whose key is taken from its row source. -/
theorem finishLevel_of_key {body body' : Model} {select : SelectClause} {key : Option Expr}
    (hselect : q.select = some select)
    (hkey : TakesKey select scope body q.sampleBy key body') :
    finishLevel env nested scope q body = (do
      let layers ← Layers.ofSelect select scope key
      let layers := { layers with sampleBy := q.sampleBy }
      Clause.checkSampleBelow (some layers) nested body'
      let ordered ← Clause.orderLayers scope env.settings.maxOrderByColumns q.orderBy layers
      let limited := Clause.setLimit q.limit ordered body'
      return limited.1.onto limited.2) := by
  unfold finishLevel
  generalize q.sampleBy = interval at hkey ⊢
  simp only [hselect]
  cases hkey with
  | plain => rfl
  | sampled hset => simp only [hset]; rfl

/-! ### References that a level looks up -/

/-- The columns of the conditions and of the select list of a level, in order. -/
def levelColumns (q : Query) (s : Sources) : List (ColumnRef × Nat) :=
  conditionColumns q s ++ q.select.elim [] SelectClause.columns

/-- A level looks a reference up in the scope of all its sources, which it does when everything
before the reference is in order. (The columns of `timestamp` and `latest by` are looked up before there
is more than the master.) -/
inductive Asks (env : Environment) (nested : Bool) (q : Query) (c : Counters) :
    Scope → ColumnRef → Nat → Prop where
  /-- In a condition or in the select list. -/
  | column {master : Model} {s : Sources} {c' : Counters} {ref : ColumnRef} {position : Nat}
      {before after : List (ColumnRef × Nat)}
      (hdeclared : declare env q c = .ok ((master, s), c'))
      (hrefs : levelColumns q s = before ++ (ref, position) :: after)
      (hbefore : s.scope.rejection? before = none) : Asks env nested q c s.scope ref position
  /-- As the key of a `sample by`. -/
  | key {master body : Model} {s : Sources} {c' : Counters} {ref : ColumnRef} {position : Nat}
      {interval : Expr} (hdeclared : declare env q c = .ok ((master, s), c'))
      (hbody : IsBody env q master s c' body) (hinterval : q.sampleBy = some interval)
      (hready : q.select.elim (nested = true) fun select => select.resolve s.scope = .ok true)
      (hkey : body.designatedTimestamp? = some (.column ref position)) :
      Asks env nested q c s.scope ref position
  /-- In the order of a level without a select list. -/
  | bodyOrder {master body body' : Model} {s : Sources} {c' : Counters} {ref : ColumnRef}
      {position : Nat} {before after : List (ColumnRef × Nat)}
      (hdeclared : declare env q c = .ok ((master, s), c')) (hbody : IsBody env q master s c' body)
      (hselect : q.select = none) (hleft : LeavesInterval s.scope nested body q.sampleBy body')
      (hbelow : Clause.checkSampleBelow none nested body' = .ok ())
      (hcount : Clause.checkOrderCount env.settings.maxOrderByColumns q.orderBy = .ok ())
      (hrefs : SelectClause.columnsOfAll (q.orderBy.map OrderItem.expr) =
        before ++ (ref, position) :: after)
      (hbefore : s.scope.rejection? before = none) : Asks env nested q c s.scope ref position
  /-- In the order of a select list, where no published name is meant. -/
  | listOrder {master body body' : Model} {s : Sources} {c' : Counters} {ref : ColumnRef}
      {position : Nat} {select : SelectClause} {key : Option Expr} {layers named : Layers}
      {before after bound : List OrderItem} {item : OrderItem}
      (hdeclared : declare env q c = .ok ((master, s), c')) (hbody : IsBody env q master s c' body)
      (hselect : q.select = some select) (hkey : TakesKey select s.scope body q.sampleBy key body')
      (hlayers : Layers.ofSelect select s.scope key = .ok layers)
      (hbelow : Clause.checkSampleBelow (some { layers with sampleBy := q.sampleBy }) nested body' =
        .ok ())
      (hcount : Clause.checkOrderCount env.settings.maxOrderByColumns q.orderBy = .ok ())
      (hitems : q.orderBy = before ++ item :: after)
      (hbound : Clause.orderColumns s.scope before { layers with sampleBy := q.sampleBy } =
        .ok (bound, named))
      (hitem : item.expr = .column ref position)
      (hname : Clause.orderAlias? named s.scope ref = none) : Asks env nested q c s.scope ref position

theorem finishLevel_of_rejected {select : SelectClause} {body : Model} (hselect : q.select = some select)
    {e : SqlError} (h : select.resolve scope = .error e) :
    finishLevel env nested scope q body = .error e := by
  unfold finishLevel
  simp only [hselect, Clause.setSampleBy, Layers.ofSelect, h]
  cases q.sampleBy <;> rfl

theorem sampleColumn_of_rejected {body : Model} (interval : Expr) {ref : ColumnRef} {position : Nat}
    (hkey : body.designatedTimestamp? = some (.column ref position)) {e : SqlError}
    (h : scope.resolve ref position = .error e) :
    Clause.sampleColumn scope body interval = .error e := by
  simp only [Clause.sampleColumn, hkey, Clause.checkTimestamp, Expr.column?, Expr.position, h]

theorem orderColumns_of_rejected {before bound : List OrderItem} (after : List OrderItem)
    {item : OrderItem} {layers named : Layers} (hbound : Clause.orderColumns scope before layers = .ok (bound, named))
    {ref : ColumnRef} {position : Nat} (hitem : item.expr = .column ref position)
    (hname : Clause.orderAlias? named scope ref = none) {e : SqlError}
    (h : scope.resolve ref position = .error e) :
    Clause.orderColumns scope (before ++ item :: after) layers = .error e := by
  induction before generalizing bound layers with
  | nil =>
    cases hbound
    have hcolumn : Clause.orderColumn scope item.expr named = .error e := by
      simp only [Clause.orderColumn, hitem, Expr.column?, hname, Expr.position, h]
    rw [List.nil_append, Clause.orderColumns, hcolumn]
    rfl
  | cons first before ih =>
    obtain ⟨⟨b, l⟩, hfirst, hbound⟩ := Except.bind_eq_ok.mp hbound
    obtain ⟨⟨rest, l'⟩, hrest, hbound⟩ := Except.bind_eq_ok.mp hbound
    cases hbound
    rw [List.cons_append, Clause.orderColumns, hfirst]
    change (Clause.orderColumns scope (before ++ item :: after) l >>= _) = _
    rw [ih hrest]
    rfl

/-- A key that is rejected fails a level that aggregates by the interval or hands it on. -/
theorem finishLevel_of_rejectedKey {body : Model} {interval : Expr} (hinterval : q.sampleBy = some interval)
    (hready : q.select.elim (nested = true) fun select => select.resolve scope = .ok true)
    {e : SqlError} (h : Clause.sampleColumn scope body interval = .error e) :
    finishLevel env nested scope q body = .error e := by
  unfold finishLevel
  cases hselect : q.select with
  | some select =>
    rw [hselect] at hready
    simp only [hinterval, Clause.setSampleBy]
    rw [show select.resolve scope = .ok true from hready, h]
    rfl
  | none =>
    rw [hselect] at hready
    simp only [hinterval, Clause.leaveSampleBy]
    rw [if_pos (show nested = true from hready), h]
    rfl

theorem orderBody_of_rejected {maxColumns : Nat} {items : List OrderItem} {body : Model}
    (hcount : Clause.checkOrderCount maxColumns items = .ok ()) {e : SqlError}
    (h : scope.rejection? (SelectClause.columnsOfAll (items.map OrderItem.expr)) = some e) :
    Clause.orderBody scope maxColumns items body = .error e := by
  cases items with
  | nil => cases h
  | cons item items =>
    rw [Clause.orderBody, if_neg (by simp), hcount, SelectClause.resolveAll_rejected h]
    rfl

theorem orderLayers_of_rejected {maxColumns : Nat} {items : List OrderItem} {layers : Layers}
    (hcount : Clause.checkOrderCount maxColumns items = .ok ()) {e : SqlError}
    (h : Clause.orderColumns scope items layers = .error e) :
    Clause.orderLayers scope maxColumns items layers = .error e := by
  cases items with
  | nil => cases h
  | cons item items =>
    rw [Clause.orderLayers, if_neg (by simp), hcount, h]
    rfl

/-- **The error of a reference is the error of the level that looks it up.** -/
theorem Asks.error {ref : ColumnRef} {position : Nat} (h : Asks env nested q c scope ref position)
    {e : SqlError} (he : scope.resolve ref position = .error e) :
    modelOfQuery env nested q c = .error e := by
  rw [modelOfQuery_eq]
  cases h with
  | @column master s c' _ _ before after hdeclared hrefs hbefore =>
    refine (bind_of_ok hdeclared).trans ?_
    have hfirst := Scope.rejection?_first hrefs hbefore he
    rw [levelColumns, Scope.rejection?_append] at hfirst
    cases hconditions : s.scope.rejection? (conditionColumns q s) with
    | some e' =>
      rw [hconditions] at hfirst
      cases hfirst
      exact bind_of_error (lift_of_error (Placement.place_rejected hconditions))
    | none =>
      obtain ⟨body, hbody⟩ := exists_isBody env master c' hconditions
      rw [hconditions, Option.none_or] at hfirst
      cases hselect : q.select with
      | none =>
        rw [hselect] at hfirst
        cases hfirst
      | some select =>
        rw [hselect] at hfirst
        exact modelOfLevel_of_error hbody
          (finishLevel_of_rejected hselect (SelectClause.resolve_rejected hfirst))
  | @key master body s c' _ _ interval hdeclared hbody hinterval hready hkey =>
    refine (bind_of_ok hdeclared).trans (modelOfLevel_of_error hbody ?_)
    exact finishLevel_of_rejectedKey hinterval hready (sampleColumn_of_rejected interval hkey he)
  | @bodyOrder master body body' s c' _ _ before after hdeclared hbody hselect hleft hbelow hcount
      hrefs hbefore =>
    refine (bind_of_ok hdeclared).trans (modelOfLevel_of_error hbody ?_)
    have hfirst := Scope.rejection?_first hrefs hbefore he
    rw [finishLevel_of_left hselect hleft, hbelow, orderBody_of_rejected hcount hfirst]
    rfl
  | @listOrder master body body' s c' _ _ select key layers named before after bound item hdeclared
      hbody hselect hkey hlayers hbelow hcount hitems hbound hitem hname =>
    refine (bind_of_ok hdeclared).trans (modelOfLevel_of_error hbody ?_)
    have hcolumns := orderColumns_of_rejected after hbound hitem hname he
    rw [← hitems] at hcolumns
    rw [finishLevel_of_key hselect hkey, hlayers]
    change (Clause.checkSampleBelow (some { layers with sampleBy := q.sampleBy }) nested body' >>= _) = _
    rw [hbelow]
    change (Clause.orderLayers _ _ _ _ >>= _) = _
    rw [orderLayers_of_rejected hcount hcolumns]
    rfl

/-! ### Levels that a statement reaches -/

/-- Compiling a query with the counters given reaches a level: the query itself, or a sub-query in
one of its sources when the sources before it are declared. -/
inductive Reaches (env : Environment) (level : Bool × Query × Counters) :
    Bool → Query → Counters → Prop where
  | here : Reaches env level level.1 level.2.1 level.2.2
  | source {nested : Bool} {q inner : Query} {c : Counters} (hsource : q.source = .query inner)
      (h : Reaches env level true inner c) : Reaches env level nested q c
  | joined {nested : Bool} {q inner : Query} {c c₁ c₂ c₃ : Counters} {m master : Model} {scope : Scope}
      {s : Sources} {before after : List (JoinOf Query)} {j : JoinOf Query}
      (hsource : modelOfSource env q.source c = .ok (m, c₁))
      (hmaster : addMaster q m c₁ = .ok ((master, scope), c₂))
      (hjoins : q.joins = before ++ j :: after)
      (hbefore : sourcesOfJoins env master before ⟨scope, [], []⟩ c₂ = .ok (s, c₃))
      (hinner : j.source = .query inner) (h : Reaches env level true inner c₃) :
      Reaches env level nested q c

theorem modelOfSource_of_error {inner : Query} {e : SqlError}
    (h : modelOfQuery env true inner c = .error e) :
    modelOfSource env (.query inner) c = .error e := by
  rw [modelOfSource]
  exact bind_of_error h

/-- **The error of a level is the error of the query that reaches it.** -/
theorem Reaches.error {level : Bool × Query × Counters} (h : Reaches env level nested q c)
    {e : SqlError} (he : modelOfQuery env level.1 level.2.1 level.2.2 = .error e) :
    modelOfQuery env nested q c = .error e := by
  induction h with
  | here => exact he
  | source hsource _ ih =>
    rw [modelOfQuery_eq]
    have hfails := modelOfSource_of_error ih
    rw [← hsource] at hfails
    exact bind_of_error (bind_of_error hfails)
  | @joined nested q inner c c₁ c₂ c₃ m master scope s before after j hsource hmaster hjoins hbefore
      hinner _ ih =>
    rw [modelOfQuery_eq]
    have hfails := modelOfSource_of_error ih
    rw [← hinner] at hfails
    have hjoined : sourcesOfJoins env master q.joins ⟨scope, [], []⟩ c₂ = .error e := by
      rw [hjoins, sourcesOfJoins_append]
      refine (bind_of_ok hbefore).trans ?_
      obtain ⟨kind, position, source, givenName, condition⟩ := j
      rw [sourcesOfJoins]
      exact bind_of_error hfails
    have hdeclared : declare env q c = .error e :=
      (bind_of_ok hsource).trans ((bind_of_ok hmaster).trans (bind_of_error hjoined))
    exact bind_of_error hdeclared

end Compile

/-- The error of a query is that of its compilation. -/
theorem Query.compile_of_error {env : Environment} {q : Query} {e : SqlError}
    (h : Compile.modelOfQuery env false q ⟨0, 0⟩ = .error e) : q.compile env = .error e := by
  rw [Query.compile]
  change (Compile.modelOfQuery env false q ⟨0, 0⟩ >>= _) = _
  rw [h]
  rfl

end SeriesQuery
