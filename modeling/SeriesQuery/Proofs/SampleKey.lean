import SeriesQuery.Proofs.Pointing.Compile
import SeriesQuery.Proofs.TimeJoins

/-!
The column that `sample by` groups on.

A level that nominates a column of its master as its timestamp, or whose joins by time have the
designated timestamp of the master filled in, settles the key of its `sample by` before anything is
joined. The key is looked up once more among all sources of the level, and there it has rivals:
`setSampleBy_timed` says that it is the column of the master exactly if nothing that is joined
competes for the reference, and that the level is rejected as ambiguous otherwise.
-/

namespace SeriesQuery

/-! ### References to the first source -/

/-- A source competes for a reference to another one: the qualifier names it too, or it has a column
of the name where there is no qualifier. -/
def ScopeEntry.competes (e : ScopeEntry) (ref : ColumnRef) : Bool :=
  match ref.qualifier with
  | some qualifier => e.isNamed qualifier
  | none => (e.column? ref.name).isSome

namespace Scope

/-- Whether a source of a list passes a test does not hang on the places of the sources. -/
theorem any_zipIdx (entries : List ScopeEntry) (test : ScopeEntry → Bool) (k : Nat) :
    entries.any test = (entries.zipIdx k).any fun e => test e.1 := by
  conv_lhs => rw [← List.zipIdx_map_fst k entries]
  rw [List.any_map]
  rfl

theorem resolve_cons_qualified {entry : ScopeEntry} {entries : List ScopeEntry}
    {qualifier name : String} {p : Nat} {r : Resolution}
    (h : (⟨[entry]⟩ : Scope).resolve (.qualified qualifier name) p = .ok r) :
    (⟨entry :: entries⟩ : Scope).resolve (.qualified qualifier name) p =
      if entries.any (·.isNamed qualifier) then
        .error ⟨p, .ambiguousColumn (ColumnRef.qualified qualifier name).text⟩
      else .ok r := by
  obtain ⟨found, column, hnamed, hcolumn, htype⟩ := resolve_qualified h
  obtain ⟨hentry, hname⟩ : (entry, 0) = (found, r.source) ∧ entry.isNamed qualifier = true := by
    simp only [named, List.zipIdx_cons, List.zipIdx_nil, List.filter_cons, List.filter_nil]
      at hnamed
    split at hnamed
    · rename_i hname
      exact ⟨(List.cons.inj hnamed).1, hname⟩
    · cases hnamed
  obtain ⟨rfl, hsource⟩ := Prod.mk.inj hentry
  have hall : (⟨entry :: entries⟩ : Scope).named qualifier =
      (entry, 0) :: (entries.zipIdx 1).filter fun e => e.1.isNamed qualifier := by
    simp [named, List.zipIdx_cons, hname]
  rw [any_zipIdx entries _ 1]
  cases hothers : (entries.zipIdx 1).filter fun e => e.1.isNamed qualifier with
  | nil =>
    rw [hothers] at hall
    rw [List.any_eq_false.mpr (List.filter_eq_nil_iff.mp hothers)]
    simp only [resolve, ColumnRef.qualified, hall, hcolumn, hsource, ← htype, Bool.false_eq_true,
      if_false]
  | cons x rest =>
    rw [hothers] at hall
    have hx := List.mem_filter.mp (hothers ▸ List.mem_cons_self :
      x ∈ (entries.zipIdx 1).filter fun e => e.1.isNamed qualifier)
    rw [List.any_eq_true.mpr ⟨x, hx⟩]
    simp only [resolve, ColumnRef.qualified, hall, if_true]

theorem resolve_cons_plain {entry : ScopeEntry} {entries : List ScopeEntry} {name : String}
    {p : Nat} {r : Resolution} (h : (⟨[entry]⟩ : Scope).resolve (.plain name) p = .ok r) :
    (⟨entry :: entries⟩ : Scope).resolve (.plain name) p =
      if entries.any fun e => (e.column? name).isSome then .error ⟨p, .ambiguousColumn name⟩
      else .ok r := by
  have hone := resolve_plain h
  have hall : (⟨entry :: entries⟩ : Scope).holders name =
      r :: (entries.zipIdx 1).filterMap fun e => (e.1.column? name).map fun c => ⟨e.2, c.type⟩ := by
    simp only [holders, List.zipIdx_cons, List.zipIdx_nil, List.filterMap_cons,
      List.filterMap_nil] at hone ⊢
    split at hone
    · cases hone
    · rw [(List.cons.inj hone).1]
  rw [any_zipIdx entries _ 1]
  cases hothers : (entries.zipIdx 1).filterMap fun e => (e.1.column? name).map fun c =>
      (⟨e.2, c.type⟩ : Resolution) with
  | nil =>
    rw [hothers] at hall
    have hnone : ∀ e ∈ entries.zipIdx 1, ¬ (e.1.column? name).isSome = true := by
      intro e he hsome
      have hmap := List.filterMap_eq_nil_iff.mp hothers e he
      rw [Option.map_eq_none_iff] at hmap
      rw [hmap] at hsome
      cases hsome
    rw [List.any_eq_false.mpr hnone]
    simp only [resolve, ColumnRef.plain, hall, Bool.false_eq_true, if_false]
  | cons x rest =>
    rw [hothers] at hall
    obtain ⟨e, he, hx⟩ := List.mem_filterMap.mp (hothers ▸ List.mem_cons_self :
      x ∈ (entries.zipIdx 1).filterMap fun e => (e.1.column? name).map fun c =>
        (⟨e.2, c.type⟩ : Resolution))
    have hsome : (e.1.column? name).isSome = true := by
      obtain ⟨c, hc, -⟩ := Option.map_eq_some_iff.mp hx
      exact Option.isSome_of_eq_some hc
    rw [List.any_eq_true.mpr ⟨e, he, hsome⟩]
    simp only [resolve, ColumnRef.plain, hall, if_true]

/-- A reference to the only source of a scope still leads there when sources are added that do not
compete for it, and is ambiguous as soon as one does. -/
theorem resolve_cons {entry : ScopeEntry} {entries : List ScopeEntry} {ref : ColumnRef} {p : Nat}
    {r : Resolution} (h : (⟨[entry]⟩ : Scope).resolve ref p = .ok r) :
    (⟨entry :: entries⟩ : Scope).resolve ref p =
      if entries.any (·.competes ref) then .error ⟨p, .ambiguousColumn ref.text⟩ else .ok r := by
  obtain ⟨qualifier, name⟩ := ref
  cases qualifier with
  | some qualifier => exact resolve_cons_qualified h
  | none => exact resolve_cons_plain h

end Scope

/-! ### The sources of a level -/

/-- A model as the scope of a level lists it. -/
def Model.asEntry (m : Model) : ScopeEntry :=
  ⟨m.name?, m.ownColumns⟩

namespace Compile

variable {env : Environment} {q : Query} {c c' : Counters} {master body : Model} {s : Sources}

/-- The joined sources are of the kinds that are written. -/
theorem kinds_sourcesOfJoins : ∀ (joins : List (JoinOf Query)) {s s' : Sources} {c c' : Counters},
    sourcesOfJoins env master joins s c = .ok (s', c') →
      s'.joins.map UnplacedJoin.kind = s.joins.map UnplacedJoin.kind ++ joins.map JoinOf.kind
  | [], s, s', c, c', h => by
    rw [sourcesOfJoins] at h
    cases h
    simp
  | ⟨kind, position, source, givenName, condition⟩ :: joins, s, s', c, c', h => by
    rw [sourcesOfJoins] at h
    obtain ⟨m, _, -, h⟩ := bind_eq_ok.mp h
    obtain ⟨added, _, hadded, h⟩ := bind_eq_ok.mp h
    obtain ⟨name, hjoins, -⟩ := addJoin_eq hadded
    rw [kinds_sourcesOfJoins joins h, hjoins]
    simp

/-- A scope lists its sources. -/
theorem Opens.scope_eq {scope : Scope} {sources : List Model} (h : Opens env q c scope sources) :
    scope = ⟨sources.map Model.asEntry⟩ := by
  have hentries : List.Forall₂ (fun e m => e = Model.asEntry m) scope.entries sources :=
    h.entries.imp fun _ _ h => h.entry
  rw [← List.forall₂_map_right_iff, List.forall₂_eq_eq_eq] at hentries
  exact congrArg Scope.mk hentries

/-- The scope of a level lists its master and what is joined to it. -/
theorem scope_declared (hdeclared : declare env q c = .ok ((master, s), c')) :
    s.scope = ⟨master.asEntry :: s.joins.map fun joined => joined.model.asEntry⟩ := by
  rw [(Opens.sources hdeclared).scope_eq, List.map_cons, List.map_map]
  rfl

/-- Every declared join is placed. -/
theorem exists_placedJoin {placement : Placement} {pending : List UnplacedJoin}
    (horder : placement.order.tail.Perm (List.range' 1 pending.length)) {unplaced : UnplacedJoin}
    (h : unplaced ∈ pending) : ∃ j ∈ placedJoins placement pending, j.kind = unplaced.kind := by
  obtain ⟨i, hi⟩ := List.mem_iff_getElem?.mp h
  have hlt := (List.getElem?_eq_some_iff.mp hi).1
  have hmem : i + 1 ∈ placement.order.tail := horder.mem_iff.mpr (by simp; omega)
  refine ⟨placedJoin placement (i + 1) unplaced, List.mem_filterMap.mpr ⟨i + 1, hmem, ?_⟩, rfl⟩
  rw [Nat.add_sub_cancel, hi]
  rfl

end Compile

/-! ### The time of a level -/

/-- The time of a level is settled before its `sample by`: the level nominates it, or reads a table
with a designated timestamp and has a join by time. -/
def Query.HasTime (env : Environment) (q : Query) (e : Expr) : Prop :=
  q.timestamp = some e ∨
    q.timestamp = none ∧ q.source.timestamp? env = some e ∧
      ∃ j ∈ q.joins, j.kind.matchesByTime = true

namespace Compile

variable {env : Environment} {q : Query} {c c' : Counters} {master body : Model} {s : Sources}

theorem joinsByTime_placed {placement : Placement}
    (hdeclared : declare env q c = .ok ((master, s), c'))
    (hplace : Placement.place s.scope (none :: s.joins.map fun j => some j.kind)
      (levelConjuncts q s) = .ok placement)
    (h : ∃ j ∈ q.joins, j.kind.matchesByTime = true) :
    (placedJoins placement s.joins).any Clause.joinsByTime = true := by
  obtain ⟨j, hj, htime⟩ := h
  obtain ⟨_, _, scope, _, -, -, hjoins⟩ := declare_ok hdeclared
  have hkind : j.kind ∈ s.joins.map UnplacedJoin.kind := by
    rw [kinds_sourcesOfJoins q.joins hjoins]
    exact List.mem_append_right _ (List.mem_map_of_mem hj)
  obtain ⟨unplaced, hunplaced, hsame⟩ := List.mem_map.mp hkind
  have horder := Placement.tail_order_place hplace
  rw [List.tail_cons, List.length_map] at horder
  obtain ⟨placed, hplaced, hplacedKind⟩ := exists_placedJoin horder hunplaced
  refine List.any_eq_true.mpr ⟨placed, hplaced, ?_⟩
  rw [Clause.joinsByTime, hplacedKind, hsame, htime]

/-- The row source of a level carries its time. -/
theorem timestamp_isBody (hdeclared : declare env q c = .ok ((master, s), c'))
    (hbody : IsBody env q master s c' body) {e : Expr} (h : q.HasTime env e) :
    body.timestamp = some e := by
  obtain ⟨placement, joined, _, hplace, hjoined, rfl⟩ := hbody
  obtain ⟨m, _, scope, _, hsource, hmaster, -⟩ := declare_ok hdeclared
  obtain ⟨hnone, htable⟩ := timestamp_modelOfSource hsource
  obtain ⟨hkept, hkeptTable⟩ := timestamp_joinSources hjoined
  obtain ⟨name, latestBy, -, rfl⟩ := addMaster_eq hmaster
  rcases h with hnominated | ⟨hunwritten, hdesignated, htime⟩
  · have hsome : joined.timestamp = some e := by
      rw [hkept, hnominated]
      rfl
    unfold Clause.fillTimestamps Clause.fillTimestamp
    split
    · rw [if_pos (by rw [hsome]; rfl)]
      exact hsome
    · exact hsome
  · have hany : joined.joins.any Clause.joinsByTime = true := by
      obtain ⟨_, _, _, heq⟩ := joinSources_eq hjoined
      rw [heq]
      exact joinsByTime_placed hdeclared hplace htime
    have hempty : joined.timestamp = none := by
      rw [hkept, hunwritten, hnone]
      rfl
    have htable' : joined.timestampOfTable? = some e := by
      rw [hkeptTable, ← hdesignated, ← htable]
      rfl
    unfold Clause.fillTimestamps Clause.fillTimestamp
    rw [if_pos hany, if_neg (by simp [hempty])]
    exact htable'

/-! ### The key of `sample by` -/

/-- A level groups by an interval under a select list that aggregates, and its time is the column
of type `TIMESTAMP` that `e` refers to in the master alone. -/
structure TimedLevel (env : Environment) (q : Query) (c : Counters) (select : SelectClause)
    (interval : Expr) (s : Sources) (body : Model) (e : Expr) (ref : ColumnRef) : Prop where
  selects : q.select = some select
  samples : q.sampleBy = some interval
  time : q.HasTime env e
  column : e.column? = some ref
  level : ∃ master c', declare env q c = .ok ((master, s), c') ∧ IsBody env q master s c' body ∧
    (⟨[master.asEntry]⟩ : Scope).resolve ref e.position = .ok ⟨0, some .timestamp⟩
  aggregates : select.resolve s.scope = .ok true

variable {select : SelectClause} {interval e : Expr} {ref : ColumnRef}

/-- Among all sources of the level the time of the master is still found, or it is ambiguous. -/
theorem TimedLevel.resolve (h : TimedLevel env q c select interval s body e ref) :
    s.scope.resolve ref e.position =
      if s.joins.any (fun joined => joined.model.asEntry.competes ref) then
        .error ⟨e.position, .ambiguousColumn ref.text⟩
      else .ok ⟨0, some .timestamp⟩ := by
  obtain ⟨master, c', hdeclared, -, hown⟩ := h.level
  rw [scope_declared hdeclared, Scope.resolve_cons hown, List.any_map]
  rfl

/-- The key is the time of the level, if the reference to it is accepted. -/
theorem TimedLevel.setSampleBy (h : TimedLevel env q c select interval s body e ref) :
    Clause.setSampleBy select s.scope body interval =
      (s.scope.resolve ref e.position).bind fun resolved =>
        if resolved.type.any fun t => t ≠ .timestamp then
          .error ⟨e.position, .notATimestamp ref.name⟩
        else .ok (e, { body with timestamp := none }) := by
  obtain ⟨master, c', hdeclared, hbody, -⟩ := h.level
  have htime : body.designatedTimestamp? = some e := by
    rw [Model.designatedTimestamp?, timestamp_isBody hdeclared hbody h.time]
  rw [Clause.setSampleBy, h.aggregates]
  change (Clause.sampleColumn s.scope body interval >>= _) = _
  simp only [Clause.sampleColumn, htime, Clause.checkTimestamp, h.column]
  cases s.scope.resolve ref e.position with
  | error error => rfl
  | ok resolved =>
    simp only [Except.bind]
    generalize (resolved.type.any fun t => decide (t ≠ .timestamp)) = wrong
    cases wrong <;> rfl

/-- **What `sample by` groups on.** The key of a level whose time is settled by its master is that
column of the master, unless something that is joined competes for the reference to it; then the
reference is ambiguous. -/
theorem setSampleBy_timed (h : TimedLevel env q c select interval s body e ref) :
    ((∀ joined ∈ s.joins, joined.model.asEntry.competes ref = false) →
      Clause.setSampleBy select s.scope body interval = .ok (e, { body with timestamp := none }) ∧
        s.scope.resolve ref e.position = .ok ⟨0, some .timestamp⟩) ∧
    ((∃ joined ∈ s.joins, joined.model.asEntry.competes ref = true) →
      Clause.setSampleBy select s.scope body interval =
        .error ⟨e.position, .ambiguousColumn ref.text⟩) := by
  have hresolve := h.resolve
  constructor
  · intro hnone
    rw [if_neg (by simpa using hnone)] at hresolve
    refine ⟨?_, hresolve⟩
    rw [h.setSampleBy, hresolve]
    rfl
  · intro hsome
    rw [if_pos (List.any_eq_true.mpr hsome)] at hresolve
    rw [h.setSampleBy, hresolve]
    rfl

/-! ### Two markets -/

/-- Whether an expression is the given reference, at the given place. -/
def isReference (ref : ColumnRef) (position : Nat) (e : Expr) : Bool :=
  match e with
  | .column r p => r = ref && p = position
  | _ => false

/-- Whether a reference at the given place is the time of a level. -/
def hasTime (env : Environment) (q : Query) (ref : ColumnRef) (position : Nat) : Bool :=
  q.timestamp.any (isReference ref position) ||
    (q.timestamp.isNone && (q.source.timestamp? env).any (isReference ref position) &&
      q.joins.any fun j => j.kind.matchesByTime)

theorem hasTime_ok {position : Nat} (h : hasTime env q ref position = true) :
    q.HasTime env (.column ref position) := by
  have hreference : ∀ {t : Option Expr}, t.any (isReference ref position) = true →
      t = some (.column ref position) := by
    intro t ht
    obtain ⟨e, rfl, he⟩ := Option.any_eq_true _ _ |>.mp ht
    unfold isReference at he
    split at he
    · obtain ⟨rfl, rfl⟩ := by simpa using he
      rfl
    · cases he
  rcases Bool.or_eq_true_iff.mp h with h | h
  · exact .inl (hreference h)
  · obtain ⟨h, hjoins⟩ := Bool.and_eq_true_iff.mp h
    obtain ⟨hnone, hdesignated⟩ := Bool.and_eq_true_iff.mp h
    exact .inr
      ⟨Option.isNone_iff_eq_none.mp hnone, hreference hdesignated, List.any_eq_true.mp hjoins⟩

/-- A level that a test finds in a statement. -/
theorem exists_timedLevel (env : Environment) (sql : String) (ref : ColumnRef) (position : Nat)
    (p : Sources → Bool)
    (h : (match Statement.ofText sql with
      | .ok (.query q) => q.select.any fun select => q.sampleBy.isSome &&
          hasTime env q ref position && (declare env q ⟨0, 0⟩).toOption.any fun r =>
            r.1.2.scope.rejection? (conditionColumns q r.1.2) = none &&
            (select.resolve r.1.2.scope).toOption.any id &&
            ((⟨[r.1.1.asEntry]⟩ : Scope).resolve ref position).toOption.any
              (fun found => found = ⟨0, some .timestamp⟩) && p r.1.2
      | _ => false) = true) :
    ∃ q select interval s body, Statement.ofText sql = .ok (.query q) ∧
      TimedLevel env q ⟨0, 0⟩ select interval s body (.column ref position) ref ∧ p s = true := by
  obtain ⟨q, hq, h⟩ := Statement.exists_query sql _ h
  obtain ⟨select, hselect, h⟩ := Option.any_eq_true _ _ |>.mp h
  obtain ⟨h, hdeclared⟩ := Bool.and_eq_true_iff.mp h
  obtain ⟨hinterval, htime⟩ := Bool.and_eq_true_iff.mp h
  obtain ⟨interval, hinterval⟩ := Option.isSome_iff_exists.mp hinterval
  obtain ⟨⟨⟨master, s⟩, c'⟩, hdeclared, h⟩ := Except.any_toOption.mp hdeclared
  obtain ⟨h, hp⟩ := Bool.and_eq_true_iff.mp h
  obtain ⟨h, hown⟩ := Bool.and_eq_true_iff.mp h
  obtain ⟨haccepted, haggregates⟩ := Bool.and_eq_true_iff.mp h
  obtain ⟨aggregates, hresolve, haggregates⟩ := Except.any_toOption.mp haggregates
  obtain ⟨found, hfound, hown⟩ := Except.any_toOption.mp hown
  obtain rfl := of_decide_eq_true hown
  obtain rfl : aggregates = true := haggregates
  obtain ⟨body, hbody⟩ := exists_isBody env master c' (of_decide_eq_true haccepted)
  exact ⟨q, select, interval, s, body, hq, ⟨hselect, hinterval, hasTime_ok htime, rfl,
    ⟨master, c', hdeclared, hbody, hfound⟩, hresolve⟩, hp⟩

/-- The designated timestamp of the trades is filled in for an asof join, and is what `sample by`
groups on. -/
theorem setSampleBy_timed_filled :
    ∃ q select interval s body,
      Statement.ofText "select sum(price) from trades asof join quotes sample by 1h" =
        .ok (.query q) ∧
      TimedLevel marketEnvironment q ⟨0, 0⟩ select interval s body (.column (.plain "t") 0)
        (.plain "t") ∧
      Clause.setSampleBy select s.scope body interval =
        .ok (.column (.plain "t") 0, { body with timestamp := none }) := by
  obtain ⟨q, select, interval, s, body, hq, htimed, hs⟩ := exists_timedLevel marketEnvironment
    "select sum(price) from trades asof join quotes sample by 1h" (.plain "t") 0
    (fun s => s.joins.all fun joined => !joined.model.asEntry.competes (.plain "t"))
    (by decide +kernel)
  have hnone : ∀ joined ∈ s.joins, joined.model.asEntry.competes (.plain "t") = false :=
    fun joined hjoined => by simpa using List.all_eq_true.mp hs joined hjoined
  exact ⟨q, select, interval, s, body, hq, htimed, ((setSampleBy_timed htimed).1 hnone).1⟩

/-- The time that the level nominates is a column of the trades alone where it is nominated, and the
level is rejected for a column of the quotes. -/
theorem nominated_timestamp_ambiguous :
    ∃ q select interval s body,
      Statement.ofText "select sum(price) from trades timestamp(ts) asof join quotes sample by 1h" =
        .ok (.query q) ∧
      TimedLevel tapeEnvironment q ⟨0, 0⟩ select interval s body (.column (.plain "ts") 40)
        (.plain "ts") ∧
      Clause.setSampleBy select s.scope body interval = .error ⟨40, .ambiguousColumn "ts"⟩ := by
  obtain ⟨q, select, interval, s, body, hq, htimed, hs⟩ := exists_timedLevel tapeEnvironment
    "select sum(price) from trades timestamp(ts) asof join quotes sample by 1h" (.plain "ts") 40
    (fun s => s.joins.any fun joined => joined.model.asEntry.competes (.plain "ts"))
    (by decide +kernel)
  refine ⟨q, select, interval, s, body, hq, htimed, ?_⟩
  rw [htimed.setSampleBy, htimed.resolve, if_pos hs]
  rfl

end Compile

end SeriesQuery
