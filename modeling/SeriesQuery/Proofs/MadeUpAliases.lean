import Mathlib.Data.List.Sigma
import SeriesQuery.Proofs.Alias
import SeriesQuery.Proofs.SampleKey

/-!
Aliases that are made up.

Where a level needs a name for a source that is written without one, an alias is made up: for the master
of a level with joins, and for a source that is joined on a list of columns. The numbers of these aliases
only go up in a statement (`Compile.CountsUp`), so no two of them are alike. Nothing keeps them apart from
the names that are written, though: a made-up alias is also the name of another source exactly if that
source is written with it (`Called.madeUp`). A list of columns is expanded to equalities of its source and
the master all the same, and their sides lead to these two sources unless another one has the name, which
makes them ambiguous (`Query.compile_madeUpAlias`).
-/

namespace SeriesQuery

/-! ### Sources as they are written -/

/-- A source as its level writes it: its name, if it has one, and whether the level needs one. -/
structure WrittenSource where
  name? : Option String
  needsName : Bool
deriving DecidableEq

/-- The name of the table that a source reads. -/
def SourceOf.tableName? {Q : Type} : SourceOf Q → Option String
  | .table name => some name.name
  | .query _ => none

/-- A source and its alias as they are written. -/
def SourceOf.written {Q : Type} (source : SourceOf Q) (given : Option Ident) (needsName : Bool) :
    WrittenSource :=
  ⟨(given.map Ident.name).or source.tableName?, needsName⟩

/-- A joined source as it is written. -/
def JoinOf.written (j : JoinOf Query) : WrittenSource :=
  j.source.written j.givenName (Compile.namesColumns j.condition)

/-- The sources of a level as they are written, the master first. -/
def Query.written (q : Query) : List WrittenSource :=
  q.source.written q.givenName (!q.joins.isEmpty) :: q.joins.map JoinOf.written

/-- The names of the sources, in order. -/
def Scope.names (s : Scope) : List (Option String) :=
  s.entries.map ScopeEntry.name

/-- The made-up alias number `n`. -/
def Compile.madeUp (n : Nat) : String :=
  AliasSet.numbered "_xQdbA" n

namespace WrittenSource

variable {w : WrittenSource}

/-- The source has no name and needs one. -/
def IsUnnamed (w : WrittenSource) : Prop :=
  w.name? = none ∧ w.needsName = true

/-- The name of a source where the next made-up alias has the number `n`. -/
def nameAt (w : WrittenSource) (n : Nat) : Option String :=
  w.name?.or (if w.needsName then some (Compile.madeUp n) else none)

theorem IsUnnamed.nameAt (h : w.IsUnnamed) (n : Nat) : w.nameAt n = some (Compile.madeUp n) := by
  simp [WrittenSource.nameAt, h.1, h.2]

theorem nameAt_of_not_isUnnamed (h : ¬ w.IsUnnamed) (n : Nat) : w.nameAt n = w.name? := by
  cases hname : w.name? with
  | some name => simp [nameAt, hname]
  | none =>
    have hneeds : w.needsName = false := Bool.eq_false_iff.mpr fun hneeds => h ⟨hname, hneeds⟩
    simp [nameAt, hname, hneeds]

end WrittenSource

/-- One of the names, that of the source number `i`, is like the one given, in any case. -/
def HasName (names : List (Option String)) (i : Nat) (a : String) : Prop :=
  ∃ name, names[i]? = some (some name) ∧ Ascii.same name a = true

/-! ### Numbers that go up -/

theorem Compile.madeUp_same_iff {m n : Nat} :
    Ascii.same (Compile.madeUp m) (Compile.madeUp n) = true ↔ m = n :=
  Ascii.same_iff.trans (AliasSet.numbered_injective "_xQdbA").eq_iff

/-- Sources have their written names, and made-up aliases with numbers that go up from `n`. -/
inductive Called : Nat → List WrittenSource → List (Option String) → Prop where
  | nil {n : Nat} : Called n [] []
  | cons {n k k' : Nat} {w : WrittenSource} {ws : List WrittenSource} {names : List (Option String)}
      (hle : n ≤ k) (hnext : k ≤ k') (htaken : w.IsUnnamed → k < k') (rest : Called k' ws names) :
      Called n (w :: ws) (w.nameAt k :: names)

namespace Called

variable {n i : Nat} {ws : List WrittenSource} {names : List (Option String)} {w : WrittenSource}

theorem exists_number (h : Called n ws names) (hw : ws[i]? = some w) :
    ∃ k, n ≤ k ∧ names[i]? = some (w.nameAt k) := by
  induction h generalizing i with
  | nil => cases hw
  | @cons n k k' first ws names hle hnext _ _ ih =>
    cases i with
    | zero =>
      obtain rfl : first = w := Option.some.inj hw
      exact ⟨k, hle, rfl⟩
    | succ i =>
      obtain ⟨m, hm, hname⟩ := ih hw
      exact ⟨m, (hle.trans hnext).trans hm, hname⟩

/-- A source whose level needs a name for it has one. -/
theorem exists_name (h : Called n ws names) (hw : ws[i]? = some w) (hneeds : w.needsName = true) :
    ∃ name, names[i]? = some (some name) := by
  obtain ⟨k, -, hname⟩ := h.exists_number hw
  cases hwritten : w.name? with
  | some name => exact ⟨name, by simp [hname, WrittenSource.nameAt, hwritten]⟩
  | none => exact ⟨_, by rw [hname, WrittenSource.IsUnnamed.nameAt ⟨hwritten, hneeds⟩]⟩

theorem length_eq (h : Called n ws names) : names.length = ws.length := by
  induction h with
  | nil => rfl
  | cons _ _ _ _ ih => exact congrArg (· + 1) ih

end Called

/-- Of a source that does not take the number `n`, the name is like the made-up alias of that number only
if it is written. -/
theorem WrittenSource.nameAt_same_iff {w : WrittenSource} {m n : Nat} (hne : w.IsUnnamed → m ≠ n) :
    (∃ name, w.nameAt m = some name ∧ Ascii.same name (Compile.madeUp n) = true) ↔
      ∃ name, w.name? = some name ∧ Ascii.same name (Compile.madeUp n) = true := by
  by_cases hunnamed : w.IsUnnamed
  · simp [hunnamed.nameAt, hunnamed.1, Compile.madeUp_same_iff, hne hunnamed]
  · rw [nameAt_of_not_isUnnamed hunnamed]

namespace Called

variable {n i : Nat} {ws : List WrittenSource} {names : List (Option String)} {w : WrittenSource}

/-- **A made-up alias is the name of another source exactly if that source is written with it.** -/
theorem madeUp (h : Called n ws names) (hw : ws[i]? = some w) (hunnamed : w.IsUnnamed) :
    ∃ m, n ≤ m ∧ names[i]? = some (some (Compile.madeUp m)) ∧ ∀ k, k ≠ i →
      (HasName names k (Compile.madeUp m) ↔
        HasName (ws.map WrittenSource.name?) k (Compile.madeUp m)) := by
  induction h generalizing i with
  | nil => cases hw
  | @cons n first next v ws names hle hnext htaken rest ih =>
    cases i with
    | zero =>
      obtain rfl : v = w := Option.some.inj hw
      refine ⟨first, hle, by rw [List.getElem?_cons_zero, hunnamed.nameAt], fun k hk => ?_⟩
      obtain ⟨k, rfl⟩ := Nat.exists_eq_succ_of_ne_zero hk
      cases hother : ws[k]? with
      | none =>
        have hlength := List.getElem?_eq_none_iff.mp hother
        have hnames : names[k]? = none :=
          List.getElem?_eq_none_iff.mpr (rest.length_eq ▸ hlength)
        simp [HasName, hother, hnames]
      | some other =>
        obtain ⟨m, hm, hname⟩ := rest.exists_number hother
        have hne : m ≠ first := by
          have := htaken hunnamed
          omega
        simpa [HasName, hother, hname] using other.nameAt_same_iff fun _ => hne
    | succ i =>
      obtain ⟨m, hm, hname, hothers⟩ := ih hw
      refine ⟨m, (hle.trans hnext).trans hm, hname, fun k hk => ?_⟩
      cases k with
      | zero =>
        have hne : v.IsUnnamed → first ≠ m := fun hv => by
          have := htaken hv
          omega
        simpa [HasName] using WrittenSource.nameAt_same_iff hne
      | succ k => simpa [HasName] using hothers k fun heq => hk (congrArg (· + 1) heq)

end Called

namespace Compile

variable {env : Environment} {c c' : Counters}

/-- A step that takes back no number of an alias. -/
def CountsUp {α : Type} (x : CompileM α) : Prop :=
  ∀ c a c', x c = .ok (a, c') → c.aliases ≤ c'.aliases

namespace CountsUp

variable {α β : Type}

theorem pure (a : α) : CountsUp (Pure.pure a) := by
  intro c b c' h
  cases h
  exact le_rfl

theorem lift (x : Except SqlError α) : CountsUp (liftM x : CompileM α) := by
  intro c a c' h
  exact (lift_eq_ok.mp h).2 ▸ le_rfl

theorem bind {x : CompileM α} {f : α → CompileM β} (hx : CountsUp x) (hf : ∀ a, CountsUp (f a)) :
    CountsUp (x >>= f) := by
  intro c b c' h
  obtain ⟨a, between, ha, h⟩ := bind_eq_ok.mp h
  exact (hx c a between ha).trans (hf a between b c' h)

end CountsUp

theorem nameSource_countsUp (m : Model) (given : Option Ident) (needsName : Bool) :
    CountsUp (nameSource m given needsName) := by
  unfold nameSource
  dsimp only
  split
  · refine .bind ?_ fun name => .pure _
    intro c a c' h
    cases h
    exact Nat.le_succ _
  · exact .pure _

theorem addMaster_countsUp (q : Query) (m : Model) : CountsUp (addMaster q m) := by
  unfold addMaster
  refine .bind (nameSource_countsUp _ _ _) fun named => .bind (.lift _) fun scope => ?_
  exact .bind (.lift _) fun stamped => .bind (.lift _) fun latest => .pure _

theorem addJoin_countsUp (master : Model) (j : JoinOf Query) (m : Model) (s : Sources) :
    CountsUp (addJoin master j m s) := by
  unfold addJoin
  exact .bind (nameSource_countsUp _ _ _) fun named => .bind (.lift _) fun scope => .pure _

theorem sentinels_countsUp (enabled : Bool) :
    ∀ joins : List (JoinClause Model), CountsUp (sentinels enabled joins)
  | [] => .pure []
  | j :: joins => by
    have hrest := sentinels_countsUp enabled joins
    rw [sentinels]
    split
    · refine .bind ?_ fun n => .bind hrest fun added => .pure _
      intro c n c' h
      cases h
      exact le_rfl
    · exact hrest

theorem modelOfLevel_countsUp (nested : Bool) (q : Query) (master : Model) (s : Sources) :
    CountsUp (modelOfLevel env nested q master s) := by
  unfold modelOfLevel joinSources
  refine .bind (.lift _) fun placement => .bind ?_ fun body => .lift _
  exact .bind (sentinels_countsUp _ _) fun added => .pure _

mutual

theorem modelOfQuery_countsUp (nested : Bool) :
    ∀ q : Query, CountsUp (modelOfQuery env nested q)
  | ⟨position, select, source, givenName, timestamp, latestBy, joins, filter, sampleBy, orderBy,
      limit⟩ => by
    rw [modelOfQuery]
    refine .bind (modelOfSource_countsUp source) fun m => .bind (addMaster_countsUp _ m) fun r => ?_
    exact .bind (sourcesOfJoins_countsUp r.1 joins _) fun s => modelOfLevel_countsUp nested _ r.1 s

theorem modelOfSource_countsUp : ∀ source : SourceOf Query, CountsUp (modelOfSource env source)
  | .table name => by
    rw [modelOfSource]
    exact .lift _
  | .query q => by
    rw [modelOfSource]
    exact .bind (modelOfQuery_countsUp true q) fun m => .pure _

theorem sourcesOfJoins_countsUp (master : Model) :
    ∀ (joins : List (JoinOf Query)) (s : Sources), CountsUp (sourcesOfJoins env master joins s)
  | [], s => by
    rw [sourcesOfJoins]
    exact .pure s
  | ⟨kind, position, source, givenName, condition⟩ :: joins, s => by
    rw [sourcesOfJoins]
    refine .bind (modelOfSource_countsUp source) fun m => .bind (addJoin_countsUp master _ m s) fun s => ?_
    exact sourcesOfJoins_countsUp master joins s

end

/-! ### The names of a level -/

theorem tableName?_modelOfSource {source : SourceOf Query} {m : Model}
    (h : modelOfSource env source c = .ok (m, c')) : m.tableName? = source.tableName? := by
  cases source with
  | table name =>
    rw [modelOfSource] at h
    obtain ⟨h, rfl⟩ := lift_eq_ok.mp h
    unfold modelOfTable at h
    split at h <;> cases h
    rfl
  | query q =>
    rw [modelOfSource] at h
    obtain ⟨inner, _, -, h⟩ := bind_eq_ok.mp h
    cases h
    rfl

/-- A source is called by its written name, or takes the next number for an alias. -/
theorem nameSource_named {source : SourceOf Query} {m n : Model} {given : Option Ident}
    {needsName : Bool} (hm : m.tableName? = source.tableName?)
    (h : nameSource m given needsName c = .ok (n, c')) :
    n.name? = (source.written given needsName).nameAt c.aliases ∧ c.aliases ≤ c'.aliases ∧
      ((source.written given needsName).IsUnnamed → c.aliases < c'.aliases) := by
  have hwritten : { m with givenName := given.map Ident.name }.name? =
      (source.written given needsName).name? := by
    rw [SourceOf.written, ← hm]
    cases given <;> rfl
  simp only [nameSource] at h
  split at h
  · rename_i hneeds
    rw [hwritten, Bool.and_eq_true, Option.isNone_iff_eq_none] at hneeds
    have hunnamed : (source.written given needsName).IsUnnamed := ⟨hneeds.2, hneeds.1⟩
    cases h
    exact ⟨(hunnamed.nameAt c.aliases).symm, Nat.le_succ _, fun _ => Nat.lt_succ_self _⟩
  · rename_i hneeds
    have hnamed : ¬ (source.written given needsName).IsUnnamed := fun hunnamed =>
      hneeds (by rw [hwritten, Bool.and_eq_true, Option.isNone_iff_eq_none]; exact ⟨hunnamed.2, hunnamed.1⟩)
    cases h
    rw [WrittenSource.nameAt_of_not_isUnnamed hnamed]
    exact ⟨hwritten, le_rfl, fun hunnamed => absurd hunnamed hnamed⟩

theorem called_sourcesOfJoins {master : Model} : ∀ (joins : List (JoinOf Query)) {s s' : Sources}
    {c c' : Counters}, sourcesOfJoins env master joins s c = .ok (s', c') →
      ∃ names, s'.scope.names = s.scope.names ++ names ∧
        Called c.aliases (joins.map JoinOf.written) names
  | [], s, s', c, c', h => by
    rw [sourcesOfJoins] at h
    cases h
    exact ⟨[], (List.append_nil _).symm, .nil⟩
  | ⟨kind, position, source, givenName, condition⟩ :: joins, s, s', c, c', h => by
    rw [sourcesOfJoins] at h
    obtain ⟨m, c₁, hm, h⟩ := bind_eq_ok.mp h
    obtain ⟨added, c₂, hadded, h⟩ := bind_eq_ok.mp h
    obtain ⟨named, hnamed, hscope, -, -⟩ := addJoin_ok hadded
    obtain ⟨hname, hnext, htaken⟩ := nameSource_named (tableName?_modelOfSource hm) hnamed
    obtain ⟨names, hnames, hcalled⟩ := called_sourcesOfJoins joins h
    refine ⟨named.name? :: names, ?_, ?_⟩
    · rw [hnames, hscope, Scope.names, Scope.names, List.map_append, List.append_assoc]
      rfl
    · rw [hname]
      exact .cons (modelOfSource_countsUp source c m c₁ hm) hnext htaken hcalled

/-- The sources of a level are called by their written names or by made-up aliases. -/
theorem called_declare {q : Query} {master : Model} {s : Sources}
    (h : declare env q c = .ok ((master, s), c')) : Called c.aliases q.written s.scope.names := by
  obtain ⟨m, c₁, scope, c₂, hsource, hmaster, hjoins⟩ := declare_ok h
  obtain ⟨named, latestBy, hnamed, rfl, -, -⟩ := addMaster_ok hmaster
  obtain ⟨hname, hnext, htaken⟩ := nameSource_named (tableName?_modelOfSource hsource) hnamed
  obtain ⟨names, hnames, hcalled⟩ := called_sourcesOfJoins q.joins hjoins
  rw [hnames, Scope.names, List.map_singleton, List.singleton_append, hname]
  exact .cons (modelOfSource_countsUp q.source c m c₁ hsource) hnext htaken hcalled

/-! ### Lists of columns -/

/-- A condition is split into conjuncts of its join. -/
theorem origin_onConjuncts {index : Nat} {joined master : Model} {condition : Option JoinCondition}
    {k : Conjunct} (h : k ∈ onConjuncts index joined master condition) : k.origin = .on index := by
  cases condition with
  | none => cases h
  | some condition =>
    cases condition with
    | on e =>
      obtain ⟨_, -, rfl⟩ := List.mem_map.mp h
      rfl
    | columns names =>
      obtain ⟨_, -, rfl⟩ := List.mem_map.mp h
      rfl

/-- The conjuncts of the join of the source number `i`. -/
def Sources.conjunctsOf (s : Sources) (i : Nat) : List Conjunct :=
  s.conjuncts.filter fun k => k.origin = .on i

/-- The conjuncts of a join stay the same while other sources are declared. -/
theorem conjunctsOf_addJoin {master m : Model} {j : JoinOf Query} {s s' : Sources} {i : Nat}
    (hi : i < s.scope.entries.length) (h : addJoin master j m s c = .ok (s', c')) :
    s'.conjunctsOf i = s.conjunctsOf i := by
  obtain ⟨named, -, -, -, hconjuncts⟩ := addJoin_ok h
  rw [Sources.conjunctsOf, hconjuncts, List.filter_append, Sources.conjunctsOf]
  refine List.append_right_eq_self.mpr (List.filter_eq_nil_iff.mpr fun k hk => ?_)
  rw [origin_onConjuncts hk]
  simp only [Origin.on.injEq, decide_eq_true_eq]
  omega

/-- Every conjunct belongs to a source that is declared. -/
structure Sources.Numbered (s : Sources) : Prop where
  length : s.scope.entries.length = s.joins.length + 1
  origin : ∀ k ∈ s.conjuncts, ∃ i < s.scope.entries.length, k.origin = .on i

theorem Sources.Numbered.addJoin {master m : Model} {j : JoinOf Query} {s s' : Sources}
    (hs : s.Numbered) (h : Compile.addJoin master j m s c = .ok (s', c')) : s'.Numbered := by
  obtain ⟨named, -, hscope, hjoins, hconjuncts⟩ := addJoin_ok h
  refine ⟨by simp [hscope, hjoins, hs.length], fun k hk => ?_⟩
  rw [hconjuncts] at hk
  rw [hscope, List.length_append, List.length_singleton]
  rcases List.mem_append.mp hk with hk | hk
  · obtain ⟨i, hi, horigin⟩ := hs.origin k hk
    exact ⟨i, by omega, horigin⟩
  · exact ⟨_, Nat.lt_succ_self _, origin_onConjuncts hk⟩

/-- The conjuncts of a join are those of its condition. -/
theorem conjunctsOf_declare {q : Query} {master : Model} {s : Sources}
    (h : declare env q c = .ok ((master, s), c')) {before after : List (JoinOf Query)}
    {j : JoinOf Query} (hsplit : q.joins = before ++ j :: after) :
    ∃ joined, s.joins[before.length]? = some joined ∧ s.conjunctsOf (before.length + 1) =
      onConjuncts (before.length + 1) joined.model master j.condition := by
  obtain ⟨m, c₁, scope, c₂, -, hmaster, hjoins⟩ := declare_ok h
  obtain rfl := scope_addMaster hmaster
  rw [hsplit, sourcesOfJoins_append] at hjoins
  obtain ⟨t, c₃, hbefore, hjoins⟩ := bind_eq_ok.mp hjoins
  have hnumbered : t.Numbered :=
    sourcesOfJoins_keeps (fun _ hs hadded => hs.addJoin hadded) before (Q := fun _ => True)
      (fun _ _ => trivial) ⟨rfl, List.forall_mem_nil _⟩ hbefore
  have hplace : t.joins.length = before.length := by
    simpa using length_sourcesOfJoins before hbefore
  obtain ⟨kind, position, source, givenName, condition⟩ := j
  rw [sourcesOfJoins] at hjoins
  obtain ⟨m', c₄, -, hjoins⟩ := bind_eq_ok.mp hjoins
  obtain ⟨u, c₅, hadded, hafter⟩ := bind_eq_ok.mp hjoins
  obtain ⟨named, -, hscope, hdeclared, hconjuncts⟩ := addJoin_ok hadded
  have hlength : t.scope.entries.length = before.length + 1 := by rw [hnumbered.length, hplace]
  have hnew : t.conjunctsOf (before.length + 1) = [] := by
    refine List.filter_eq_nil_iff.mpr fun k hk => ?_
    obtain ⟨i, hi, horigin⟩ := hnumbered.origin k hk
    rw [horigin]
    simp only [Origin.on.injEq, decide_eq_true_eq]
    omega
  have hown : u.conjunctsOf (before.length + 1) =
      onConjuncts (before.length + 1) named master condition := by
    rw [Sources.conjunctsOf, hconjuncts, List.filter_append, hlength]
    rw [← Sources.conjunctsOf, hnew, List.nil_append]
    exact List.filter_eq_self.mpr fun k hk => decide_eq_true (origin_onConjuncts hk)
  have hplaced : u.joins[before.length]? = some ⟨kind, position, named⟩ := by
    rw [hdeclared, ← hplace, List.getElem?_concat_length]
  -- what is declared behind the join leaves its conjuncts and its place alone
  have hkept := sourcesOfJoins_keeps (Q := fun _ => True)
    (I := fun s => before.length + 1 < s.scope.entries.length ∧
      s.conjunctsOf (before.length + 1) = u.conjunctsOf (before.length + 1) ∧ u.joins <+: s.joins)
    (fun {_ _ s s' _ _} _ hs hadded => by
      obtain ⟨_, -, hscope, hjoins, -⟩ := addJoin_ok hadded
      refine ⟨by simp [hscope]; omega, (conjunctsOf_addJoin hs.1 hadded).trans hs.2.1, ?_⟩
      exact hs.2.2.trans (hjoins ▸ List.prefix_append _ _))
    after (fun _ _ => trivial)
    ⟨by rw [hscope, List.length_append, hlength]; exact Nat.lt_succ_self _, rfl, List.prefix_refl _⟩ hafter
  obtain ⟨rest, hrest⟩ := hkept.2.2
  refine ⟨⟨kind, position, named⟩, ?_, hkept.2.1.trans hown⟩
  rw [← hrest, List.getElem?_append_left (List.getElem?_eq_some_iff.mp hplaced).1, hplaced]

end Compile

/-! ### References by the name of a source -/

namespace Scope

variable {s : Scope} {i : Nat} {a column : String} {p : Nat}

/-- No source but the one with the number `i` has the name, in any case. -/
def Alone (s : Scope) (i : Nat) (a : String) : Prop :=
  ∀ k, HasName s.names k a → k = i

theorem hasName_iff : HasName s.names i a ↔ ∃ entry, (entry, i) ∈ s.named a := by
  simp only [HasName, names, List.getElem?_map, Option.map_eq_some_iff, named, List.mem_filter,
    List.mem_zipIdx_iff_getElem?, ScopeEntry.isNamed, Option.any_eq_true]
  constructor
  · rintro ⟨name, ⟨entry, hentry, hname⟩, hsame⟩
    exact ⟨entry, hentry, name, hname, hsame⟩
  · rintro ⟨entry, hentry, name, hname, hsame⟩
    exact ⟨name, ⟨entry, hentry, hname⟩, hsame⟩

/-- What becomes of a reference to a column of the source number `i` by a name of that source: it leads
to the column or the source has none, unless another source has the name, which makes the reference
ambiguous. -/
inductive LooksUp (s : Scope) (i : Nat) (a column : String) (p : Nat) : Prop where
  | found (halone : s.Alone i a) (h : s.LeadsTo (.qualified a column) i)
  | lacking (halone : s.Alone i a)
      (h : s.resolve (.qualified a column) p =
        .error ⟨p, .invalidColumn (ColumnRef.qualified a column).text⟩)
  | clashing (hother : ¬ s.Alone i a)
      (h : s.resolve (.qualified a column) p =
        .error ⟨p, .ambiguousColumn (ColumnRef.qualified a column).text⟩)

theorem nodup_named (s : Scope) (a : String) : ((s.named a).map Prod.snd).Nodup :=
  s.entries.nodup_zipIdx_map_snd.sublist (List.filter_sublist.map Prod.snd)

theorem looksUp (h : HasName s.names i a) : s.LooksUp i a column p := by
  obtain ⟨entry, hentry⟩ := hasName_iff.mp h
  by_cases halone : s.Alone i a
  · have hall : ∀ found ∈ (s.named a).map Prod.snd, found = i := by
      intro k hk
      obtain ⟨⟨found, k⟩, hfound, rfl⟩ := List.mem_map.mp hk
      exact halone k (hasName_iff.mpr ⟨found, hfound⟩)
    have hlength : (s.named a).length ≤ 1 := by
      have hnodup := s.nodup_named a
      rw [List.eq_replicate_of_mem hall, List.length_map] at hnodup
      exact List.nodup_replicate.mp hnodup
    have hnamed : s.named a = [(entry, i)] := by
      obtain ⟨found, hfound⟩ :=
        List.length_eq_one_iff.mp (le_antisymm hlength (List.length_pos_of_mem hentry))
      rw [hfound] at hentry
      rw [hfound, List.mem_singleton.mp hentry]
    cases hcolumn : entry.column? column with
    | some found =>
      refine .found halone fun q => ⟨found.type, ?_⟩
      simp only [resolve, ColumnRef.qualified, hnamed, hcolumn]
    | none =>
      refine .lacking halone ?_
      simp only [resolve, ColumnRef.qualified, hnamed, hcolumn]
  · obtain ⟨k, hk, hne⟩ : ∃ k, HasName s.names k a ∧ k ≠ i := by
      simpa [Alone] using halone
    obtain ⟨other, hother⟩ := hasName_iff.mp hk
    obtain ⟨x, y, rest, hnamed⟩ := exists_two_of_ne hentry hother fun heq =>
      hne (congrArg Prod.snd heq).symm
    refine .clashing halone ?_
    simp only [resolve, ColumnRef.qualified, hnamed]

end Scope

/-! ### Levels -/

open Compile

/-- **A made-up alias is the name of another source exactly if that source is written with it.** A source
that is joined on a list of columns has an equality with the master for each of them, both are known by
their names there, and each side of it leads to its own source, or this source has no such column, or the
name is that of another source too. In the last case alone the column is ambiguous, and so is the query
if the level looks it up. -/
theorem Query.compile_madeUpAlias {env : Environment} {q level : Query} {nested : Bool}
    {c c' : Counters} {master : Model} {s : Sources}
    (hlevel : Reaches env (nested, level, c) false q ⟨0, 0⟩)
    (hdeclared : declare env level c = .ok ((master, s), c')) :
    (∀ i w, level.written[i]? = some w → w.IsUnnamed → ∃ n,
      s.scope.names[i]? = some (some (madeUp n)) ∧ ∀ k, k ≠ i →
        (HasName s.scope.names k (madeUp n) ↔
          HasName (level.written.map WrittenSource.name?) k (madeUp n))) ∧
    (∀ before j after columns, level.joins = before ++ j :: after →
      j.condition = some (.columns columns) → ∃ joined first,
        s.scope.names[before.length + 1]? = some (some joined) ∧
        s.scope.names[0]? = some (some first) ∧
        s.conjunctsOf (before.length + 1) = columns.map (fun column =>
          ⟨.equality (.column (.qualified joined column.name) column.position)
            (.column (.qualified first column.name) column.position), .on (before.length + 1)⟩) ∧
        ∀ column ∈ columns, ∀ side ∈ [(before.length + 1, joined), (0, first)],
          s.scope.LooksUp side.1 side.2 column.name column.position ∧
          (¬ s.scope.Alone side.1 side.2 →
            Asks env nested level c s.scope (.qualified side.2 column.name) column.position →
            q.compile env = .error ⟨column.position,
              .ambiguousColumn (ColumnRef.qualified side.2 column.name).text⟩)) := by
  have hcalled := called_declare hdeclared
  refine ⟨fun i w hw hunnamed => ?_, fun before j after columns hsplit hcolumns => ?_⟩
  · obtain ⟨n, -, hname, hothers⟩ := hcalled.madeUp hw hunnamed
    exact ⟨n, hname, hothers⟩
  · obtain ⟨pending, hpending, hconjuncts⟩ := conjunctsOf_declare hdeclared hsplit
    obtain ⟨joined, hjoined⟩ : ∃ joined, s.scope.names[before.length + 1]? = some (some joined) :=
      hcalled.exists_name (w := j.written) (by simp [Query.written, hsplit])
        (by simp [JoinOf.written, SourceOf.written, hcolumns, namesColumns])
    obtain ⟨first, hfirst⟩ : ∃ first, s.scope.names[0]? = some (some first) :=
      hcalled.exists_name (w := level.source.written level.givenName (!level.joins.isEmpty)) rfl
        (by simp [SourceOf.written, hsplit])
    have hnames : s.scope.names = master.name? :: s.joins.map fun p => p.model.name? := by
      rw [scope_declared hdeclared, Scope.names, List.map_cons, List.map_map]
      rfl
    have hjoinedName : pending.model.name? = some joined := by
      simpa [hnames, hpending] using hjoined
    have hfirstName : master.name? = some first := by
      simpa [hnames] using hfirst
    refine ⟨joined, first, hjoined, hfirst, ?_, fun column hcolumn side hside => ?_⟩
    · rw [hconjuncts, hcolumns, onConjuncts]
      refine List.map_congr_left fun column _ => ?_
      simp only [sharedColumn, hjoinedName, hfirstName, Option.getD_some]
    · have hname : HasName s.scope.names side.1 side.2 := by
        rcases List.mem_cons.mp hside with rfl | hside
        · exact ⟨joined, hjoined, Ascii.same_self joined⟩
        · obtain rfl := List.mem_singleton.mp hside
          exact ⟨first, hfirst, Ascii.same_self first⟩
      have hlooks : s.scope.LooksUp side.1 side.2 column.name column.position := Scope.looksUp hname
      refine ⟨hlooks, fun hother hasks => ?_⟩
      cases hlooks with
      | found halone _ => exact absurd halone hother
      | lacking halone _ => exact absurd halone hother
      | clashing _ h => exact Query.compile_of_error (hlevel.error (hasks.error h))

/-- The columns that a condition names. -/
def JoinCondition.names : JoinCondition → List Ident
  | .on _ => []
  | .columns names => names

/-- Two sub-queries that are joined on a column are given aliases that differ, and the sides of its
equality are looked up by them. -/
theorem Query.compile_madeUpAlias_subqueries :
    ∃ q master s c', Statement.ofText "(orders) join (customers) on (id)" = .ok (.query q) ∧
      declare salesEnvironment q ⟨0, 0⟩ = .ok ((master, s), c') ∧
      (∃ n, s.scope.names[1]? = some (some (madeUp n)) ∧ ¬ HasName s.scope.names 0 (madeUp n)) ∧
      ∃ joined first, s.conjunctsOf 1 =
          [⟨.equality (.column (.qualified joined "id") 30) (.column (.qualified first "id") 30), .on 1⟩] ∧
        s.scope.LooksUp 1 joined "id" 30 ∧ s.scope.LooksUp 0 first "id" 30 := by
  obtain ⟨q, hq, hp⟩ := Statement.exists_query "(orders) join (customers) on (id)"
    (fun q => (declare salesEnvironment q ⟨0, 0⟩).toOption.any (fun _ => true) &&
      decide (q.written = [⟨none, true⟩, ⟨none, true⟩] ∧
        q.joins.map (fun j => j.condition.map JoinCondition.names) = [some [⟨"id", 30⟩]]))
    (by decide +kernel)
  obtain ⟨hdeclares, hp⟩ := Bool.and_eq_true_iff.mp hp
  obtain ⟨hwritten, hjoins⟩ := of_decide_eq_true hp
  obtain ⟨⟨⟨master, s⟩, c'⟩, hdeclared, -⟩ := Except.any_toOption.mp hdeclares
  have hlevel : Reaches salesEnvironment (false, q, ⟨0, 0⟩) false q ⟨0, 0⟩ := .here
  obtain ⟨haliases, hlists⟩ := Query.compile_madeUpAlias hlevel hdeclared
  refine ⟨q, master, s, c', hq, hdeclared, ?_, ?_⟩
  · rw [hwritten] at haliases
    obtain ⟨n, hn, hothers⟩ := haliases 1 _ rfl ⟨rfl, rfl⟩
    refine ⟨n, hn, fun h => ?_⟩
    obtain ⟨name, hname, -⟩ := (hothers 0 Nat.zero_ne_one).mp h
    cases hname
  · obtain ⟨j, hj, hcolumns⟩ := List.map_eq_singleton_iff.mp hjoins
    have hcondition : j.condition = some (.columns [⟨"id", 30⟩]) := by
      obtain ⟨condition, hcondition, hnames⟩ := Option.map_eq_some_iff.mp hcolumns
      cases condition with
      | on e => cases hnames
      | columns names => rw [hcondition, show names = _ from hnames]
    obtain ⟨joined, first, -, -, hconjuncts, hsides⟩ := hlists [] j [] _ hj hcondition
    refine ⟨joined, first, hconjuncts, ?_, ?_⟩
    · exact (hsides _ List.mem_cons_self (1, joined) (by simp)).1
    · exact (hsides _ List.mem_cons_self (0, first) (by simp)).1

/-- An alias that is written like a made-up one makes a shared column ambiguous. -/
theorem written_alias_like_madeUp :
    ∃ q master s c', Statement.ofText "orders _xQdbA0 join (customers) on (id)" = .ok (.query q) ∧
      declare salesEnvironment q ⟨0, 0⟩ = .ok ((master, s), c') ∧
      s.scope.names = [some "_xQdbA0", some (madeUp 0)] ∧
      q.compile salesEnvironment = .error ⟨36, .ambiguousColumn "_xQdbA0.id"⟩ := by
  obtain ⟨q, hq, hp⟩ := Statement.exists_query "orders _xQdbA0 join (customers) on (id)"
    (fun q => (declare salesEnvironment q ⟨0, 0⟩).toOption.any (fun r =>
        r.1.2.scope.names = [some "_xQdbA0", some (madeUp 0)]) &&
      match q.compile salesEnvironment with
      | .ok _ => false
      | .error e => e = ⟨36, .ambiguousColumn "_xQdbA0.id"⟩) (by decide +kernel)
  obtain ⟨hdeclares, hfails⟩ := Bool.and_eq_true_iff.mp hp
  obtain ⟨⟨⟨master, s⟩, c'⟩, hdeclared, hnames⟩ := Except.any_toOption.mp hdeclares
  refine ⟨q, master, s, c', hq, hdeclared, of_decide_eq_true hnames, ?_⟩
  cases hcompile : q.compile salesEnvironment with
  | ok m => simp [hcompile] at hfails
  | error e =>
    rw [hcompile] at hfails
    rw [of_decide_eq_true hfails]

end SeriesQuery
