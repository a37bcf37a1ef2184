import SeriesQuery.Proofs.Model.Rows

/-!
Filters moved into sub-queries keep the rows.

A condition on the rows of a model selects the same rows when it is moved below a
projection that passes its columns through (`rows_of_pushInto?`), whether the projection
computes one row from each or groups them: the columns that a condition may take along into
a group are keys of the group. So filters added to a source select its rows wherever they
end up (`rows_addFilters`).
-/

namespace SeriesQuery

variable {Value : Type}

/-- Replacing the columns of an expression changes what they read and nothing else. -/
theorem Operations.value_of_replaceColumnsM {ops : Operations Value}
    {read read' : ColumnRef → Value} {f : ColumnRef → Nat → Option Expr}
    (hf : ∀ ref p e', f ref p = some e' → ops.value read e' = read' ref)
    {e e' : Expr} (h : e.replaceColumnsM f = some e') :
    ops.value read e' = ops.value read' e := by
  have hvalues : ∀ {es es' : List Expr},
      List.Forall₂ (fun e e' => ops.value read e' = ops.value read' e) es es' →
        ops.values read es' = ops.values read' es := by
    intro es es' hes
    induction hes with
    | nil => rfl
    | cons he _ ih => simp only [values, he, ih]
  refine Expr.Congruent.of_replaceColumnsM
    (Q := fun e e' => ops.value read e' = ops.value read' e) ⟨?_, ?_, ?_, ?_, ?_, ?_⟩ hf h
  · intro text p
    rfl
  · intro text p
    rfl
  · intro op p a a' ha
    simp only [value, ha]
  · intro op p a a' b b' ha hb
    simp only [value, ha, hb]
  · intro name p es es' hes
    simp only [value, hvalues hes]
  · intro p a a' es es' ha hes
    simp only [value, ha, hvalues hes]

namespace RowSemantics

variable {S : RowSemantics Value}

/-! ### Conditions in other words -/

/-- The rows of one source do not look at qualifiers. -/
theorem valueAt_unqualified (row : Row Value) (condition : Expr) :
    S.valueAt S.read row (Model.unqualified condition) = S.valueAt S.read row condition := by
  refine Operations.value_of_replaceColumnsM (fun ref p e' h => ?_)
    (Expr.replaceColumnsM_some (fun ref position => .column (.plain ref.name) position) condition)
  cases h
  rfl

theorem fulfils_unqualified {row : Row Value} {condition : Expr} :
    S.Fulfils row (Model.unqualified condition) ↔ S.Fulfils row condition := by
  rw [Fulfils, Fulfils, valueAt_unqualified]

/-- What is published under a name, when rows are made of the published columns by `f`. -/
theorem find?_name (columns : List PublishedColumn) (f : PublishedColumn → Value) (name : String) :
    ((columns.map fun c => (c.name, f c)).find? fun c => Ascii.same c.1 name).map Prod.snd =
      (columns.find? fun c => Ascii.same c.name name).map f := by
  rw [List.find?_map, Option.map_map]
  rfl

/-- What is passed through a projection is one of its columns, a column of its source. -/
theorem column_of_through {columns : List PublishedColumn} {name : String} {input : ColumnRef}
    (h : (((columns.map fun c => (c.name, c.expr)).find? fun c => Ascii.same c.1 name).map
      Prod.snd).bind Expr.column? = some input) :
    ∃ c p, columns.find? (fun c => Ascii.same c.name name) = some c ∧ c.expr = .column input p := by
  rw [List.find?_map, Option.map_map] at h
  obtain ⟨e, he, hinput⟩ := Option.bind_eq_some_iff.mp h
  obtain ⟨c, hc, rfl⟩ := Option.map_eq_some_iff.mp he
  cases hexpr : c.expr with
  | column ref p =>
    simp only [Function.comp, hexpr, Expr.column?, Option.some.injEq] at hinput
    exact ⟨c, p, hc, by rw [hexpr, hinput]⟩
  | _ => simp [Function.comp, hexpr, Expr.column?] at hinput

/-- A condition that a projection passes through has the value of its source in every row
that keeps the plain columns. -/
theorem valueAt_through {p : Projection} {columns : List PublishedColumn}
    (hcolumns : p.columns = columns.map fun c => (c.name, c.expr)) {f : PublishedColumn → Value}
    {row : Row Value}
    (hf : ∀ c ∈ columns, ∀ input q, c.expr = .column input q → f c = S.read row input)
    {condition moved : Expr} (h : p.through? condition = some moved) :
    S.valueAt S.read row moved =
      S.valueAt S.read (columns.map fun c => (c.name, f c)) condition := by
  refine Operations.value_of_replaceColumnsM (fun ref q e' href => ?_) h
  obtain ⟨input, hinput, rfl⟩ := Option.map_eq_some_iff.mp href
  rw [Projection.column?, hcolumns] at hinput
  obtain ⟨c, r, hc, hexpr⟩ := column_of_through hinput
  rw [read, find?_name, hc]
  exact (hf c (List.mem_of_find?_eq_some hc) input r hexpr).symm

/-! ### One projection -/

/-- Selecting computed rows is selecting the rows they are computed from. -/
theorem filter_compute {p : Projection} {columns : List PublishedColumn}
    (hcolumns : p.columns = columns.map fun c => (c.name, c.expr)) {condition moved : Expr}
    (h : p.through? condition = some moved) (rows : Multiset (Row Value))
    [DecidablePred fun row => S.Fulfils row condition] [DecidablePred fun row => S.Fulfils row moved] :
    (rows.map (S.compute S.read columns)).filter (fun row => S.Fulfils row condition) =
      (rows.filter fun row => S.Fulfils row moved).map (S.compute S.read columns) := by
  rw [Multiset.filter_map]
  congr 1
  refine Multiset.filter_congr fun row _ => ?_
  have hvalue : S.valueAt S.read row moved =
      S.valueAt S.read (S.compute S.read columns row) condition :=
    valueAt_through hcolumns (fun c _ input q hexpr => by rw [hexpr]; rfl) h
  simp only [Function.comp, Fulfils, hvalue]

/-- A condition on the rows of groups is one on the members of the groups. -/
theorem fulfils_groupRow {p : Projection} {columns : List PublishedColumn}
    (hcolumns : p.columns = columns.map fun c => (c.name, c.expr)) {condition moved : Expr}
    (h : p.through? condition = some moved) {rows : Multiset (Row Value)} {row : Row Value} :
    S.Fulfils (S.groupRow S.read columns rows row) condition ↔ S.Fulfils row moved := by
  have hvalue : S.valueAt S.read row moved =
      S.valueAt S.read (S.groupRow S.read columns rows row) condition :=
    valueAt_through hcolumns (fun c _ input q hexpr => by rw [hexpr]; rfl) h
  rw [Fulfils, Fulfils, hvalue]

/-- A group of which one row fulfils what its key decides is kept whole. -/
theorem groupRow_filter {p : Projection} {columns : List PublishedColumn}
    (hcolumns : p.columns = columns.map fun c => (c.name, c.expr)) {condition moved : Expr}
    (h : p.through? condition = some moved) {rows : Multiset (Row Value)} {row : Row Value}
    [DecidablePred fun row => S.Fulfils row moved] (hrow : S.Fulfils row moved) :
    S.groupRow S.read columns (rows.filter fun row => S.Fulfils row moved) row =
      S.groupRow S.read columns rows row := by
  have hmembers : S.members S.read columns (rows.filter fun row => S.Fulfils row moved) row =
      S.members S.read columns rows row := by
    classical
    rw [members, members, Multiset.filter_filter]
    refine Multiset.filter_congr fun member _ => and_iff_left_of_imp fun halike => ?_
    -- alike rows make the same row, and that row decides the condition
    have hsame : S.groupRow S.read columns rows row = S.groupRow S.read columns rows member :=
      groupRow_eq_iff.mpr halike
    have hgroup : S.Fulfils (S.groupRow S.read columns rows row) condition :=
      (fulfils_groupRow hcolumns h).mpr hrow
    exact (fulfils_groupRow hcolumns h).mp (hsame ▸ hgroup)
  rw [groupRow, groupRow, hmembers]

/-- Selecting groups is grouping the selected rows. -/
theorem filter_group {p : Projection} {columns : List PublishedColumn}
    (hcolumns : p.columns = columns.map fun c => (c.name, c.expr)) {condition moved : Expr}
    (h : p.through? condition = some moved) (rows : Multiset (Row Value))
    [DecidablePred fun row => S.Fulfils row condition] [DecidablePred fun row => S.Fulfils row moved] :
    (S.group S.read columns rows).filter (fun row => S.Fulfils row condition) =
      S.group S.read columns (rows.filter fun row => S.Fulfils row moved) := by
  refine (Multiset.Nodup.ext ((group_nodup _).filter _) (group_nodup _)).mpr fun row => ?_
  rw [Multiset.mem_filter, mem_group, mem_group]
  constructor
  · rintro ⟨⟨member, hmember, rfl⟩, hrow⟩
    have hmoved := (fulfils_groupRow hcolumns h).mp hrow
    exact ⟨member, Multiset.mem_filter.mpr ⟨hmember, hmoved⟩, groupRow_filter hcolumns h hmoved⟩
  · rintro ⟨member, hmember, rfl⟩
    obtain ⟨hmember, hmoved⟩ := Multiset.mem_filter.mp hmember
    rw [groupRow_filter hcolumns h hmoved]
    exact ⟨⟨member, hmember, rfl⟩, (fulfils_groupRow hcolumns h).mpr hmoved⟩

/-! ### One model -/

theorem passes_narrow (hand : S.Conjoins) {filter : Option Expr} {condition : Expr}
    {row : Row Value} :
    S.Passes (some (Expr.narrow filter condition)) row ↔
      S.Passes filter row ∧ S.Fulfils row condition := by
  cases filter with
  | none => simp [Passes, Expr.narrow]
  | some existing =>
    simp only [Passes, Expr.narrow, Option.mem_def, Option.some.injEq, forall_eq']
    exact hand _ _

section Model

open Classical

variable {m : Model} {source : Multiset (Row Value)} {condition : Expr}

theorem kept_filter (m : Model) (source : Multiset (Row Value)) (P : Row Value → Prop) :
    S.kept m (source.filter P) = (S.kept m source).filter P := by
  rw [kept, kept, Multiset.filter_comm (p := S.Passes m.filter),
    Multiset.filter_comm (p := S.Passes m.constFilter)]

theorem kept_withFilter (hand : S.Conjoins) :
    S.kept (m.withFilter condition) source =
      (S.kept m source).filter fun row => S.Fulfils row condition := by
  rw [kept, kept, Multiset.filter_comm (p := fun row => S.Fulfils row condition)]
  congr 1
  rw [Multiset.filter_filter]
  refine Multiset.filter_congr fun row _ => ?_
  rw [and_comm]
  exact passes_narrow hand

/-- A row source reads rows one by one: selecting before it is selecting after it. -/
theorem rowsOver_source (hrows : m.combinesRows = false) (hplain : m.projection = none)
    (next : RowSource Model) :
    S.rowsOver { m with source := next } (source.filter fun row => S.Fulfils row condition) =
      (S.rowsOver m source).filter fun row => S.Fulfils row condition := by
  rw [rowsOver_plain hrows hplain, rowsOver_plain (m := { m with source := next }) hrows hplain]
  exact kept_filter m source _

/-- One more conjunct in the filter of a row source selects among its rows. -/
theorem rowsOver_withFilter (hand : S.Conjoins) (hrows : m.combinesRows = false)
    (hplain : m.projection = none) :
    S.rowsOver (m.withFilter condition) source =
      (S.rowsOver m source).filter fun row => S.Fulfils row condition := by
  rw [rowsOver_plain hrows hplain, rowsOver_plain (m := m.withFilter condition) hrows hplain]
  exact kept_withFilter hand

/-- A projection that passes a condition through: selecting below is selecting above. -/
theorem rowsOver_projection (hrows : m.combinesRows = false) (hone : m.readsJoined = false)
    {next : RowSource Model} (hnext : { m with source := next }.readsJoined = false) {p : Projection}
    (hp : m.projection = some p) {moved : Expr} (h : p.through? condition = some moved) :
    S.rowsOver { m with source := next } (source.filter fun row => S.Fulfils row moved) =
      (S.rowsOver m source).filter fun row => S.Fulfils row condition := by
  have hread : S.reading m = S.read := if_neg (by simp [hone])
  have hread' : S.reading { m with source := next } = S.read := if_neg (by simp [hnext])
  have hkept := kept_filter (S := S) { m with source := next } source fun row => S.Fulfils row moved
  cases p with
  | choose columns =>
    rw [rowsOver_computed hrows (.inl hp),
      rowsOver_computed (m := { m with source := next }) hrows (.inl hp), hkept, hread, hread']
    exact (filter_compute rfl h _).symm
  | virtual columns =>
    rw [rowsOver_computed hrows (.inr hp),
      rowsOver_computed (m := { m with source := next }) hrows (.inr hp), hkept, hread, hread']
    exact (filter_compute rfl h _).symm
  | groupBy columns =>
    rw [rowsOver_grouped hrows hp, rowsOver_grouped (m := { m with source := next }) hrows hp,
      hkept, hread, hread']
    exact (filter_group rfl h _).symm
  | analytic columns =>
    simp [Model.combinesRows, Model.keepsFiltersOut, Model.isAnalytic, hp,
      Projection.isAnalytic] at hrows

end Model

end RowSemantics

/-! ### The chain of sub-queries -/

namespace Model

/-- On the way down through nested sources, a model with a projection has no joins. -/
def ProjectsAlone : Model → Prop
  | { projection, source := .table .., joins, .. } => projection.isSome → joins = []
  | { projection, source := .nested inner, joins, .. } =>
      (projection.isSome → joins = []) ∧ inner.ProjectsAlone

theorem projectsAlone_iff {m : Model} :
    m.ProjectsAlone ↔
      (m.projection.isSome → m.joins = []) ∧
        ∀ inner, m.source = .nested inner → inner.ProjectsAlone := by
  obtain ⟨projection, source, _, _, _, _, _, _, _, _, _⟩ := m
  cases source with
  | table name table => exact ⟨fun h => ⟨h, fun _ hsource => by cases hsource⟩, And.left⟩
  | nested inner =>
    exact ⟨fun h => ⟨h.1, fun _ hsource => RowSource.nested.inj hsource ▸ h.2⟩,
      fun h => ⟨h.1, h.2 inner rfl⟩⟩

theorem ProjectsAlone.joins {m : Model} (h : m.ProjectsAlone) {p : Projection}
    (hp : m.projection = some p) : m.joins = [] :=
  (projectsAlone_iff.mp h).1 (by rw [hp]; rfl)

theorem ProjectsAlone.nested {m inner : Model} (h : m.ProjectsAlone)
    (hsource : m.source = .nested inner) : inner.ProjectsAlone :=
  (projectsAlone_iff.mp h).2 inner hsource

/-- A filter that is added changes the source or the filter of a model. -/
theorem addFilter_eq (m : Model) (condition : Expr) :
    ∃ source filter, m.addFilter condition = { m with source := source, filter := filter } := by
  unfold addFilter
  split
  · exact ⟨_, _, rfl⟩
  · split
    · exact ⟨_, _, rfl⟩
    · exact ⟨_, _, rfl⟩

/-- A condition goes into a row source unless that combines rows. -/
theorem pushInto?_source {m : Model} (hp : m.projection = none) (condition : Expr) :
    m.pushInto? condition =
      if m.combinesRows then none else some (m.addFilter (unqualified condition)) := by
  obtain ⟨projection, source, _, _, _, _, _, _, _, _, _⟩ := m
  obtain rfl : projection = none := hp
  cases source with
  | table name table => rfl
  | nested inner =>
    simp only [pushInto?, combinesRows, addFilter]
    congr 1
    split <;> rfl

/-- A condition goes below a projection that passes it through, if it can go into what is
below. -/
theorem pushInto?_projection {m : Model} {p : Projection} (hp : m.projection = some p)
    {condition : Expr} {m' : Model} (h : m.pushInto? condition = some m') :
    m.keepsFiltersOut = false ∧ ∃ body moved body', m.source = .nested body ∧
      p.through? condition = some moved ∧ body.pushInto? moved = some body' ∧
      m' = { m with source := .nested body' } := by
  obtain ⟨projection, source, _, _, _, _, _, _, _, _, _⟩ := m
  obtain rfl : projection = some p := hp
  cases source with
  | table name table => cases h
  | nested body =>
    simp only [pushInto?] at h
    split at h
    · cases h
    rename_i hkeeps
    split at h
    · cases h
    rename_i moved hmoved
    split at h
    · rename_i body' hbody
      cases h
      exact ⟨Bool.eq_false_iff.mpr hkeeps, body, moved, body', rfl, hmoved, hbody, rfl⟩
    · cases h

/-- A condition goes into no row source with joins. -/
theorem readsJoined_of_pushInto? {m body body' : Model} {condition : Expr}
    (h : body.pushInto? condition = some body') (hm : m.source = .nested body) :
    m.readsJoined = false ∧ { m with source := .nested body' }.readsJoined = false := by
  simp only [readsJoined, nested?, hm, Option.any_some, Bool.and_eq_false_iff, Bool.not_eq_false']
  cases hp : body.projection with
  | none =>
    rw [pushInto?_source hp] at h
    split at h
    · cases h
    · rename_i hrows
      obtain ⟨source, filter, hbody⟩ := body.addFilter_eq (unqualified condition)
      cases h
      simp_all [combinesRows]
  | some p =>
    obtain ⟨-, _, _, _, -, -, -, rfl⟩ := pushInto?_projection hp h
    simp [hp]

/-- A relation of a model to what conditions make of it: they are added to its filter, or the model
that it reads is replaced by what they make of that. -/
structure FollowsFilters (R : Model → Model → Prop) : Prop where
  here : ∀ (m : Model) (condition : Expr), R m (m.withFilter condition)
  below : ∀ {m inner next : Model}, m.source = .nested inner → R inner next →
    R m { m with source := .nested next }

namespace FollowsFilters

variable {R : Model → Model → Prop} {m m' : Model} {condition : Expr}

theorem addFilter_of (hR : FollowsFilters R)
    (below : ∀ inner next, m.source = .nested inner → inner.pushInto? condition = some next →
      R inner next) : R m (m.addFilter condition) := by
  unfold Model.addFilter
  split
  · exact hR.here m condition
  · rename_i inner hsource
    split
    · rename_i next hpush
      exact hR.below hsource (below inner next hsource hpush)
    · exact hR.here m condition

theorem pushInto? (hR : FollowsFilters R) (h : m.pushInto? condition = some m') : R m m' := by
  induction m using nestedInduct generalizing condition m' with
  | step m ih =>
    cases hp : m.projection with
    | none =>
      rw [pushInto?_source hp] at h
      split at h
      · cases h
      · cases h
        exact hR.addFilter_of fun inner _ hsource => ih inner hsource
    | some p =>
      obtain ⟨-, body, moved, body', hsource, -, hpush, rfl⟩ := pushInto?_projection hp h
      exact hR.below hsource (ih body hsource hpush)

/-- The relation holds wherever the condition goes. -/
theorem addFilter (hR : FollowsFilters R) (m : Model) (condition : Expr) :
    R m (m.addFilter condition) :=
  hR.addFilter_of fun _ _ _ => hR.pushInto?

end FollowsFilters

/-- What may have projections below may have conditions moved there. -/
theorem followsFilters_projectsAlone :
    FollowsFilters fun m m' => m.ProjectsAlone → m'.ProjectsAlone where
  here _ _ h := projectsAlone_iff.mpr ⟨(projectsAlone_iff.mp h).1, (projectsAlone_iff.mp h).2⟩
  below hsource hnext h :=
    projectsAlone_iff.mpr ⟨(projectsAlone_iff.mp h).1,
      fun _ hs => RowSource.nested.inj hs ▸ hnext (h.nested hsource)⟩

/-- A source of a query level to which nothing is joined yet: a table or a sub-query, of
which no clause looks at several rows. -/
structure StandsAlone (m : Model) : Prop where
  projection : m.projection = none
  joins : m.joins = []
  limit : m.limit = none
  latestBy : m.latestBy = []
  sampleBy : m.sampleBy = none
  below : m.ProjectsAlone

theorem StandsAlone.combinesRows {m : Model} (h : m.StandsAlone) : m.combinesRows = false := by
  simp [Model.combinesRows, keepsFiltersOut, isAnalytic, h.projection, h.joins, h.limit,
    h.latestBy, h.sampleBy]

theorem StandsAlone.addFilter {m : Model} (h : m.StandsAlone) (condition : Expr) :
    (m.addFilter condition).StandsAlone := by
  have hbelow : (m.addFilter condition).ProjectsAlone :=
    followsFilters_projectsAlone.addFilter m condition h.below
  obtain ⟨source, filter, hm⟩ := m.addFilter_eq condition
  rw [hm] at hbelow ⊢
  exact ⟨h.projection, h.joins, h.limit, h.latestBy, h.sampleBy, hbelow⟩

end Model

namespace RowSemantics

variable {S : RowSemantics Value} {m : Model} {condition : Expr}

open Classical

/-- A filter that is added to a row source selects among its rows, provided that whatever
goes into the sub-query below does. -/
theorem rows_addFilter_of (hand : S.Conjoins) (hp : m.projection = none)
    (hrows : m.combinesRows = false)
    (below : ∀ inner inner', m.source = .nested inner → inner.pushInto? condition = some inner' →
      S.rows inner' = (S.rows inner).filter fun row => S.Fulfils row condition) :
    S.rows (m.addFilter condition) = (S.rows m).filter fun row => S.Fulfils row condition := by
  have hhere : S.rows (m.withFilter condition) =
      (S.rows m).filter fun row => S.Fulfils row condition := by
    rw [rows_eq, rows_eq S m]
    exact rowsOver_withFilter hand hrows hp
  unfold Model.addFilter
  split
  · exact hhere
  · rename_i inner hsource
    split
    · rename_i inner' hpush
      rw [rows_eq, rows_eq S m, hsource]
      simp only [sourceRows, below inner inner' hsource hpush]
      exact rowsOver_source hrows hp _
    · exact hhere

/-- Moving a condition into a model selects among the rows of the model. -/
theorem rows_of_pushInto? (hand : S.Conjoins) {m' : Model} (hm : m.ProjectsAlone)
    (h : m.pushInto? condition = some m') :
    S.rows m' = (S.rows m).filter fun row => S.Fulfils row condition := by
  induction m using Model.nestedInduct generalizing condition m' with
  | step m ih =>
    cases hp : m.projection with
    | none =>
      rw [Model.pushInto?_source hp] at h
      split at h
      · cases h
      · rename_i hrows
        cases h
        have hbelow : S.rows (m.addFilter (Model.unqualified condition)) =
            (S.rows m).filter fun row => S.Fulfils row (Model.unqualified condition) :=
          rows_addFilter_of hand hp (Bool.eq_false_iff.mpr hrows)
            fun inner inner' hsource hpush => ih inner hsource (hm.nested hsource) hpush
        simpa only [fulfils_unqualified] using hbelow
    | some p =>
      obtain ⟨hkeeps, body, moved, body', hsource, hmoved, hpush, rfl⟩ :=
        Model.pushInto?_projection hp h
      have hrows : m.combinesRows = false := by
        simp [Model.combinesRows, hkeeps, hm.joins hp]
      obtain ⟨hone, hone'⟩ := Model.readsJoined_of_pushInto? hpush hsource
      rw [rows_eq, rows_eq S m, hsource]
      simp only [sourceRows, ih body hsource (hm.nested hsource) hpush]
      exact rowsOver_projection hrows hone hone' hp hmoved

/-- Filters that are added to a source select its rows, wherever they end up. -/
theorem rows_addFilters (hand : S.Conjoins) (hm : m.StandsAlone) (filters : List Expr) :
    S.rows (m.addFilters filters) =
      (S.rows m).filter fun row => ∀ filter ∈ filters, S.Fulfils row filter := by
  induction filters generalizing m with
  | nil => simp [Model.addFilters]
  | cons filter filters ih =>
    have hfirst : S.rows (m.addFilter filter) =
        (S.rows m).filter fun row => S.Fulfils row filter :=
      rows_addFilter_of hand hm.projection hm.combinesRows fun inner _ hsource hpush =>
        rows_of_pushInto? hand (hm.below.nested hsource) hpush
    calc S.rows ((m.addFilter filter).addFilters filters)
      _ = ((S.rows m).filter fun row => S.Fulfils row filter).filter
            fun row => ∀ f ∈ filters, S.Fulfils row f := by
        rw [ih (hm.addFilter filter), hfirst]
      _ = (S.rows m).filter fun row => ∀ f ∈ filter :: filters, S.Fulfils row f := by
        rw [Multiset.filter_filter]
        exact Multiset.filter_congr fun row _ => by
          rw [List.forall_mem_cons, and_comm]

/-- Numbers, where those that are not zero hold, and a table of three rows. An aggregate
counts its group. -/
def counts : RowSemantics Nat where
  toInterpretation := { Interpretation.numbers with
    binary := fun op a b => match op with
      | .and => if a ≠ 0 ∧ b ≠ 0 then 1 else 0
      | _ => Interpretation.numbers.binary op a b }
  table _ := {[("x", 1), ("y", 4)], [("x", 1), ("y", 5)], [("x", 2), ("y", 6)]}
  aggregate _ rows := rows.card
  produce _ := 0
  readJoined _ _ := 0

theorem counts_conjoins : counts.Conjoins := by
  intro a b
  change ite (a ≠ 0 ∧ b ≠ 0) 1 0 ≠ 0 ↔ a ≠ 0 ∧ b ≠ 0
  simp

/-- The keys of a table under other names, each with the size of its group. -/
def groupSizes : Model :=
  .nested <| .select
    (.groupBy [⟨"k", .column (.plain "x") 0⟩, ⟨"n", .call "count" [] 0⟩])
    (.ofTable "t" (.empty "t"))

/-- A filter on the key goes below the groups, one on their size does not, and both select
among the groups. -/
theorem rows_addFilters_key_and_size :
    let key := Expr.equality (.column (.qualified "g" "k") 0) (.constant "1" 0)
    let size := Expr.equality (.column (.plain "n") 0) (.constant "2" 0)
    counts.Conjoins ∧ groupSizes.StandsAlone ∧
      groupSizes.addFilters [key, size] =
        (Model.nested <| .select
          (.groupBy [⟨"k", .column (.plain "x") 0⟩, ⟨"n", .call "count" [] 0⟩])
          ((Model.ofTable "t" (.empty "t")).withFilter
            (.equality (.column (.plain "x") 0) (.constant "1" 0)))).withFilter size ∧
      counts.rows (groupSizes.addFilters [key, size]) =
        (counts.rows groupSizes).filter
          fun row => ∀ filter ∈ [key, size], counts.Fulfils row filter := by
  have halone : groupSizes.StandsAlone :=
    ⟨rfl, rfl, rfl, rfl, rfl, fun _ => rfl, fun _ => rfl, fun h => by cases h⟩
  exact ⟨counts_conjoins, halone, rfl, rows_addFilters counts_conjoins halone _⟩

end RowSemantics

end SeriesQuery
