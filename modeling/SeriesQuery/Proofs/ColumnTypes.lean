import SeriesQuery.Proofs.Resolved

/-!
The types of columns.

A column that a compiled query shows can be followed down through projections, sub-queries and joined
sources until it is a column of a table or something computed (`Traces`). Its type is that of the column
of the table, and what is computed has none (`Traces.type_eq`); and a type is reported for no other
column (`Model.exists_traces_of_type`). Scopes take the types of their columns from what the sources
show, so the key of a `sample by` is rejected for its type exactly if it is a column of a table that is
no timestamp (`Query.compile_columnTypes`).
-/

namespace SeriesQuery

/-! ### The column that a reference means -/

namespace ShownColumn

theorem of_find? {columns : List ShownColumn} {name : String} {c : ShownColumn}
    (h : find? columns name = some c) : c ∈ columns ∧ Ascii.same c.name name = true := by
  rw [find?] at h
  have hsame := List.find?_some h
  exact ⟨List.mem_of_find?_eq_some h, hsame⟩

/-- Where the names differ, a name finds the column that has it. -/
theorem find?_of_apart {columns : List ShownColumn}
    (h : (columns.map name).Pairwise fun a b => Ascii.same a b = false) {c : ShownColumn}
    (hc : c ∈ columns) {name : String} (hname : Ascii.same c.name name = true) :
    find? columns name = some c := by
  induction columns with
  | nil => cases hc
  | cons first columns ih =>
    obtain ⟨hfirst, hrest⟩ := List.pairwise_cons.mp h
    rw [find?, List.find?_cons]
    rcases List.mem_cons.mp hc with rfl | hc
    · rw [hname]
    · have hdiffer : Ascii.same first.name name = false := by
        have hapart := hfirst c.name (List.mem_map_of_mem hc)
        rw [← hapart, Ascii.same, Ascii.same, Ascii.same_iff.mp hname]
      rw [hdiffer]
      exact ih hrest hc

end ShownColumn

namespace Scope

variable {s : Scope} {ref : ColumnRef}

/-- A reference leads to a source, and there it is the column number `i`: the first one of its name. -/
structure Finds (s : Scope) (ref : ColumnRef) (source i : Nat) : Prop where
  leads : s.LeadsTo ref source
  first : ∃ entry, s.entries[source]? = some entry ∧
    (entry.columns.findIdx? fun c => Ascii.same c.name ref.name) = some i

/-- An accepted reference finds the column whose type it is given. -/
theorem finds_of_resolve {p : Nat} {r : Resolution} (h : s.resolve ref p = .ok r) :
    ∃ entry i c, s.entries[r.source]? = some entry ∧ s.Finds ref r.source i ∧
      entry.columns[i]? = some c ∧ r.type = c.type := by
  obtain ⟨entry, hentry, -, c, hcolumn, htype⟩ := resolve_candidates h
  rw [ScopeEntry.column?, ShownColumn.find?, List.find?_eq_bind_findIdx?_getElem?] at hcolumn
  obtain ⟨i, hi, hc⟩ := Option.bind_eq_some_iff.mp hcolumn
  exact ⟨entry, i, c, hentry, ⟨leadsTo_of_resolve h, entry, hentry, hi⟩, hc, htype⟩

/-- What a reference finds is what it is resolved to. -/
theorem Finds.resolve {source i : Nat} (h : s.Finds ref source i) {entry : ScopeEntry}
    (hentry : s.entries[source]? = some entry) {c : ShownColumn} (hc : entry.columns[i]? = some c)
    (p : Nat) : s.resolve ref p = .ok ⟨source, c.type⟩ := by
  obtain ⟨type, hresolve⟩ := h.leads p
  obtain ⟨first, hfirst, hi⟩ := h.first
  obtain ⟨other, j, d, hother, hfinds, hd, rfl⟩ := finds_of_resolve hresolve
  obtain ⟨last, hlast, hj⟩ := hfinds.first
  obtain rfl := Option.some.inj (hentry.symm.trans hfirst)
  obtain rfl := Option.some.inj (hentry.symm.trans hother)
  obtain rfl := Option.some.inj (hentry.symm.trans hlast)
  obtain rfl := Option.some.inj (hi.symm.trans hj)
  obtain rfl := Option.some.inj (hc.symm.trans hd)
  exact hresolve

theorem typeOf_answering (entries : List ScopeEntry) (ref : ColumnRef) :
    ScopeEntry.typeOf entries ref =
      ShownColumn.typeOf ((entries.filter (·.answersTo ref.qualifier)).flatMap ScopeEntry.columns)
        ref.name := by
  obtain ⟨qualifier, name⟩ := ref
  cases qualifier with
  | some q => rfl
  | none =>
    have hall : entries.filter (·.answersTo none) = entries := List.filter_eq_self.mpr fun _ _ => rfl
    exact congrArg (fun visible => ShownColumn.typeOf (visible.flatMap ScopeEntry.columns) name) hall.symm

/-- The type that is looked up among sources is that of the first candidate. -/
theorem typeOf_eq (s : Scope) (ref : ColumnRef) :
    ScopeEntry.typeOf s.entries ref = (s.candidates ref).head?.bind fun found => found.2.type := by
  have hcandidates : (s.candidates ref).map Prod.snd =
      (s.entries.filter (·.answersTo ref.qualifier)).flatMap fun e => e.columnsNamed ref.name := by
    rw [← filter_zipIdx s.entries (·.answersTo ref.qualifier), List.flatMap_map, candidates,
      List.map_flatMap]
    simp only [List.map_map, Function.comp_def, List.map_id']
  have hfound : ((s.entries.filter (·.answersTo ref.qualifier)).flatMap ScopeEntry.columns).find?
      (fun c => Ascii.same c.name ref.name) = (s.candidates ref).head?.map Prod.snd := by
    rw [← List.head?_map, hcandidates, ← List.head?_filter, List.filter_flatMap]
    rfl
  rw [typeOf_answering, ShownColumn.typeOf, ShownColumn.find?, hfound, Option.bind_map]
  rfl

theorem typeOf_of_resolve {p : Nat} {r : Resolution} (h : s.resolve ref p = .ok r) :
    ScopeEntry.typeOf s.entries ref = r.type := by
  obtain ⟨entry, -, hcandidates, c, hcolumn, htype⟩ := resolve_candidates h
  rw [typeOf_eq, hcandidates, List.head?_map, ← ScopeEntry.column?_eq_head?, hcolumn, htype]
  rfl

end Scope

/-! ### Following a column down -/

/-- What a column is in the end. -/
inductive ColumnOrigin where
  /-- A column of the table that is called by the name. -/
  | column (name : String) (table : Table) (column : Column)
  | computed

/-- The type of a column of a table; what is computed has none. -/
def ColumnOrigin.type? : ColumnOrigin → Option ColumnType
  | column _ _ c => some c.type
  | computed => none

/-- The models that a projection over a row source reads: the row source for its own rows, and every
joined model. -/
def Model.inputs (m : Model) : List Model :=
  m :: m.joins.map JoinClause.model

/-- The column number `i` of a source of rows comes from the origin given. -/
inductive Traces : RowSource Model → Nat → ColumnOrigin → Prop where
  | table {name : String} {table : Table} {i : Nat} {column : Column}
      (h : table.columns[i]? = some column) : Traces (.table name table) i (.column name table column)
  | computed {m : Model} {p : Projection} {i : Nat} {name : String} {e : Expr}
      (hp : m.projection = some p) (hcolumn : p.columns[i]? = some (name, e)) (he : e.column? = none) :
      Traces (.nested m) i .computed
  /-- A projection over a projection reads what that publishes under the name. -/
  | published {m body : Model} {p lower : Projection} {i j position : Nat} {name : String}
      {ref : ColumnRef} {c : String × Expr} {origin : ColumnOrigin} (hp : m.projection = some p)
      (hsource : m.source = .nested body) (hlower : body.projection = some lower)
      (hcolumn : p.columns[i]? = some (name, .column ref position)) (hc : lower.columns[j]? = some c)
      (hname : Ascii.same c.1 ref.name = true) (h : Traces (.nested body) j origin) :
      Traces (.nested m) i origin
  /-- A projection over a row source reads the column that a scope of its sources finds. -/
  | resolved {m body : Model} {p : Projection} {i j k position : Nat} {name : String}
      {ref : ColumnRef} {input : Model} {origin : ColumnOrigin} (hp : m.projection = some p)
      (hsource : m.source = .nested body) (hbody : body.projection = none)
      (hcolumn : p.columns[i]? = some (name, .column ref position))
      (hfinds : (⟨body.sources⟩ : Scope).Finds ref k j) (hinput : body.inputs[k]? = some input)
      (h : Traces input.source j origin) : Traces (.nested m) i origin
  /-- A row source shows the columns of its own source first. -/
  | own {m : Model} {i : Nat} {origin : ColumnOrigin} (hp : m.projection = none)
      (h : Traces m.source i origin) : Traces (.nested m) i origin
  | joined {m : Model} {before after : List (JoinClause Model)} {j : JoinClause Model} {i : Nat}
      {origin : ColumnOrigin} (hp : m.projection = none) (hjoins : m.joins = before ++ j :: after)
      (h : Traces (.nested j.model) i origin) :
      Traces (.nested m)
        ((Model.ownColumnsOf m.source ++ Model.joinedColumns before).length + i) origin

namespace Model

variable {env : Environment} {m body : Model}

/-! ### The columns that a model shows -/

theorem shownColumns_rows (hp : m.projection = none) :
    m.shownColumns = ownColumnsOf m.source ++ joinedColumns m.joins := by
  obtain ⟨projection, source, _, _, _, joins, _, _, _, _, _⟩ := m
  obtain rfl : projection = none := hp
  rw [shownColumns]

theorem shownColumns_select {p : Projection} (hp : m.projection = some p) :
    ∃ typeOf, m.shownColumns = p.shownColumns typeOf := by
  obtain ⟨projection, source, _, _, _, joins, _, _, _, _, _⟩ := m
  obtain rfl : projection = some p := hp
  cases source with
  | table => exact ⟨_, by rw [shownColumns]⟩
  | nested body =>
    rw [shownColumns]
    split
    · exact ⟨_, rfl⟩
    · exact ⟨_, rfl⟩

theorem shownColumns_published {p lower : Projection} (hp : m.projection = some p)
    (hs : m.source = .nested body) (hlower : body.projection = some lower) :
    m.shownColumns =
      p.shownColumns fun ref => ShownColumn.typeOf body.shownColumns ref.name := by
  obtain ⟨projection, source, _, _, _, joins, _, _, _, _, _⟩ := m
  obtain rfl : projection = some p := hp
  obtain rfl : source = .nested body := hs
  rw [shownColumns, hlower]
  rfl

theorem shownColumns_resolved {p : Projection} (hp : m.projection = some p)
    (hs : m.source = .nested body) (hbody : body.projection = none) :
    m.shownColumns = p.shownColumns (ScopeEntry.typeOf body.sources) := by
  obtain ⟨projection, source, _, _, _, joins, _, _, _, _, _⟩ := m
  obtain rfl : projection = some p := hp
  obtain rfl : source = .nested body := hs
  rw [shownColumns, hbody]
  rfl

theorem joinedColumns_append (before after : List (JoinClause Model)) :
    joinedColumns (before ++ after) = joinedColumns before ++ joinedColumns after := by
  induction before with
  | nil => rfl
  | cons j before ih =>
    obtain ⟨kind, model, _, _, _, _⟩ := j
    rw [List.cons_append, joinedColumns, joinedColumns, ih, List.append_assoc]

/-- A column of joined models is a column of one of them. -/
theorem exists_joined {joins : List (JoinClause Model)} {k : Nat} {c : ShownColumn}
    (h : (joinedColumns joins)[k]? = some c) :
    ∃ before j after i, joins = before ++ j :: after ∧ k = (joinedColumns before).length + i ∧
      j.model.shownColumns[i]? = some c := by
  induction joins generalizing k with
  | nil => simp [joinedColumns] at h
  | cons first joins ih =>
    obtain ⟨kind, model, criteria, postJoinFilter, provenance, position⟩ := first
    rw [joinedColumns, List.getElem?_append] at h
    split at h
    · exact ⟨[], _, joins, k, rfl, (Nat.zero_add k).symm, h⟩
    · rename_i hlong
      obtain ⟨before, j, after, i, rfl, hk, hc⟩ := ih h
      refine ⟨⟨kind, model, criteria, postJoinFilter, provenance, position⟩ :: before, j, after, i, rfl,
        ?_, hc⟩
      rw [joinedColumns, List.length_append]
      omega

theorem sources_eq_inputs (m : Model) : m.sources = m.inputs.map asEntry := by
  rw [sources_eq, inputs, List.map_cons, List.map_map]
  rfl

theorem getElem?_asEntry {models : List Model} {k : Nat} {input : Model} (h : models[k]? = some input) :
    (models.map asEntry)[k]? = some input.asEntry := by
  rw [List.getElem?_map, h]
  rfl

theorem exists_input {models : List Model} {k : Nat} {entry : ScopeEntry}
    (h : (models.map asEntry)[k]? = some entry) :
    ∃ input, models[k]? = some input ∧ input.asEntry = entry := by
  rw [List.getElem?_map] at h
  exact Option.map_eq_some_iff.mp h

end Model

/-! ### Sound sources -/

/-- The table of the source is one of the environment, or the model in it is resolved and its names are
kept apart. -/
structure SoundSource (env : Environment) (source : RowSource Model) : Prop where
  table : ∀ name table, source = .table name table → env.table? name = some table
  nested : ∀ m, source = .nested m → m.Resolved env ∧ ∃ place, m.Formed place

namespace SoundSource

variable {env : Environment} {m : Model}

theorem of_model (h : m.Resolved env) {place : Place} (hformed : m.Formed place) :
    SoundSource env (.nested m) where
  table _ _ hs := nomatch hs
  nested _ hs := RowSource.nested.inj hs ▸ ⟨h, place, hformed⟩

/-- The source of a sound model is sound. -/
theorem source (h : SoundSource env (.nested m)) : SoundSource env m.source := by
  obtain ⟨hresolved, place, hformed⟩ := h.nested m rfl
  obtain ⟨hhere, hsource, -⟩ := Model.resolved_iff.mp hresolved
  exact ⟨hhere.table, fun inner hs => ⟨hsource inner hs, _, (Model.satisfies_iff.mp hformed).2.1 inner hs⟩⟩

/-- What is joined to a sound model is sound. -/
theorem joined (h : SoundSource env (.nested m)) {j : JoinClause Model} (hj : j ∈ m.joins) :
    SoundSource env (.nested j.model) := by
  obtain ⟨hresolved, place, hformed⟩ := h.nested m rfl
  exact .of_model ((Model.resolved_iff.mp hresolved).2.2 j hj) ((Model.satisfies_iff.mp hformed).2.2 j hj)

theorem inputs (h : SoundSource env (.nested m)) {input : Model} (hinput : input ∈ m.inputs) :
    SoundSource env input.source := by
  rcases List.mem_cons.mp hinput with rfl | hinput
  · exact h.source
  · obtain ⟨j, hj, rfl⟩ := List.mem_map.mp hinput
    exact (h.joined hj).source

end SoundSource

/-! ### Types -/

section Types

variable {env : Environment} {source : RowSource Model} {i : Nat}

theorem Projection.getElem?_shownColumns {p : Projection} {name : String} {e : Expr}
    (h : p.columns[i]? = some (name, e)) (typeOf : ColumnRef → Option ColumnType) :
    (p.shownColumns typeOf)[i]? = some ⟨name, e.column?.bind typeOf⟩ := by
  rw [shownColumns, List.getElem?_map, h]
  rfl

theorem Projection.of_getElem?_shownColumns {p : Projection} {typeOf : ColumnRef → Option ColumnType}
    {c : ShownColumn} {t : ColumnType} (h : (p.shownColumns typeOf)[i]? = some c)
    (ht : c.type = some t) :
    ∃ name ref position, p.columns[i]? = some (name, .column ref position) ∧ typeOf ref = some t := by
  rw [shownColumns, List.getElem?_map] at h
  obtain ⟨⟨name, e⟩, hcolumn, rfl⟩ := Option.map_eq_some_iff.mp h
  obtain ⟨ref, href, ht⟩ := Option.bind_eq_some_iff.mp ht
  obtain ⟨position, rfl⟩ := Expr.column?_eq_some.mp href
  exact ⟨name, ref, position, hcolumn, ht⟩

/-- **The type of a column is that of the column of a table from which it comes**, and what is computed
has none. -/
theorem Traces.type_eq {origin : ColumnOrigin} (h : Traces source i origin)
    (hsound : SoundSource env source) :
    ∃ c, (Model.ownColumnsOf source)[i]? = some c ∧ c.type = origin.type? := by
  induction h with
  | @table name table i column h =>
    refine ⟨⟨column.name, some column.type⟩, ?_, rfl⟩
    rw [Model.ownColumnsOf, Table.shownColumns, List.getElem?_map, h]
    rfl
  | @computed m p i name e hp hcolumn he =>
    obtain ⟨typeOf, hshown⟩ := Model.shownColumns_select hp
    refine ⟨⟨name, e.column?.bind typeOf⟩, ?_, by rw [he]; rfl⟩
    rw [Model.ownColumnsOf, hshown, p.getElem?_shownColumns hcolumn]
  | @published m body p lower i j position name ref d origin hp hsource hlower hcolumn hd hname h ih =>
    have hbody := hsource ▸ hsound.source
    obtain ⟨c, hc, htype⟩ := ih hbody
    rw [Model.ownColumnsOf] at hc
    refine ⟨⟨name, ShownColumn.typeOf body.shownColumns ref.name⟩, ?_, ?_⟩
    · rw [Model.ownColumnsOf, Model.shownColumns_published hp hsource hlower,
        p.getElem?_shownColumns hcolumn]
      rfl
    · -- the names of the lower projection differ, so the name alone tells the column
      have hnames := Model.names_shownColumns hlower
      have hsame : c.name = d.1 := by
        have hget := congrArg (fun names => names[j]?) hnames
        simp only [Projection.aliases, List.getElem?_map, hc, hd, Option.map_some] at hget
        exact Option.some.inj hget
      obtain ⟨-, place, hformed⟩ := hbody.nested body rfl
      have hapart : lower.Apart := (Model.satisfies_iff.mp hformed).1.apart lower hlower
      have hfind := ShownColumn.find?_of_apart (hnames ▸ hapart) (List.mem_of_getElem? hc)
        (hsame ▸ hname)
      change ShownColumn.typeOf body.shownColumns ref.name = _
      rw [ShownColumn.typeOf, hfind]
      exact htype
  | @resolved m body p i j k position name ref input origin hp hsource hbody hcolumn hfinds hinput h ih =>
    have hinputs := (hsource ▸ hsound.source : SoundSource env (.nested body))
    obtain ⟨c, hc, htype⟩ := ih (hinputs.inputs (List.mem_of_getElem? hinput))
    refine ⟨⟨name, ScopeEntry.typeOf body.sources ref⟩, ?_, ?_⟩
    · rw [Model.ownColumnsOf, Model.shownColumns_resolved hp hsource hbody,
        p.getElem?_shownColumns hcolumn]
      rfl
    · rw [body.sources_eq_inputs] at hfinds ⊢
      have hresolve := hfinds.resolve (Model.getElem?_asEntry hinput) hc position
      rw [← htype]
      exact Scope.typeOf_of_resolve hresolve
  | @own m i origin hp h ih =>
    obtain ⟨c, hc, htype⟩ := ih hsound.source
    refine ⟨c, ?_, htype⟩
    rw [Model.ownColumnsOf, Model.shownColumns_rows hp,
      List.getElem?_append_left (List.getElem?_eq_some_iff.mp hc).1, hc]
  | @joined m before after j i origin hp hjoins h ih =>
    have hj : j ∈ m.joins := hjoins ▸ List.mem_append_right _ List.mem_cons_self
    obtain ⟨c, hc, htype⟩ := ih (hsound.joined hj)
    refine ⟨c, ?_, htype⟩
    rw [Model.ownColumnsOf] at hc
    rw [Model.ownColumnsOf, Model.shownColumns_rows hp, hjoins, Model.joinedColumns_append,
      ← List.append_assoc, List.getElem?_append_right (Nat.le_add_right _ _), Nat.add_sub_cancel_left,
      Model.joinedColumns, List.getElem?_append_left (List.getElem?_eq_some_iff.mp hc).1, hc]

/-- A column of a table is one of the catalog. -/
theorem Traces.mem_catalog {origin : ColumnOrigin} (h : Traces source i origin)
    (hsound : SoundSource env source) {name : String} {table : Table} {column : Column}
    (horigin : origin = .column name table column) :
    env.table? name = some table ∧ column ∈ table.columns := by
  induction h with
  | table h =>
    cases horigin
    exact ⟨hsound.table _ _ rfl, List.mem_of_getElem? h⟩
  | computed => cases horigin
  | published _ hsource _ _ _ _ _ ih => exact ih (hsource ▸ hsound.source) horigin
  | resolved _ hsource _ _ _ hinput _ ih =>
    have hinputs := (hsource ▸ hsound.source : SoundSource env (.nested _))
    exact ih (hinputs.inputs (List.mem_of_getElem? hinput)) horigin
  | own _ _ ih => exact ih hsound.source horigin
  | joined _ hjoins _ ih =>
    exact ih (hsound.joined (hjoins ▸ List.mem_append_right _ List.mem_cons_self)) horigin

/-- Wherever the source reports a type, the column comes from a column of a table with that type. -/
def Traceable (source : RowSource Model) : Prop :=
  ∀ i c t, (Model.ownColumnsOf source)[i]? = some c → c.type = some t →
    ∃ name table column, Traces source i (.column name table column) ∧ column.type = t

theorem traceable_table (name : String) (table : Table) : Traceable (.table name table) := by
  intro i c t hc ht
  rw [Model.ownColumnsOf, Table.shownColumns, List.getElem?_map] at hc
  obtain ⟨column, hcolumn, rfl⟩ := Option.map_eq_some_iff.mp hc
  exact ⟨name, table, column, .table hcolumn, Option.some.inj ht⟩

section Projections

variable {m body : Model} {p : Projection}

theorem traceable_published {lower : Projection} (hp : m.projection = some p)
    (hsource : m.source = .nested body) (hlower : body.projection = some lower)
    (hbody : Traceable (.nested body)) : Traceable (.nested m) := by
  intro i c t hc ht
  rw [Model.ownColumnsOf, Model.shownColumns_published hp hsource hlower] at hc
  obtain ⟨name, ref, position, hcolumn, ht⟩ := Projection.of_getElem?_shownColumns hc ht
  obtain ⟨found, hfound, ht⟩ := Option.bind_eq_some_iff.mp ht
  obtain ⟨hmem, hfoundName⟩ := ShownColumn.of_find? hfound
  obtain ⟨j, hj⟩ := List.mem_iff_getElem?.mp hmem
  obtain ⟨tableName, table, column, htraces, htype⟩ := hbody j found t (by rw [Model.ownColumnsOf, hj]) ht
  have hnames := congrArg (fun names => names[j]?) (Model.names_shownColumns hlower)
  simp only [Projection.aliases, List.getElem?_map, hj, Option.map_some] at hnames
  obtain ⟨d, hd, hname⟩ := Option.map_eq_some_iff.mp hnames.symm
  have hsame : Ascii.same d.1 ref.name = true := hname ▸ hfoundName
  exact ⟨tableName, table, column, .published hp hsource hlower hcolumn hd hsame htraces, htype⟩

theorem traceable_resolved (hp : m.projection = some p) (hsource : m.source = .nested body)
    (hplain : body.projection = none) (hknown : ∀ c ∈ p.columns, c.2.PlainIn body.Knows)
    (hinputs : ∀ input ∈ body.inputs, Traceable input.source) : Traceable (.nested m) := by
  intro i c t hc ht
  rw [Model.ownColumnsOf, Model.shownColumns_resolved hp hsource hplain] at hc
  obtain ⟨name, ref, position, hcolumn, ht⟩ := Projection.of_getElem?_shownColumns hc ht
  obtain ⟨k, hleads⟩ := hknown _ (List.mem_of_getElem? hcolumn) ref rfl
  obtain ⟨type, hresolve⟩ := hleads position
  obtain ⟨_, j, found, hentry, hfinds, hfound, rfl⟩ := Scope.finds_of_resolve hresolve
  have htype : found.type = some t := (Scope.typeOf_of_resolve hresolve).symm.trans ht
  obtain ⟨input, hinput, rfl⟩ := Model.exists_input (body.sources_eq_inputs ▸ hentry)
  obtain ⟨tableName, table, column, htraces, htype⟩ :=
    hinputs input (List.mem_of_getElem? hinput) j found t hfound htype
  exact ⟨tableName, table, column, .resolved hp hsource hplain hcolumn hfinds hinput htraces, htype⟩

theorem traceable_rows (hp : m.projection = none) (hsource : Traceable m.source)
    (hjoins : ∀ j ∈ m.joins, Traceable (.nested j.model)) : Traceable (.nested m) := by
  intro i c t hc ht
  rw [Model.ownColumnsOf, Model.shownColumns_rows hp, List.getElem?_append] at hc
  split at hc
  · obtain ⟨name, table, column, htraces, htype⟩ := hsource i c t hc ht
    exact ⟨name, table, column, .own hp htraces, htype⟩
  · rename_i hlong
    obtain ⟨before, j, after, k, hsplit, hk, hc⟩ := Model.exists_joined hc
    have hj : j ∈ m.joins := hsplit ▸ List.mem_append_right _ List.mem_cons_self
    obtain ⟨name, table, column, htraces, htype⟩ := hjoins j hj k c t (by rw [Model.ownColumnsOf, hc]) ht
    have hplace : i = (Model.ownColumnsOf m.source ++ Model.joinedColumns before).length + k := by
      rw [List.length_append]
      omega
    exact ⟨name, table, column, hplace ▸ .joined hp hsplit htraces, htype⟩

end Projections

/-- In a sound model, and in what it reads, types come from tables. -/
theorem Model.traceable (m : Model) (hsound : SoundSource env (.nested m)) :
    Traceable (.nested m) ∧ ∀ input ∈ m.inputs, Traceable input.source := by
  induction m using treeInduct with
  | step m ihSource ihJoins =>
    have hown : Traceable m.source := by
      cases hs : m.source with
      | table name table => exact traceable_table name table
      | nested inner => exact (ihSource inner hs (hs ▸ hsound.source)).1
    have hinputs : ∀ input ∈ m.inputs, Traceable input.source := by
      intro input hinput
      rcases List.mem_cons.mp hinput with rfl | hinput
      · exact hown
      · obtain ⟨j, hj, rfl⟩ := List.mem_map.mp hinput
        exact (ihJoins j hj (hsound.joined hj)).2 _ List.mem_cons_self
    refine ⟨?_, hinputs⟩
    cases hp : m.projection with
    | none => exact traceable_rows hp hown fun j hj => (ihJoins j hj (hsound.joined hj)).1
    | some p =>
      obtain ⟨hresolved, -⟩ := hsound.nested m rfl
      obtain ⟨body, hsource, hknown⟩ := (Model.resolved_iff.mp hresolved).1.projection p hp
      have hbody := ihSource body hsource (hsource ▸ hsound.source)
      cases hlower : body.projection with
      | some lower => exact traceable_published hp hsource hlower hbody.1
      | none => exact traceable_resolved hp hsource hlower (hknown hlower) hbody.2

/-- **A type is reported for no column but those that come from tables.** -/
theorem SoundSource.traceable (hsound : SoundSource env source) : Traceable source := by
  cases source with
  | table name table => exact traceable_table name table
  | nested m => exact (m.traceable hsound).1

end Types

/-! ### Types in a scope -/

/-- Among the sources of a scope, the column that a reference means comes from the origin given. -/
def Scope.TracesTo (scope : Scope) (sources : List Model) (ref : ColumnRef) (origin : ColumnOrigin) :
    Prop :=
  ∃ k i input, scope.Finds ref k i ∧ sources[k]? = some input ∧ Traces input.source i origin

theorem Scope.TracesTo.leads {scope : Scope} {sources : List Model} {ref : ColumnRef}
    {origin : ColumnOrigin} (h : scope.TracesTo sources ref origin) : ∃ k, scope.LeadsTo ref k := by
  obtain ⟨k, i, input, hfinds, -, -⟩ := h
  exact ⟨k, hfinds.leads⟩

namespace Compile

variable {env : Environment} {q : Query} {c c' : Counters} {scope : Scope} {sources : List Model}

/-- The sources of a scope are sound. -/
theorem Opens.sound (h : Opens env q c scope sources) : ∀ m ∈ sources, SoundSource env m.source := by
  have hresolved : ∀ m ∈ sources, m.Resolved env := by
    cases h with
    | master hsource hadded =>
      exact List.forall_mem_singleton.mpr
        (resolved_addMaster (resolved_levels.modelOfSource q.source hsource) hadded)
    | sources hdeclared =>
      obtain ⟨m, _, scope, _, hsource, hadded, hjoins⟩ := declare_ok hdeclared
      refine List.forall_mem_cons.mpr
        ⟨resolved_addMaster (resolved_levels.modelOfSource q.source hsource) hadded, fun n hn => ?_⟩
      obtain ⟨pending, hpending, rfl⟩ := List.mem_map.mp hn
      obtain ⟨joined, name, hjoined, hmodel⟩ :=
        resolved_levels.sourcesOfJoins q.joins (List.forall_mem_nil _) hjoins pending hpending
      rw [hmodel]
      exact hjoined.of_eq rfl rfl rfl
  intro m hm
  obtain ⟨entry, -, hentry⟩ := exists_mem_of_forall₂ h.entries.flip hm
  exact (SoundSource.of_model (hresolved m hm) hentry.formed).source

/-- **The type that a scope gives a reference** is that of the column of a table from which the column
comes that is meant, if it comes from one. -/
theorem Opens.type_resolved (h : Opens env q c scope sources) {ref : ColumnRef} {p : Nat}
    {r : Resolution} (hr : scope.resolve ref p = .ok r) :
    (∀ origin, scope.TracesTo sources ref origin → r.type = origin.type?) ∧
      ∀ t, r.type = some t → ∃ name table column,
        scope.TracesTo sources ref (.column name table column) ∧ column.type = t := by
  have hsound := h.sound
  obtain rfl := h.scope_eq
  constructor
  · rintro origin ⟨k, i, input, hfinds, hinput, htraces⟩
    obtain ⟨found, hfound, htype⟩ := htraces.type_eq (hsound input (List.mem_of_getElem? hinput))
    have hresolve := hfinds.resolve (Model.getElem?_asEntry hinput) hfound p
    obtain rfl := Except.ok.inj (hr.symm.trans hresolve)
    exact htype
  · intro t ht
    obtain ⟨_, i, found, hentry, hfinds, hfound, htype⟩ := Scope.finds_of_resolve hr
    obtain ⟨input, hinput, rfl⟩ := Model.exists_input hentry
    have hinputSound := hsound input (List.mem_of_getElem? hinput)
    obtain ⟨name, table, column, htraces, hcolumn⟩ :=
      hinputSound.traceable i found t hfound (htype.symm.trans ht)
    exact ⟨name, table, column, ⟨r.source, i, input, hfinds, hinput, htraces⟩, hcolumn⟩

end Compile

/-! ### The key of `sample by` -/

namespace Clause

variable {scope : Scope} {body : Model} {interval : Expr}

theorem resolve_ne_notATimestamp {ref : ColumnRef} {p position : Nat} {name : String} :
    scope.resolve ref p ≠ .error ⟨position, .notATimestamp name⟩ := by
  unfold Scope.resolve
  intro h
  split at h
  · split at h
    · cases h
    · split at h <;> cases h
    · cases h
  · split at h <;> cases h

theorem of_checkTimestamp_notATimestamp {key : Expr} {position : Nat} {name : String}
    (h : checkTimestamp scope key = .error ⟨position, .notATimestamp name⟩) :
    ∃ ref r t, key = .column ref position ∧ ref.name = name ∧ scope.resolve ref position = .ok r ∧
      r.type = some t ∧ t ≠ .timestamp := by
  cases hcolumn : key.column? with
  | none => simp [checkTimestamp, hcolumn] at h
  | some ref =>
    obtain ⟨p, rfl⟩ := Expr.column?_eq_some.mp hcolumn
    simp only [checkTimestamp, Expr.column?, Expr.position] at h
    split at h
    · rename_i e hresolve
      cases h
      exact absurd hresolve resolve_ne_notATimestamp
    · rename_i r hresolve
      split at h
      · rename_i hwrong
        cases h
        obtain ⟨t, ht, hne⟩ := (Option.any_eq_true _ _).mp hwrong
        exact ⟨ref, r, t, rfl, rfl, hresolve, ht, of_decide_eq_true hne⟩
      · cases h

/-- A key is rejected for its type if it is a column of a known type other than `TIMESTAMP`. -/
theorem sampleColumn_notATimestamp_iff {position : Nat} {name : String} :
    sampleColumn scope body interval = .error ⟨position, .notATimestamp name⟩ ↔
      ∃ ref r t, body.designatedTimestamp? = some (.column ref position) ∧ ref.name = name ∧
        scope.resolve ref position = .ok r ∧ r.type = some t ∧ t ≠ .timestamp := by
  constructor
  · intro h
    unfold sampleColumn at h
    split at h
    · cases h
    · rename_i key hkey
      split at h
      · rename_i e hcheck
        cases h
        obtain ⟨ref, r, t, rfl, hname, hresolve, ht, hne⟩ := of_checkTimestamp_notATimestamp hcheck
        exact ⟨ref, r, t, hkey, hname, hresolve, ht, hne⟩
      · cases h
  · rintro ⟨ref, r, t, hkey, rfl, hresolve, ht, hne⟩
    have hwrong : (r.type.any fun t => decide (t ≠ .timestamp)) = true := by
      rw [ht]
      exact decide_eq_true hne
    simp only [sampleColumn, hkey, checkTimestamp, Expr.column?, Expr.position, hresolve, hwrong, if_true]

end Clause

/-- **Column types survive nesting.** A column that a compiled query shows has the type of the column of
the catalog from which it comes, and none if it is computed; no type is reported for other columns. At
every level, the timestamp that `sample by` groups on is rejected for its type exactly if it is a column
that comes from a column of the catalog which is no `TIMESTAMP`. -/
theorem Query.compile_columnTypes {env : Environment} {q : Query} :
    (∀ m, q.compile env = .ok m → ∀ i c, m.shownColumns[i]? = some c →
      (∀ name table column, Traces (.nested m) i (.column name table column) →
        env.table? name = some table ∧ column ∈ table.columns ∧ c.type = some column.type) ∧
      (Traces (.nested m) i .computed → c.type = none) ∧
      ∀ t, c.type = some t →
        ∃ name table column, Traces (.nested m) i (.column name table column) ∧ column.type = t) ∧
    ∀ counters master s counters' body,
      Compile.declare env q counters = .ok ((master, s), counters') →
      Compile.IsBody env q master s counters' body → ∀ interval position name,
        (Clause.sampleColumn s.scope body interval = .error ⟨position, .notATimestamp name⟩ ↔
          ∃ ref, body.designatedTimestamp? = some (.column ref position) ∧ ref.name = name ∧
            ∃ tableName table column,
              s.scope.TracesTo (master :: s.joins.map Compile.UnplacedJoin.model) ref
                (.column tableName table column) ∧ column.type ≠ .timestamp) := by
  refine ⟨fun m hm i c hc => ?_, fun counters master s counters' body hdeclared hbody interval position
    name => ?_⟩
  · have hsound : SoundSource env (.nested m) :=
      .of_model (Query.compile_resolved hm) (Query.compile_formed hm)
    have htype : ∀ origin, Traces (.nested m) i origin → c.type = origin.type? := by
      intro origin htraces
      obtain ⟨found, hfound, htype⟩ := htraces.type_eq hsound
      obtain rfl := Option.some.inj (hc.symm.trans hfound)
      exact htype
    refine ⟨fun name table column htraces => ?_, htype _, fun t ht => ?_⟩
    · obtain ⟨htable, hcolumn⟩ := htraces.mem_catalog hsound rfl
      exact ⟨htable, hcolumn, htype _ htraces⟩
    · exact (m.traceable hsound).1 i c t hc ht
  · rw [Clause.sampleColumn_notATimestamp_iff]
    have hopens := Compile.Opens.sources hdeclared
    constructor
    · rintro ⟨ref, r, t, hkey, rfl, hresolve, ht, hne⟩
      obtain ⟨tableName, table, column, htraces, rfl⟩ := (hopens.type_resolved hresolve).2 t ht
      exact ⟨ref, hkey, rfl, tableName, table, column, htraces, hne⟩
    · rintro ⟨ref, hkey, rfl, tableName, table, column, htraces, hne⟩
      obtain ⟨k, hleads⟩ := htraces.leads
      obtain ⟨type, hresolve⟩ := hleads position
      have htype := (hopens.type_resolved hresolve).1 _ htraces
      exact ⟨ref, _, column.type, hkey, rfl, hresolve, htype, hne⟩

/-- A renamed column of a joined table keeps its type through a sub-query, a sum has none, and a renamed
price is no time to sample by. -/
theorem Query.compile_columnTypes_renamed :
    (∃ q m, Statement.ofText
        "select n, u from (select c.name n, o.total + 1 u from orders o join customers c on (id)) x" =
          .ok (.query q) ∧ q.compile salesEnvironment = .ok m ∧
        (∃ name table column, Traces (.nested m) 0 (.column name table column) ∧
          column.type = .string) ∧
        ∀ name table column, ¬ Traces (.nested m) 1 (.column name table column)) ∧
      ∃ q master s c' body, Statement.ofText
          "select sum(price) from (select price p, price from trades) timestamp(p) sample by 1h" =
            .ok (.query q) ∧
        Compile.declare marketEnvironment q ⟨0, 0⟩ = .ok ((master, s), c') ∧
        Compile.IsBody marketEnvironment q master s c' body ∧
        ∀ interval, Clause.sampleColumn s.scope body interval = .error ⟨69, .notATimestamp "p"⟩ ∧
          ∃ ref tableName table column,
            s.scope.TracesTo (master :: s.joins.map Compile.UnplacedJoin.model) ref
              (.column tableName table column) ∧ column.type ≠ .timestamp := by
  constructor
  · obtain ⟨q, hq, hcompiles⟩ := Statement.exists_query
      "select n, u from (select c.name n, o.total + 1 u from orders o join customers c on (id)) x"
      (fun q => (q.compile salesEnvironment).toOption.any fun m =>
        m.shownColumns = [⟨"n", some .string⟩, ⟨"u", none⟩]) (by decide +kernel)
    obtain ⟨m, hm, hcolumns⟩ := Except.any_toOption.mp hcompiles
    have hcolumns := of_decide_eq_true hcolumns
    refine ⟨q, m, hq, hm, ?_, fun name table column htraces => ?_⟩
    · exact (Query.compile_columnTypes.1 m hm 0 ⟨"n", some .string⟩ (by rw [hcolumns]; rfl)).2.2 _ rfl
    · obtain ⟨-, -, htype⟩ :=
        (Query.compile_columnTypes.1 m hm 1 ⟨"u", none⟩ (by rw [hcolumns]; rfl)).1 _ _ _ htraces
      cases htype
  · obtain ⟨q, hq, htest⟩ := Statement.exists_query
      "select sum(price) from (select price p, price from trades) timestamp(p) sample by 1h"
      (fun q => Compile.hasTime marketEnvironment q (.plain "p") 69 &&
        (Compile.declare marketEnvironment q ⟨0, 0⟩).toOption.any fun r =>
          r.1.2.scope.rejection? (Compile.conditionColumns q r.1.2) = none &&
          (r.1.2.scope.resolve (.plain "p") 69).toOption.any fun found => found.type = some .double)
      (by decide +kernel)
    obtain ⟨htime, hdeclares⟩ := Bool.and_eq_true_iff.mp htest
    obtain ⟨⟨⟨master, s⟩, c'⟩, hdeclared, htest⟩ := Except.any_toOption.mp hdeclares
    obtain ⟨haccepted, hresolves⟩ := Bool.and_eq_true_iff.mp htest
    obtain ⟨found, hfound, htype⟩ := Except.any_toOption.mp hresolves
    obtain ⟨body, hbody⟩ := Compile.exists_isBody marketEnvironment master c' (of_decide_eq_true haccepted)
    have hkey : body.designatedTimestamp? = some (.column (.plain "p") 69) := by
      rw [Model.designatedTimestamp?,
        Compile.timestamp_isBody hdeclared hbody (Compile.hasTime_ok htime)]
    refine ⟨q, master, s, c', body, hq, hdeclared, hbody, fun interval => ?_⟩
    have hrejects : Clause.sampleColumn s.scope body interval = .error ⟨69, .notATimestamp "p"⟩ :=
      Clause.sampleColumn_notATimestamp_iff.mpr
        ⟨_, found, .double, hkey, rfl, hfound, of_decide_eq_true htype, by decide⟩
    obtain ⟨ref, -, -, htraces⟩ :=
      (Query.compile_columnTypes.2 _ master s c' body hdeclared hbody interval 69 "p").mp hrejects
    exact ⟨hrejects, ref, htraces⟩

end SeriesQuery
