import SeriesQuery.Proofs.Formed
import SeriesQuery.Proofs.Scope

/-!
The columns that a reference may mean.

A reference is accepted if all columns that match it stand in one source of the scope, and it leads to
the first of them there (`Scope.resolve_candidates`); columns in two sources are an error
(`Scope.resolve_of_two_sources`). Within a source columns of tables and of select lists stand side by
side (`Model.columnLists`). A select list has every name once, so a name that a source has twice is in
two of these lists or twice in a table (`Model.Formed.two_columns_iff`).
-/

namespace SeriesQuery

/-! ### The candidates of a scope -/

/-- Whether a source may be meant by a reference with the qualifier. -/
def ScopeEntry.answersTo (e : ScopeEntry) (qualifier : Option String) : Bool :=
  qualifier.all e.isNamed

/-- The columns of a source with the given name, in any case. -/
def ScopeEntry.columnsNamed (e : ScopeEntry) (name : String) : List ShownColumn :=
  e.columns.filter fun c => Ascii.same c.name name

theorem ScopeEntry.column?_eq_head? (e : ScopeEntry) (name : String) :
    e.column? name = (e.columnsNamed name).head? := by
  rw [column?, ShownColumn.find?, columnsNamed, List.head?_filter]

namespace Scope

variable {s : Scope} {ref : ColumnRef}

/-- The columns that match a reference in name, and in qualifier if it has one, in any case, with
the places of their sources. -/
def candidates (s : Scope) (ref : ColumnRef) : List (Nat × ShownColumn) :=
  (s.entries.zipIdx.filter fun e => e.1.answersTo ref.qualifier).flatMap fun e =>
    (e.1.columnsNamed ref.name).map fun c => (e.2, c)

theorem mem_candidates {found : Nat × ShownColumn} :
    found ∈ s.candidates ref ↔ ∃ entry, (entry, found.1) ∈ s.entries.zipIdx ∧
      entry.answersTo ref.qualifier = true ∧ found.2 ∈ entry.columnsNamed ref.name := by
  constructor
  · intro h
    obtain ⟨⟨entry, i⟩, hentry, hfound⟩ := List.mem_flatMap.mp h
    obtain ⟨hentry, hanswers⟩ := List.mem_filter.mp hentry
    obtain ⟨c, hc, rfl⟩ := List.mem_map.mp hfound
    exact ⟨entry, hentry, hanswers, hc⟩
  · rintro ⟨entry, hentry, hanswers, hc⟩
    exact List.mem_flatMap.mpr ⟨(entry, found.1), List.mem_filter.mpr ⟨hentry, hanswers⟩,
      List.mem_map.mpr ⟨found.2, hc, rfl⟩⟩

/-- **An accepted reference has its candidates in one source**, and leads to the first of them. -/
theorem resolve_candidates {p : Nat} {r : Resolution} (h : s.resolve ref p = .ok r) :
    ∃ entry, s.entries[r.source]? = some entry ∧
      s.candidates ref = (entry.columnsNamed ref.name).map (fun c => (r.source, c)) ∧
      ∃ c, entry.column? ref.name = some c ∧ r.type = c.type := by
  obtain ⟨qualifier, name⟩ := ref
  cases qualifier with
  | some qualifier =>
    obtain ⟨entry, c, hnamed, hcolumn, htype⟩ := resolve_qualified h
    have hentry : (entry, r.source) ∈ s.entries.zipIdx :=
      (List.mem_filter.mp (hnamed ▸ List.mem_singleton_self _ : (entry, r.source) ∈ s.named qualifier)).1
    refine ⟨entry, List.mem_zipIdx_iff_getElem?.mp hentry, ?_, c, hcolumn, htype⟩
    have hanswering : (s.entries.zipIdx.filter fun e => e.1.answersTo (some qualifier)) =
        [(entry, r.source)] := hnamed
    rw [candidates, hanswering, List.flatMap_singleton]
  | none =>
    -- the sources before and after the one that has the column have none
    obtain ⟨before, ⟨entry, i⟩, after, hentries, hbefore, hhere, hafter⟩ :=
      List.filterMap_eq_cons_iff.mp (resolve_plain h)
    obtain ⟨c, hcolumn, rfl⟩ := Option.map_eq_some_iff.mp hhere
    have hnone : ∀ e : ScopeEntry × Nat,
        (e.1.column? name).map (fun c => (⟨e.2, c.type⟩ : Resolution)) = none →
          (e.1.columnsNamed name).map (fun c => (e.2, c)) = [] := by
      intro e he
      rw [Option.map_eq_none_iff, ScopeEntry.column?_eq_head?, List.head?_eq_none_iff] at he
      rw [he, List.map_nil]
    have hmem : (entry, i) ∈ s.entries.zipIdx := by simp [hentries]
    refine ⟨entry, List.mem_zipIdx_iff_getElem?.mp hmem, ?_, c, hcolumn, rfl⟩
    have hall : (s.entries.zipIdx.filter fun e => e.1.answersTo none) = s.entries.zipIdx :=
      List.filter_eq_self.mpr fun _ _ => rfl
    rw [candidates, hall, hentries, List.flatMap_append, List.flatMap_cons,
      List.flatMap_eq_nil_iff.mpr fun e he => hnone e (hbefore e he),
      List.flatMap_eq_nil_iff.mpr fun e he => hnone e (List.filterMap_eq_nil_iff.mp hafter e he)]
    simp

theorem exists_two_of_ne {α : Type} {l : List α} {a b : α} (ha : a ∈ l) (hb : b ∈ l) (h : a ≠ b) :
    ∃ x y rest, l = x :: y :: rest := by
  match l with
  | [] => cases ha
  | [x] => exact absurd ((List.mem_singleton.mp ha).trans (List.mem_singleton.mp hb).symm) h
  | x :: y :: rest => exact ⟨x, y, rest, rfl⟩

/-- **A reference with candidates in two sources is ambiguous.** -/
theorem resolve_of_two_sources {a b : Nat × ShownColumn} (ha : a ∈ s.candidates ref)
    (hb : b ∈ s.candidates ref) (hne : a.1 ≠ b.1) (p : Nat) :
    s.resolve ref p = .error ⟨p, .ambiguousColumn ref.text⟩ := by
  obtain ⟨first, hfirst, hfirstAnswers, hfirstColumn⟩ := mem_candidates.mp ha
  obtain ⟨second, hsecond, hsecondAnswers, hsecondColumn⟩ := mem_candidates.mp hb
  obtain ⟨qualifier, name⟩ := ref
  cases qualifier with
  | some qualifier =>
    have hnamed : ∃ x y rest, s.named qualifier = x :: y :: rest :=
      exists_two_of_ne (List.mem_filter.mpr ⟨hfirst, hfirstAnswers⟩)
        (List.mem_filter.mpr ⟨hsecond, hsecondAnswers⟩) fun h => hne (congrArg Prod.snd h)
    obtain ⟨x, y, rest, hnamed⟩ := hnamed
    simp only [resolve, hnamed]
  | none =>
    have hholder : ∀ {entry i c}, (entry, i) ∈ s.entries.zipIdx → c ∈ entry.columnsNamed name →
        ∃ r ∈ s.holders name, r.source = i := by
      intro entry i c hentry hc
      obtain ⟨first, rest, hcolumns⟩ := List.exists_cons_of_ne_nil (List.ne_nil_of_mem hc)
      refine ⟨⟨i, first.type⟩, List.mem_filterMap.mpr ⟨(entry, i), hentry, ?_⟩, rfl⟩
      rw [ScopeEntry.column?_eq_head?, hcolumns]
      rfl
    obtain ⟨ra, hra, hsourceA⟩ := hholder hfirst hfirstColumn
    obtain ⟨rb, hrb, hsourceB⟩ := hholder hsecond hsecondColumn
    obtain ⟨x, y, rest, hholders⟩ := exists_two_of_ne hra hrb fun h => hne (by rw [← hsourceA, ← hsourceB, h])
    simp only [resolve, hholders, ColumnRef.text]

end Scope

/-! ### Columns that stand side by side -/

/-- Columns that stand together in a source: those of a table, or a select list. -/
inductive ColumnList where
  | table (table : Table)
  | select (projection : Projection)

namespace ColumnList

/-- The names of the columns. -/
def names : ColumnList → List String
  | table t => t.columns.map Column.name
  | select p => p.aliases

/-- How often a name is among those of the columns, in any case. -/
def count (list : ColumnList) (name : String) : Nat :=
  list.names.countP fun other => Ascii.same other name

end ColumnList

namespace Model

mutual

/-- The tables and select lists whose columns a model shows. -/
def columnLists : Model → List ColumnList
  | { projection := some p, .. } => [.select p]
  | { projection := none, source, joins, .. } => ownColumnLists source ++ joinedColumnLists joins

/-- The tables and select lists whose columns a source shows. -/
def ownColumnLists : RowSource Model → List ColumnList
  | .table _ table => [.table table]
  | .nested inner => inner.columnLists

/-- The tables and select lists whose columns joined models show. -/
def joinedColumnLists : List (JoinClause Model) → List ColumnList
  | [] => []
  | { model, .. } :: joins => model.columnLists ++ joinedColumnLists joins

end

theorem names_joinedColumns {joins : List (JoinClause Model)}
    (h : ∀ j ∈ joins,
      j.model.shownColumns.map ShownColumn.name = j.model.columnLists.flatMap ColumnList.names) :
    (joinedColumns joins).map ShownColumn.name = (joinedColumnLists joins).flatMap ColumnList.names := by
  induction joins with
  | nil => rfl
  | cons j joins ih =>
    obtain ⟨hj, hjoins⟩ := List.forall_mem_cons.mp h
    simp only [joinedColumns, joinedColumnLists, List.map_append, List.flatMap_append, hj, ih hjoins]

theorem names_ownColumnsOf {source : RowSource Model}
    (h : ∀ inner, source = .nested inner →
      inner.shownColumns.map ShownColumn.name = inner.columnLists.flatMap ColumnList.names) :
    (ownColumnsOf source).map ShownColumn.name = (ownColumnLists source).flatMap ColumnList.names := by
  cases source with
  | table name table =>
    simp [ownColumnsOf, ownColumnLists, ColumnList.names, Table.shownColumns, Function.comp_def]
  | nested inner =>
    rw [ownColumnsOf, ownColumnLists]
    exact h inner rfl

theorem names_shownColumns_eq (m : Model) :
    m.shownColumns.map ShownColumn.name = m.columnLists.flatMap ColumnList.names := by
  induction m using treeInduct with
  | step m ihSource ihJoins =>
    obtain ⟨projection, source, _, _, _, joins, _, _, _, _, _⟩ := m
    cases projection with
    | some p =>
      rw [names_shownColumns rfl, columnLists, List.flatMap_singleton]
      rfl
    | none =>
      rw [shownColumns, columnLists, List.map_append, List.flatMap_append,
        names_ownColumnsOf ihSource, names_joinedColumns ihJoins]

theorem mem_joinedColumnLists {joins : List (JoinClause Model)} {list : ColumnList} :
    list ∈ joinedColumnLists joins ↔ ∃ j ∈ joins, list ∈ j.model.columnLists := by
  induction joins with
  | nil => simp [joinedColumnLists]
  | cons j joins ih => simp [joinedColumnLists, ih]

/-- The select lists of a well-formed model have names that differ. -/
theorem Formed.apart_of_select {place : Place} {m : Model} (h : m.Formed place) {p : Projection}
    (hp : .select p ∈ m.columnLists) : p.Apart := by
  induction h with
  | @intro place m here source joins ihSource ihJoins =>
    obtain ⟨projection, rows, _, _, _, joined, _, _, _, _, _⟩ := m
    cases projection with
    | some q =>
      obtain ⟨⟩ := List.mem_singleton.mp hp
      exact here.apart p rfl
    | none =>
      rcases List.mem_append.mp hp with hp | hp
      · cases rows with
        | table name table => cases List.mem_singleton.mp hp
        | nested inner => exact ihSource inner rfl hp
      · obtain ⟨j, hj, hp⟩ := mem_joinedColumnLists.mp hp
        exact ihJoins j hj hp

end Model

/-! ### Names that a source has twice -/

/-- A select list whose names differ has a name at most once. -/
theorem Projection.Apart.count_le_one {p : Projection} (h : p.Apart) (name : String) :
    (ColumnList.select p).count name ≤ 1 := by
  rw [ColumnList.count, List.countP_eq_length_filter]
  refine Nat.le_of_not_lt fun hlong => ?_
  obtain ⟨a, b, rest, hfilter⟩ : ∃ a b rest,
      p.aliases.filter (fun other => Ascii.same other name) = a :: b :: rest := by
    match hl : p.aliases.filter fun other => Ascii.same other name with
    | [] | [x] => simp [ColumnList.names, hl] at hlong
    | a :: b :: rest => exact ⟨a, b, rest, rfl⟩
  have hsame : ∀ x ∈ a :: b :: rest, Ascii.lower x = Ascii.lower name := by
    rw [← hfilter]
    exact fun x hx => Ascii.same_iff.mp (List.mem_filter.mp hx).2
  have hdiffer : Ascii.same a b = false := by
    have hpairs := h.sublist (List.filter_sublist (p := fun other => Ascii.same other name))
    rw [hfilter] at hpairs
    exact (List.pairwise_cons.mp hpairs).1 b List.mem_cons_self
  rw [Ascii.same_iff.mpr ((hsame a (by simp)).trans (hsame b (by simp)).symm)] at hdiffer
  cases hdiffer

/-- Two of the tables and select lists that stand side by side have a name, or a table has it
twice. -/
def ShowsTwice (lists : List ColumnList) (name : String) : Prop :=
  1 < lists.countP (fun list => 0 < list.count name) ∨
    ∃ t, .table t ∈ lists ∧ 1 < (ColumnList.table t).count name

/-- Lists together have more than one element of a kind if two of them have one, or one has two. -/
theorem one_lt_countP_flatMap_iff {α β : Type} (f : α → List β) (p : β → Bool) (l : List α) :
    1 < (l.flatMap f).countP p ↔
      1 < l.countP (fun a => 0 < (f a).countP p) ∨ ∃ a ∈ l, 1 < (f a).countP p := by
  induction l with
  | nil => simp
  | cons a l ih =>
    have hpos : 0 < (l.flatMap f).countP p ↔ 0 < l.countP fun a => 0 < (f a).countP p := by
      simp only [List.countP_pos_iff, List.mem_flatMap, decide_eq_true_eq]
      exact ⟨fun ⟨x, ⟨b, hb, hx⟩, hpx⟩ => ⟨b, hb, x, hx, hpx⟩,
        fun ⟨b, hb, x, hx, hpx⟩ => ⟨x, ⟨b, hb, hx⟩, hpx⟩⟩
    have hmember : (∃ a ∈ l, 1 < (f a).countP p) → 0 < (l.flatMap f).countP p := by
      rintro ⟨b, hb, hlt⟩
      obtain ⟨x, hx, hpx⟩ := List.countP_pos_iff.mp (Nat.lt_of_succ_lt hlt)
      exact List.countP_pos_iff.mpr ⟨x, List.mem_flatMap.mpr ⟨b, hb, hx⟩, hpx⟩
    rw [List.flatMap_cons, List.countP_append, List.countP_cons]
    simp only [List.mem_cons, exists_eq_or_imp]
    rcases Nat.eq_zero_or_pos ((f a).countP p) with hzero | hone
    · simpa [hzero] using ih
    · rw [decide_eq_true hone, if_pos rfl]
      constructor
      · intro hsum
        by_cases hmore : 1 < (f a).countP p
        · exact .inr (.inl hmore)
        · have hrest : 0 < (l.flatMap f).countP p := by omega
          exact .inl (Nat.succ_lt_succ (hpos.mp hrest))
      · rintro (hcount | hmore | hothers)
        · have hrest := hpos.mpr (Nat.lt_of_succ_lt_succ hcount)
          omega
        · omega
        · have hrest := hmember hothers
          omega

/-- How often a name is in the columns of a source. -/
theorem Model.length_columnsNamed (m : Model) (entryName : Option String) (name : String) :
    (ScopeEntry.columnsNamed ⟨entryName, m.ownColumns⟩ name).length =
      ((ownColumnLists m.source).flatMap ColumnList.names).countP fun other => Ascii.same other name := by
  have hnames : m.ownColumns.map ShownColumn.name =
      (ownColumnLists m.source).flatMap ColumnList.names := by
    rw [ownColumns, names_ownColumnsOf fun inner _ => inner.names_shownColumns_eq]
  rw [ScopeEntry.columnsNamed, ← List.countP_eq_length_filter, ← hnames, List.countP_map]
  rfl

/-- **A name is twice in a well-formed source exactly if two of the tables and select lists that stand
side by side in it have the name, or a table has it twice.** -/
theorem Model.Formed.two_columns_iff {place : Place} {m : Model} (h : m.Formed place)
    (hp : m.projection = none) (entryName : Option String) (name : String) :
    1 < (ScopeEntry.columnsNamed ⟨entryName, m.ownColumns⟩ name).length ↔
      ShowsTwice (ownColumnLists m.source) name := by
  have hselect : ∀ p, .select p ∈ ownColumnLists m.source → p.Apart := by
    intro p hmem
    cases hs : m.source with
    | table tableName table =>
      rw [hs] at hmem
      cases List.mem_singleton.mp hmem
    | nested inner =>
      rw [hs] at hmem
      exact (((formed_rows_iff hp).mp h).2.1 inner hs).apart_of_select hmem
  rw [m.length_columnsNamed, one_lt_countP_flatMap_iff]
  refine or_congr Iff.rfl ⟨?_, ?_⟩
  · rintro ⟨list, hlist, hlt⟩
    cases list with
    | table t => exact ⟨t, hlist, hlt⟩
    | select p => exact absurd ((hselect p hlist).count_le_one name) (Nat.not_le_of_lt hlt)
  · rintro ⟨t, ht, hlt⟩
    exact ⟨.table t, ht, hlt⟩

end SeriesQuery
