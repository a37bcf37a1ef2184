import SeriesQuery.Proofs.Pointing.Parser
import SeriesQuery.Proofs.References
import SeriesQuery.Proofs.Statement.Invariant

/-!
Where the parts of a statement are written.

Every part of a statement that is read carries an offset of the cursor, on all its levels
(`Statement.parser_points`). In a text these are the starts of its tokens and the place where a missing
one is reported (`Cursor.offsetsOf`, `Statement.located_ofText`).
-/

namespace SeriesQuery

open SeriesQuery.Parser

variable {P : Nat → Prop}

/-! ### Parts of a query -/

/-- The expressions of the window are written at offsets of `P`. -/
structure Window.Located (P : Nat → Prop) (w : Window) : Prop where
  partitionBy : ∀ e ∈ w.partitionBy, e.Located P
  orderBy : ∀ item ∈ w.orderBy, item.expr.Located P

/-- The item, its window and the name that it is given are written at offsets of `P`. -/
structure SelectItem.Located (P : Nat → Prop) (item : SelectItem) : Prop where
  expr : item.expr.Located P
  givenName : ∀ given ∈ item.givenName, P given.position
  window : ∀ w ∈ item.window, w.Located P

/-- The select list and its items are written at offsets of `P`. -/
structure SelectClause.Located (P : Nat → Prop) (select : SelectClause) : Prop where
  position : P select.position
  items : ∀ item ∈ select.items, item.Located P

/-- The columns of the condition are written at offsets of `P`. -/
def JoinCondition.Located (P : Nat → Prop) : JoinCondition → Prop
  | on condition => condition.Located P
  | columns names => ∀ name ∈ names, P name.position

theorem Window.MadeOf.located {w : Window} (h : w.MadeOf (Expr.Located P)) : w.Located P :=
  ⟨h.partitionBy, h.orderBy⟩

theorem SelectItem.MadeOf.located {item : SelectItem} (h : item.MadeOf P (Expr.Located P)) :
    item.Located P :=
  ⟨h.expr, h.givenName, fun w hw => (h.window w hw).located⟩

theorem SelectClause.MadeOf.located {select : SelectClause} (h : select.MadeOf P (Expr.Located P)) :
    select.Located P :=
  ⟨h.position, fun item hitem => (h.items item hitem).located⟩

theorem JoinCondition.MadeOf.located {condition : JoinCondition}
    (h : condition.MadeOf P (Expr.Located P)) : condition.Located P := by
  cases condition with
  | on e => exact h
  | columns names => exact h

/-- Expressions, the columns to order by and the intervals are written at offsets of `P`. -/
theorem Expr.kept_within : Expr.Kept (Invariant.within P) (Expr.Located P) where
  parser := Expr.parser_points
  column hl _ := .column _ hl
  constant := .constant _
  position := Expr.Located.position

theorem JoinCondition.parser_points : (Invariant.within P).Keeps JoinCondition.parser
    (JoinCondition.MadeOf P (Expr.Located P)) := by
  apply Invariant.Keeps.bind .get
  intro c _
  apply Invariant.Keeps.bind nameList?_keeps
  intro names? hnames
  cases names? with
  | some names => exact .pure (hnames names rfl)
  | none =>
    apply Invariant.Keeps.bind (Invariant.within_reset _)
    intro _ _
    exact .bind Expr.parser_points fun _ he => .pure he

/-! ### Queries -/

/-- The name of the table that the source is, if it is one, is written at an offset of `P`. -/
def SourceOf.NamedAt (P : Nat → Prop) (source : SourceOf Query) : Prop :=
  ∀ name, source = .table name → P name.position

/-- The join is written at offsets of `P`. A query that is joined is a level of its own. -/
structure JoinOf.Located (P : Nat → Prop) (j : JoinOf Query) : Prop where
  source : j.source.NamedAt P
  givenName : GivenAt P j.givenName
  condition : ∀ condition ∈ j.condition, condition.Located P

/-- The level is written at offsets of `P`. The queries that it reads are levels of their own. -/
structure Query.Located (P : Nat → Prop) (q : Query) : Prop where
  select : ∀ select ∈ q.select, select.Located P
  source : q.source.NamedAt P
  givenName : GivenAt P q.givenName
  timestamp : ∀ e ∈ q.timestamp, e.Located P
  latestBy : ∀ e ∈ q.latestBy, e.Located P
  joins : ∀ j ∈ q.joins, j.Located P
  filter : ∀ e ∈ q.filter, e.Located P
  sampleBy : ∀ e ∈ q.sampleBy, e.Located P
  orderBy : ∀ item ∈ q.orderBy, item.expr.Located P

open Compile (levelsOfQuery levelsOfSource levelsOfJoins mem_levelsOfQuery mem_levelsOfJoins)

namespace Query

/-- The query is written at offsets of `P` on all its levels. -/
def LocatedThroughout (P : Nat → Prop) (q : Query) : Prop :=
  ∀ level ∈ levelsOfQuery q, level.Located P

/-- The source and the levels in it are written at offsets of `P`. -/
structure SourceLocated (P : Nat → Prop) (source : SourceOf Query) : Prop where
  named : source.NamedAt P
  levels : ∀ level ∈ levelsOfSource source, level.Located P

theorem MadeOf.located {q : Query} (h : q.MadeOf P (Expr.Located P) (SourceLocated P)) :
    q.LocatedThroughout P := by
  intro level hlevel
  rcases mem_levelsOfQuery.mp hlevel with rfl | hlevel | hlevel
  · exact {
      select := fun select hselect => (h.select select hselect).located
      source := h.source.named
      givenName := h.givenName
      timestamp := h.timestamp
      latestBy := h.latestBy
      joins := fun j hj =>
        have hmade := h.joins j hj
        ⟨hmade.source.named, hmade.givenName, fun on hon => (hmade.condition on hon).located⟩
      filter := h.filter
      sampleBy := h.sampleBy
      orderBy := h.orderBy }
  · exact h.source.levels level hlevel
  · obtain ⟨j, hj, hlevel⟩ := mem_levelsOfJoins.mp hlevel
    exact (h.joins j hj).source.levels level hlevel

theorem sourceParser_points {inner : Parser Query}
    (h : (Invariant.within P).Keeps inner (LocatedThroughout P)) :
    (Invariant.within P).Keeps (sourceParser inner) (SourceLocated P) := by
  apply Invariant.Keeps.bind .needNext
  intro l hl
  split
  · apply Invariant.Keeps.bind (.nested Invariant.within_anyDepth hl h)
    intro q hq
    refine .bind (.needToken _) fun _ _ => .pure ⟨fun name hname => ?_, ?_⟩
    · cases hname
    · rwa [levelsOfSource]
  · refine .pure ⟨fun name hname => ?_, fun level hlevel => ?_⟩
    · cases hname
      exact hl
    · rw [levelsOfSource] at hlevel
      cases hlevel
  · exact .fail hl nofun

theorem parser_points : (Invariant.within P).Keeps parser (LocatedThroughout P) := by
  suffices hdeep : ∀ levels, (Invariant.within P).Keeps (deep levels) (LocatedThroughout P) from hdeep _
  intro levels
  induction levels with
  | zero => exact .tooDeep Invariant.within_anyDepth maxNesting
  | succ levels ih =>
    have hparts := around_keeps Expr.kept_within (sourceParser_points ih) JoinCondition.parser_points
    exact hparts.mono fun _ => MadeOf.located

end Query

/-! ### Table declarations -/

/-- The names in the declaration that are looked up are written at offsets of `P`. -/
structure TableDeclaration.Located (P : Nat → Prop) (d : TableDeclaration) : Prop where
  columns : ∀ column ∈ d.columns, P column.name.position
  indexes : ∀ index ∈ d.indexes, P index.column.position
  timestamp : GivenAt P d.timestamp

theorem TableDeclaration.parser_points : (Invariant.within P).Keeps parser (Located P) := by
  have hnames : Ident.Kept (Invariant.within P) fun name => P name.position := fun _ _ hl _ => hl
  exact (parser_keeps hnames).mono fun _ h => ⟨fun column hcolumn => (h.columns column hcolumn).1,
    fun index hindex => (h.indexes index hindex).1, h.timestamp⟩

/-! ### Statements -/

namespace Statement

/-- The statement is written at offsets of `P`. -/
def Located (P : Nat → Prop) : Statement → Prop
  | query q => q.LocatedThroughout P
  | createTable d => d.Located P

theorem parser_points : Points P parser (Located P) :=
  Points.iff_keeps.mpr <| parser_keeps <|
    bodyParser_keeps Query.parser_points TableDeclaration.parser_points (fun _ h => h) fun _ h => h

end Statement

/-- The offsets of a text that a cursor can name: where its tokens start and where a missing one is
reported, or else where the text cannot be read as tokens. -/
def Cursor.offsetsOf (source : String) : List Nat :=
  match lex source with
  | .ok lexemes => lexemes.map Lexeme.start ++ [endOf source.utf8ByteSize lexemes]
  | .error e => [e.position]

/-- **A text is read with offsets of its own.** What cannot be read is reported at one of them, and a
statement that is read carries no others. -/
theorem Statement.located_ofText (sql : String) :
    match ofText sql with
    | .ok statement => statement.Located (· ∈ Cursor.offsetsOf sql)
    | .error e => e.position ∈ Cursor.offsetsOf sql := by
  unfold ofText Cursor.ofText
  cases hlex : lex sql with
  | error e => simp [Cursor.offsetsOf, hlex]
  | ok lexemes =>
    have hwithin : Cursor.Within (· ∈ Cursor.offsetsOf sql)
        ⟨[], lexemes, Cursor.endOf sql.utf8ByteSize lexemes, 0⟩ := by
      constructor
      · intro l hl
        simp only [Cursor.offsetsOf, hlex]
        exact List.mem_append_left _ (List.mem_map_of_mem hl)
      · simp [Cursor.offsetsOf, hlex]
    have hread := parser_points _ hwithin
    cases hrun : parser ⟨[], lexemes, Cursor.endOf sql.utf8ByteSize lexemes, 0⟩ with
    | ok statement c =>
      rw [hrun] at hread
      simpa only [hrun] using hread.2
    | error e c =>
      rw [hrun] at hread
      simpa only [hrun] using hread

end SeriesQuery
