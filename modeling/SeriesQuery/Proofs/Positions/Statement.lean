import SeriesQuery.Proofs.Positions.Parser
import SeriesQuery.Statement.Parser

/-!
Statements without positions, and that they are read by their tokens alone
(`Statement.parser_forgets`).
-/

namespace SeriesQuery

open Forgetful SeriesQuery.Parser

/-! ### Parts of a query -/

/-- A name without its position. -/
def Ident.erase (name : Ident) : Ident :=
  ⟨name.name, 0⟩

/-- An item of an `order by` list without positions. -/
def OrderItem.erase (item : OrderItem) : OrderItem :=
  ⟨item.expr.erase, item.descending⟩

/-- A `limit` without positions. -/
def Limit.erase (l : Limit) : Limit :=
  ⟨l.lo.erase, l.hi.map Expr.erase⟩

/-- A window without positions. -/
def Window.erase (w : Window) : Window :=
  ⟨w.partitionBy.map Expr.erase, w.orderBy.map OrderItem.erase⟩

/-- The condition of a join without positions. -/
def JoinCondition.erase : JoinCondition → JoinCondition
  | on condition => on condition.erase
  | columns names => columns (names.map Ident.erase)

/-- An item of a select list without positions. -/
def SelectItem.erase (item : SelectItem) : SelectItem :=
  ⟨item.expr.erase, item.givenName.map Ident.erase, item.window.map Window.erase⟩

/-- A select list without positions. -/
def SelectClause.erase (select : SelectClause) : SelectClause :=
  ⟨0, select.items.map SelectItem.erase⟩

theorem needName_forgets : Forgets Ident.erase needName needName := by
  refine bind needNext_forgets fun l => ?_
  obtain ⟨token, start, stop⟩ := l
  cases token with
  | ident text => exact pure Ident.erase ⟨text, start⟩
  | _ => exact fail_forgets _ _

theorem OrderItem.parser_forgets (notAName : Fault) :
    Forgets OrderItem.erase (OrderItem.parser notAName) (OrderItem.parser notAName) := by
  refine bind needNext_forgets fun l => ?_
  obtain ⟨token, start, stop⟩ := l
  cases token with
  | ident text =>
    refine bind (takeWord_forgets _) fun desc => ?_
    refine Forgets.ite (pure OrderItem.erase ⟨.column (.ofText text) start, true⟩) ?_
    exact bind (takeWord_forgets _) fun _ =>
      pure OrderItem.erase ⟨.column (.ofText text) start, false⟩
  | _ => exact fail_forgets _ _

theorem sourceAlias_forgets : Forgets (Option.map Ident.erase) sourceAlias sourceAlias := by
  refine bind peek_forgets fun l => ?_
  cases l with
  | none => exact pure (Option.map Ident.erase) none
  | some l =>
    obtain ⟨token, start, stop⟩ := l
    cases token with
    | ident text =>
      refine Forgets.ite (pure (Option.map Ident.erase) none) ?_
      refine Forgets.ite (fail_forgets _ _) ?_
      exact bind next_forgets fun _ => pure (Option.map Ident.erase) (some ⟨text, start⟩)
    | string text =>
      exact bind next_forgets fun _ => pure (Option.map Ident.erase) (some ⟨text, start⟩)
    | _ => exact pure (Option.map Ident.erase) none

theorem Window.parser_forgets : Forgets Window.erase Window.parser Window.parser := by
  refine bind (needToken_forgets _) fun _ => ?_
  refine bind (takeWord_forgets _) fun partitioned => ?_
  extract_lets rest
  have hrest : ∀ partitionBy, Forgets Window.erase (rest partitionBy)
      (rest (partitionBy.map Expr.erase)) := by
    intro partitionBy
    refine bind (takeWord_forgets _) fun ordered => ?_
    extract_lets close close'
    have hclose : ∀ orderBy, Forgets Window.erase (close orderBy)
        (close' (orderBy.map OrderItem.erase)) :=
      fun orderBy => bind (needToken_forgets _) fun _ => pure Window.erase ⟨partitionBy, orderBy⟩
    refine Forgets.ite (bind (needWord_forgets _) fun _ => ?_) (hclose [])
    exact bind (commaList_forgets (OrderItem.parser_forgets _)) hclose
  refine Forgets.ite (bind (needWord_forgets _) fun _ => ?_) (hrest [])
  exact bind Expr.listParser_forgets hrest

theorem columnAlias_forgets : Forgets (Option.map Ident.erase) columnAlias columnAlias := by
  refine bind (takeWord_forgets _) fun explicit => ?_
  refine bind peek_forgets fun l => ?_
  cases l with
  | none =>
    refine Forgets.ite ?_ (pure (Option.map Ident.erase) none)
    exact bind get_forgets fun _ => fail_forgets _ _
  | some l =>
    refine Forgets.ite (bind next_forgets fun _ => ?_) (pure (Option.map Ident.erase) none)
    obtain ⟨token, start, stop⟩ := l
    cases token with
    | ident text =>
      exact Forgets.ite (fail_forgets _ _) (pure (Option.map Ident.erase) (some ⟨text, start⟩))
    | string text => exact pure (Option.map Ident.erase) (some ⟨text, start⟩)
    | _ => exact fail_forgets _ _

@[simp] theorem Expr.isCall_erase (e : Expr) : e.erase.isCall = e.isCall := by
  cases e <;> rfl

theorem SelectItem.parser_forgets :
    Forgets SelectItem.erase SelectItem.parser SelectItem.parser := by
  refine bind Expr.parser_forgets fun expr => ?_
  refine bind columnAlias_forgets fun givenName => ?_
  refine bind (takeWord_forgets _) fun windowed => ?_
  refine Forgets.ite ?_ (pure SelectItem.erase ⟨expr, givenName, none⟩)
  simp only [Expr.isCall_erase, Expr.position_erase]
  refine Forgets.ite ?_ (fail_forgets _ _)
  exact bind Window.parser_forgets fun w => pure SelectItem.erase ⟨expr, givenName, some w⟩

theorem SelectClause.parser_forgets (position : Nat) :
    Forgets (Option.map SelectClause.erase) (SelectClause.parser position)
      (SelectClause.parser 0) := by
  refine bind peek_forgets fun l => ?_
  cases l with
  | none => exact bind position_forgets fun _ => fail_forgets _ _
  | some l =>
    refine Forgets.ite (fail_forgets _ _) (Forgets.ite ?_ ?_)
    · refine bind next_forgets fun _ => ?_
      exact bind (needWord_forgets _) fun _ => pure (Option.map SelectClause.erase) none
    · exact bind (listUntil_forgets SelectItem.parser_forgets) fun items =>
        pure (Option.map SelectClause.erase) (some ⟨position, items⟩)

/-! ### Joins -/

theorem nameList?_names_forgets (rounds : Nat) :
    Forgets (Option.map (List.map Ident.erase)) (nameList?.names rounds)
      (nameList?.names rounds) := by
  induction rounds with
  | zero => exact pure (Option.map (List.map Ident.erase)) none
  | succ rounds ih =>
    have hnone : Forgets (Option.map (List.map Ident.erase))
        (Pure.pure none : Parser (Option (List Ident))) (Pure.pure none) :=
      pure (Option.map (List.map Ident.erase)) none
    refine bind next_forgets fun l => ?_
    cases l with
    | none => exact hnone
    | some l =>
      obtain ⟨token, start, stop⟩ := l
      cases token with
      | ident text =>
        refine Forgets.ite hnone (bind next_forgets fun after => ?_)
        cases after with
        | none => exact hnone
        | some after =>
          obtain ⟨token, start', stop'⟩ := after
          cases token with
          | comma =>
            refine bind ih fun names => ?_
            cases names with
            | none => exact hnone
            | some names =>
              exact pure (Option.map (List.map Ident.erase)) (some (⟨text, start⟩ :: names))
          | rightParen =>
            exact pure (Option.map (List.map Ident.erase)) (some [⟨text, start⟩])
          | _ => exact hnone
      | _ => exact hnone

theorem nameList?_forgets :
    Forgets (Option.map (List.map Ident.erase)) nameList? nameList? := by
  refine bind (accept_forgets _) fun taken => Forgets.ite ?_ (pure (Option.map _) none)
  refine bind get_forgets fun c => ?_
  simp only [Cursor.erase, List.length_map]
  exact nameList?_names_forgets _

theorem JoinCondition.parser_forgets :
    Forgets JoinCondition.erase JoinCondition.parser JoinCondition.parser := by
  refine bind get_forgets fun c => ?_
  simp only [Cursor.erase, Cursor.index, List.length_map]
  refine bind nameList?_forgets fun names => ?_
  cases names with
  | some names => exact pure JoinCondition.erase (.columns names)
  | none =>
    refine bind (reset_forgets _) fun _ => ?_
    exact bind Expr.parser_forgets fun e => pure JoinCondition.erase (.on e)

theorem joinCondition_forgets (kind : JoinKind) :
    Forgets (Option.map JoinCondition.erase) (joinCondition kind) (joinCondition kind) := by
  have hon : Forgets (Option.map JoinCondition.erase)
      (do let _ ← next; return some (← JoinCondition.parser))
      (do let _ ← next; return some (← JoinCondition.parser)) := by
    refine bind next_forgets fun _ => ?_
    exact bind JoinCondition.parser_forgets fun condition =>
      pure (Option.map JoinCondition.erase) (some condition)
  have hfail : ∀ fault : Fault, Forgets (Option.map JoinCondition.erase)
      (do fail (← position) fault) (do fail (← position) fault) :=
    fun _ => bind position_forgets fun _ => fail_forgets _ _
  refine bind peek_forgets fun l => ?_
  have hword : (l.map Lexeme.erase).any (·.isWord "on") = l.any (·.isWord "on") := by
    cases l <;> rfl
  simp only [hword]
  cases kind with
  | cross => exact Forgets.ite (hfail _) (pure (Option.map JoinCondition.erase) none)
  | inner | outer => exact Forgets.ite hon (hfail _)
  | asof | splice => exact Forgets.ite hon (pure (Option.map JoinCondition.erase) none)

/-! ### Queries -/

namespace Query

mutual

/-- A query without positions. -/
def erase : Query → Query
  | { select, source, givenName, timestamp, latestBy, joins, filter, sampleBy, orderBy, limit, .. } =>
    { position := 0
      select := select.map SelectClause.erase
      source := eraseSource source
      givenName := givenName.map Ident.erase
      timestamp := timestamp.map Expr.erase
      latestBy := latestBy.map Expr.erase
      joins := eraseJoins joins
      filter := filter.map Expr.erase
      sampleBy := sampleBy.map Expr.erase
      orderBy := orderBy.map OrderItem.erase
      limit := limit.map Limit.erase }

/-- A source without positions. -/
def eraseSource : SourceOf Query → SourceOf Query
  | .table name => .table name.erase
  | .query q => .query q.erase

/-- A joined source without positions. -/
def eraseJoin : JoinOf Query → JoinOf Query
  | { kind, source, givenName, condition, .. } =>
    { kind
      position := 0
      source := eraseSource source
      givenName := givenName.map Ident.erase
      condition := condition.map JoinCondition.erase }

/-- Joined sources without positions. -/
def eraseJoins : List (JoinOf Query) → List (JoinOf Query)
  | [] => []
  | j :: joins => eraseJoin j :: eraseJoins joins

end

theorem eraseJoins_eq_map (joins : List (JoinOf Query)) : eraseJoins joins = joins.map eraseJoin := by
  induction joins with
  | nil => rfl
  | cons j joins ih => simp [eraseJoins, ih]

section Levels

variable {inner : Parser Query} (h : Forgets erase inner inner)

include h

theorem sourceParser_forgets : Forgets eraseSource (sourceParser inner) (sourceParser inner) := by
  refine bind needNext_forgets fun l => ?_
  obtain ⟨token, start, stop⟩ := l
  cases token with
  | leftParen =>
    refine bind (nested_forgets h) fun q => ?_
    exact bind (needToken_forgets _) fun _ => pure eraseSource (.query q)
  | ident name => exact pure eraseSource (.table ⟨name, start⟩)
  | _ => exact fail_forgets _ _

theorem join?_forgets : Forgets (Option.map eraseJoin) (join? inner) (join? inner) := by
  refine bind peek_forgets fun first => ?_
  cases first with
  | none => exact pure (Option.map eraseJoin) none
  | some first =>
    have hkind : joinKind? first.erase = joinKind? first := rfl
    cases hjoin : joinKind? first with
    | none =>
      simp only [Option.map_some, hkind, hjoin]
      exact pure (Option.map eraseJoin) none
    | some kind =>
      simp -zeta only [Option.map_some, hkind, hjoin]
      refine bind next_forgets fun _ => ?_
      extract_lets rest rest'
      have hrest : Forgets (Option.map eraseJoin) (rest ()) (rest' ()) := by
        refine bind (sourceParser_forgets h) fun source => ?_
        refine bind sourceAlias_forgets fun givenName => ?_
        refine bind (joinCondition_forgets kind) fun condition => ?_
        exact pure (Option.map eraseJoin) (some ⟨kind, first.start, source, givenName, condition⟩)
      exact Forgets.ite (bind (needWord_forgets _) fun _ => hrest) hrest

end Levels

theorem selectClause_forgets :
    Forgets (Option.map SelectClause.erase) selectClause selectClause := by
  refine bind peek_forgets fun l => ?_
  cases l with
  | none => exact pure (Option.map SelectClause.erase) none
  | some l =>
    refine Forgets.ite ?_ (pure (Option.map SelectClause.erase) none)
    exact bind next_forgets fun _ => SelectClause.parser_forgets _

theorem timestampClause_forgets :
    Forgets (Option.map Expr.erase) timestampClause timestampClause := by
  refine bind (takeWord_forgets _) fun taken => ?_
  refine Forgets.ite ?_ (pure (Option.map Expr.erase) none)
  refine bind (needToken_forgets _) fun _ => ?_
  refine bind Expr.parser_forgets fun column => ?_
  exact bind (needToken_forgets _) fun _ => pure (Option.map Expr.erase) (some column)

theorem latestByClause_forgets (source : SourceOf Query) :
    Forgets (List.map Expr.erase) (latestByClause source) (latestByClause (eraseSource source)) := by
  refine bind peek_forgets fun l => ?_
  cases l with
  | none => exact pure (List.map Expr.erase) []
  | some l =>
    refine Forgets.ite ?_ (pure (List.map Expr.erase) [])
    cases source with
    | table name =>
      refine bind next_forgets fun _ => ?_
      exact bind (needWord_forgets _) fun _ => Expr.listParser_forgets
    | query q => exact fail_forgets _ _

theorem whereClause_forgets : Forgets (Option.map Expr.erase) whereClause whereClause := by
  refine bind (takeWord_forgets _) fun taken => ?_
  refine Forgets.ite ?_ (pure (Option.map Expr.erase) none)
  exact bind Expr.parser_forgets fun e => pure (Option.map Expr.erase) (some e)

theorem sampleByClause_forgets :
    Forgets (Option.map Expr.erase) sampleByClause sampleByClause := by
  refine bind (takeWord_forgets _) fun taken => ?_
  refine Forgets.ite ?_ (pure (Option.map Expr.erase) none)
  refine bind (needWord_forgets _) fun _ => ?_
  exact bind needNext_forgets fun value =>
    pure (Option.map Expr.erase) (some (.constant value.text value.start))

theorem orderByClause_forgets :
    Forgets (List.map OrderItem.erase) orderByClause orderByClause := by
  refine bind (takeWord_forgets _) fun taken => ?_
  refine Forgets.ite ?_ (pure (List.map OrderItem.erase) [])
  exact bind (needWord_forgets _) fun _ => commaList_forgets (OrderItem.parser_forgets _)

theorem limitClause_forgets : Forgets (Option.map Limit.erase) limitClause limitClause := by
  refine bind (takeWord_forgets _) fun taken => ?_
  refine Forgets.ite ?_ (pure (Option.map Limit.erase) none)
  refine bind Expr.parser_forgets fun lo => ?_
  refine bind (accept_forgets _) fun more => ?_
  extract_lets rest rest'
  have hrest : ∀ hi, Forgets (Option.map Limit.erase) (rest hi) (rest' (hi.map Expr.erase)) :=
    fun hi => pure (Option.map Limit.erase) (some ⟨lo, hi⟩)
  refine Forgets.ite (bind ?_ hrest) (hrest none)
  exact Expr.parser_forgets.map fun _ => rfl

theorem around_forgets {inner : Parser Query} (h : Forgets erase inner inner) :
    Forgets erase (around inner) (around inner) := by
  refine bind position_forgets fun position => ?_
  refine bind selectClause_forgets fun select => ?_
  refine bind (sourceParser_forgets h) fun source => ?_
  refine bind sourceAlias_forgets fun givenName => ?_
  refine bind timestampClause_forgets fun timestamp => ?_
  refine bind (latestByClause_forgets source) fun latestBy => ?_
  refine bind (many_forgets (join?_forgets h)) fun joins => ?_
  refine bind whereClause_forgets fun filter => ?_
  refine bind sampleByClause_forgets fun sampleBy => ?_
  refine bind orderByClause_forgets fun orderBy => ?_
  refine bind limitClause_forgets fun limit => ?_
  rw [← eraseJoins_eq_map]
  exact pure erase { position, select, source, givenName, timestamp, latestBy, joins, filter,
                     sampleBy, orderBy, limit }

theorem deep_forgets (levels : Nat) : Forgets erase (deep levels) (deep levels) := by
  induction levels with
  | zero => exact bind position_forgets fun _ => fail_forgets _ _
  | succ levels ih => exact around_forgets ih

theorem parser_forgets : Forgets erase parser parser :=
  deep_forgets _

end Query

/-! ### Table declarations -/

/-- A declared column without positions. -/
def ColumnDeclaration.erase (d : ColumnDeclaration) : ColumnDeclaration :=
  ⟨d.name.erase, d.type, d.index⟩

/-- A declared index without positions. -/
def IndexDeclaration.erase (d : IndexDeclaration) : IndexDeclaration :=
  ⟨d.column.erase, d.spec⟩

/-- A table declaration without positions. -/
def TableDeclaration.erase (d : TableDeclaration) : TableDeclaration where
  name := d.name.erase
  columns := d.columns.map ColumnDeclaration.erase
  indexes := d.indexes.map IndexDeclaration.erase
  timestamp := d.timestamp.map Ident.erase
  partitionBy := d.partitionBy.map fun p => (p.1, 0)
  recordHint := d.recordHint

theorem needNumber_forgets : Forgets (Prod.map id Lexeme.erase) needNumber needNumber := by
  refine bind needNext_forgets fun l => ?_
  have htext : l.erase.text = l.text := rfl
  cases hn : Text.natBelow? UInt64.size l.text with
  | none =>
    simp only [htext, hn]
    exact fail_forgets _ _
  | some n =>
    simp only [htext, hn]
    exact pure (Prod.map id Lexeme.erase) (n, l)

theorem IndexSpec.parser_forgets : Forgets id IndexSpec.parser IndexSpec.parser := by
  refine bind (takeWord_forgets _) fun taken => ?_
  refine Forgets.ite ?_ (pure id _)
  refine bind (needWord_forgets _) fun _ => ?_
  refine bind needNumber_forgets fun size => ?_
  exact Forgets.ite (pure id _) (fail_forgets _ _)

theorem ColumnDeclaration.parser_forgets :
    Forgets ColumnDeclaration.erase ColumnDeclaration.parser ColumnDeclaration.parser := by
  refine bind needName_forgets fun name => ?_
  refine bind needNext_forgets fun l => ?_
  have htext : l.erase.text = l.text := rfl
  cases htype : ColumnType.ofName? l.text with
  | none =>
    simp only [htext, htype]
    exact fail_forgets _ _
  | some type =>
    simp -zeta only [htext, htype]
    refine bind (takeWord_forgets _) fun indexed => ?_
    extract_lets rest rest'
    have hrest : ∀ index, Forgets ColumnDeclaration.erase (rest index) (rest' (id index)) :=
      fun index => pure ColumnDeclaration.erase ⟨name, type, index⟩
    refine Forgets.ite (bind ?_ hrest) (hrest none)
    exact IndexSpec.parser_forgets.map fun _ => rfl

theorem IndexDeclaration.parser?_forgets :
    Forgets (Option.map IndexDeclaration.erase) IndexDeclaration.parser?
      IndexDeclaration.parser? := by
  refine bind (accept_forgets _) fun taken => ?_
  refine Forgets.ite ?_ (pure (Option.map IndexDeclaration.erase) none)
  refine bind (needWord_forgets _) fun _ => ?_
  refine bind (needToken_forgets _) fun _ => ?_
  refine bind needName_forgets fun column => ?_
  refine bind IndexSpec.parser_forgets fun spec => ?_
  exact bind (needToken_forgets _) fun _ =>
    pure (Option.map IndexDeclaration.erase) (some ⟨column, spec⟩)

namespace TableDeclaration

theorem timestampClause_forgets :
    Forgets (Option.map Ident.erase) timestampClause timestampClause := by
  refine bind (takeWord_forgets _) fun taken => ?_
  refine Forgets.ite ?_ (pure (Option.map Ident.erase) none)
  refine bind (needToken_forgets _) fun _ => ?_
  refine bind needName_forgets fun column => ?_
  exact bind (needToken_forgets _) fun _ => pure (Option.map Ident.erase) (some column)

theorem partitionClause_forgets :
    Forgets (Option.map fun p : Partition × Nat => (p.1, 0)) partitionClause partitionClause := by
  refine bind (takeWord_forgets _) fun taken => ?_
  refine Forgets.ite ?_ (pure (Option.map fun p : Partition × Nat => (p.1, 0)) none)
  refine bind (needWord_forgets _) fun _ => ?_
  refine bind needNext_forgets fun l => ?_
  have htext : l.erase.text = l.text := rfl
  cases hpartition : Partition.ofName? l.text with
  | none =>
    simp only [htext, hpartition]
    exact fail_forgets _ _
  | some partition =>
    simp only [htext, hpartition]
    exact pure (Option.map fun p : Partition × Nat => (p.1, 0)) (some (partition, l.start))

theorem recordHintClause_forgets : Forgets id recordHintClause recordHintClause := by
  refine bind (takeWord_forgets _) fun taken => ?_
  refine Forgets.ite ?_ (pure id none)
  refine bind (needWord_forgets _) fun _ => ?_
  exact bind needNumber_forgets fun n => pure id (some n.1)

theorem parser_forgets : Forgets erase parser parser := by
  refine bind needNext_forgets fun target => ?_
  extract_lets rest
  have hrest : Forgets erase (rest ()) (rest ()) := by
    refine bind needName_forgets fun name => ?_
    refine bind (needToken_forgets _) fun _ => ?_
    refine bind (listUntil_forgets ColumnDeclaration.parser_forgets) fun columns => ?_
    refine bind (many_forgets IndexDeclaration.parser?_forgets) fun indexes => ?_
    refine bind timestampClause_forgets fun timestamp => ?_
    refine bind partitionClause_forgets fun partitionBy => ?_
    refine bind recordHintClause_forgets fun recordHint => ?_
    exact pure erase { name, columns, indexes, timestamp, partitionBy, recordHint }
  exact Forgets.ite (bind (g := id) (fail_forgets _ _) fun _ => hrest) hrest

end TableDeclaration

/-! ### Statements -/

namespace Statement

/-- A statement without positions. -/
def erase : Statement → Statement
  | query q => query q.erase
  | createTable d => createTable d.erase

theorem bodyParser_forgets : Forgets erase bodyParser bodyParser := by
  refine bind (takeWord_forgets _) fun taken => Forgets.ite ?_ ?_
  · exact bind TableDeclaration.parser_forgets fun d => pure erase (.createTable d)
  · exact bind Query.parser_forgets fun q => pure erase (.query q)

theorem parser_forgets : Forgets erase parser parser := by
  refine bind bodyParser_forgets fun statement => ?_
  refine bind (accept_forgets _) fun _ => ?_
  refine bind next_forgets fun extra => ?_
  cases extra with
  | none => exact pure erase statement
  | some extra => exact fail_forgets _ _

end Statement

end SeriesQuery
