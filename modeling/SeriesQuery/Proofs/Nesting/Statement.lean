import SeriesQuery.Proofs.Nesting.Expr
import SeriesQuery.Proofs.Statement.Invariant

/-!
How deep a statement nests.

A query in parentheses is one level further down than the query that reads it, and the expressions of
a query are on its level (`Query.nesting`). A statement that is read nests no deeper than `maxNesting`,
and one is refused as nested too deep only where so many constructs are open and one more is opened;
no reader leaves the depth changed or goes back (`Statement.nesting_bounded`).
-/

namespace SeriesQuery

open SeriesQuery.Parser

/-! ### Expressions of a query -/

/-- The expressions of the window. -/
def Window.exprs (w : Window) : List Expr :=
  w.partitionBy ++ w.orderBy.map OrderItem.expr

/-- The expression of the item and those of its window. -/
def SelectItem.exprs (item : SelectItem) : List Expr :=
  item.expr :: item.window.toList.flatMap Window.exprs

/-- The condition, if it is an expression. -/
def JoinCondition.exprs : JoinCondition → List Expr
  | on condition => [condition]
  | columns _ => []

/-- The bounds of the limit. -/
def Limit.exprs (limit : Limit) : List Expr :=
  limit.lo :: limit.hi.toList

namespace Query

/-- The expressions of the query, without those of the queries in its sources. -/
def exprs (q : Query) : List Expr :=
  q.select.toList.flatMap (fun select => select.items.flatMap SelectItem.exprs) ++
    (q.timestamp.toList ++ (q.latestBy ++
      (q.joins.flatMap (fun j => j.condition.toList.flatMap JoinCondition.exprs) ++
        (q.filter.toList ++ (q.sampleBy.toList ++ (q.orderBy.map OrderItem.expr ++
          q.limit.toList.flatMap Limit.exprs))))))

mutual

/-- The most steps on a way down from the query into queries in parentheses and, in expressions,
into arguments, list items and operands of `not` and minus signs. -/
def nesting : Query → Nat
  | q@{ source, joins, .. } =>
    max ((q.exprs.map Expr.nesting).foldr max 0) (max (nestingOfSource source) (nestingOfJoins joins))

/-- The most steps on a way down through the source. -/
def nestingOfSource : SourceOf Query → Nat
  | .table _ => 0
  | .query q => q.nesting + 1

/-- The most steps on a way down through one of the joined sources. -/
def nestingOfJoins : List (JoinOf Query) → Nat
  | [] => 0
  | { source, .. } :: joins => max (nestingOfSource source) (nestingOfJoins joins)

end

theorem nestingOfJoins_le_iff {joins : List (JoinOf Query)} {n : Nat} :
    nestingOfJoins joins ≤ n ↔ ∀ j ∈ joins, nestingOfSource j.source ≤ n := by
  induction joins with
  | nil => simp [nestingOfJoins]
  | cons j joins ih =>
    obtain ⟨kind, position, source, givenName, condition⟩ := j
    rw [nestingOfJoins, Nat.max_le, ih, List.forall_mem_cons]

theorem foldr_max_le_iff {l : List Nat} {n : Nat} : l.foldr max 0 ≤ n ↔ ∀ m ∈ l, m ≤ n := by
  induction l with
  | nil => simp
  | cons m l ih => rw [List.foldr_cons, Nat.max_le, ih, List.forall_mem_cons]

theorem nesting_le_iff {q : Query} {n : Nat} :
    q.nesting ≤ n ↔ (∀ e ∈ q.exprs, e.nesting ≤ n) ∧ nestingOfSource q.source ≤ n ∧
      ∀ j ∈ q.joins, nestingOfSource j.source ≤ n := by
  obtain ⟨position, select, source, givenName, timestamp, latestBy, joins, filter, sampleBy, orderBy,
    limit⟩ := q
  rw [nesting, Nat.max_le, Nat.max_le, foldr_max_le_iff, List.forall_mem_map, nestingOfJoins_le_iff]

end Query

variable {depth : Nat} {P : Nat → Prop}

/-- All of the expressions fit where `depth` constructs are open. -/
def AllFit (depth : Nat) (es : List Expr) : Prop :=
  ∀ e ∈ es, e.Fits depth

theorem Window.MadeOf.allFit {w : Window} (h : w.MadeOf (Expr.Fits depth)) : AllFit depth w.exprs :=
  List.forall_mem_append.mpr ⟨h.partitionBy, List.forall_mem_map.mpr h.orderBy⟩

theorem SelectItem.MadeOf.allFit {item : SelectItem} (h : item.MadeOf P (Expr.Fits depth)) :
    AllFit depth item.exprs := by
  refine List.forall_mem_cons.mpr ⟨h.expr, List.forall_mem_flatMap.mpr fun w hw => ?_⟩
  exact (h.window w (Option.mem_toList.mp hw)).allFit

theorem JoinCondition.MadeOf.allFit {condition : JoinCondition}
    (h : condition.MadeOf P (Expr.Fits depth)) : AllFit depth condition.exprs := by
  cases condition with
  | on e => exact List.forall_mem_singleton.mpr h
  | columns names => exact List.forall_mem_nil _

theorem Limit.MadeOf.allFit {limit : Limit} (h : limit.MadeOf (Expr.Fits depth)) :
    AllFit depth limit.exprs :=
  List.forall_mem_cons.mpr ⟨h.lo, fun e he => h.hi e (Option.mem_toList.mp he)⟩

theorem Query.MadeOf.allFit {q : Query} {S : SourceOf Query → Prop}
    (h : q.MadeOf P (Expr.Fits depth) S) : AllFit depth q.exprs := by
  simp only [AllFit, exprs, List.forall_mem_append, List.forall_mem_flatMap, List.forall_mem_map,
    Option.mem_toList]
  exact ⟨fun select hselect item hitem => ((h.select select hselect).items item hitem).allFit,
    h.timestamp, h.latestBy, fun j hj on hon => ((h.joins j hj).condition on hon).allFit, h.filter,
    h.sampleBy, h.orderBy, fun limit hlimit => (h.limit limit hlimit).allFit⟩

/-! ### Parts that are read -/

variable {levels : Nat} {origin : Cursor}

/-- Expressions, the columns to order by and the intervals fit. -/
theorem Expr.kept_onward :
    Expr.Kept (Invariant.onward origin levels) (Expr.Fits origin.depth) where
  parser := Nests.iff_keeps.mp (Expr.parser_nests levels _) origin rfl
  column _ _ := Nat.zero_le _
  constant _ := Nat.zero_le _
  position _ := trivial

/-- The condition is read from where it begins, as a list of names or, back there, as an
expression. -/
theorem JoinCondition.parser_nests : (Invariant.onward origin levels).Keeps JoinCondition.parser
    (JoinCondition.MadeOf (Invariant.onward origin levels).Offset (Expr.Fits origin.depth)) := by
  intro c hc
  obtain ⟨names?, c₁, hnames, hsame⟩ := Answers.nameList? c
  have hhere : (MonadState.get : Parser Cursor) c = .ok c c := rfl
  refine .bind_of_ok hhere (.bind_of_ok hnames ?_)
  cases names? with
  | some names =>
    have hahead : (Invariant.onward origin levels).KeepsAt c nameList? _ := nameList?_keeps c hc
    unfold Invariant.KeepsAt at hahead
    rw [hnames] at hahead
    exact .pure hahead.1 (hahead.2 names rfl)
  | none =>
    have hback : reset c.index c₁ = .ok () c := by rw [reset, hsame.reset_index]
    refine .bind_of_ok hback ?_
    refine Invariant.Keeps.bind Expr.kept_onward.parser (fun e he => ?_) c hc
    exact .pure he

/-! ### Queries -/

namespace Query

/-- The query nests no deeper than may be nested where `depth` constructs are open. -/
def Fits (depth : Nat) (q : Query) : Prop :=
  q.nesting ≤ maxNesting - depth

/-- The source nests no deeper than may be nested where `depth` constructs are open. -/
def SourceFits (depth : Nat) (source : SourceOf Query) : Prop :=
  nestingOfSource source ≤ maxNesting - depth

theorem sourceParser_nests
    (h : Nests levels (origin.depth + 1) (deep levels) (Fits (origin.depth + 1))) :
    (Invariant.onward origin (levels + 1)).Keeps (sourceParser (deep levels))
      (SourceFits origin.depth) := by
  intro c hc
  refine .needNext_bind hc fun l ls hafter => ?_
  have hahead := hc.trans (.advance c)
  split
  · rename_i hl
    refine .bind (.nested hahead (hc.index_lt_advance hafter)
      (.query (Cursor.Onward.before_advance hafter) hl) (Nests.iff_keeps.mp h)
      fun _ _ _ hlevels hrun => .query hlevels hrun) fun q c₁ hc₁ hq => ?_
    refine Invariant.Keeps.bind (.needToken _) (fun _ _ => .pure ?_) c₁ hc₁
    obtain ⟨hdepth, hq⟩ := hq
    unfold Fits at hq
    rw [SourceFits, nestingOfSource]
    omega
  · exact .pure hahead (Nat.zero_le _)
  · exact .fail hahead trivial nofun

theorem MadeOf.fits {q : Query} (h : q.MadeOf P (Expr.Fits depth) (SourceFits depth)) :
    q.Fits depth :=
  nesting_le_iff.mpr ⟨h.allFit, h.source, fun j hj => (h.joins j hj).source⟩

theorem around_nests
    (h : Nests levels (origin.depth + 1) (deep levels) (Fits (origin.depth + 1))) :
    (Invariant.onward origin (levels + 1)).Keeps (around (deep levels)) (Fits origin.depth) := by
  have hparts := around_keeps Expr.kept_onward (sourceParser_nests h) JoinCondition.parser_nests
  exact hparts.mono fun _ => MadeOf.fits

theorem deep_nests (levels depth : Nat) : Nests levels depth (deep levels) (Fits depth) := by
  induction levels generalizing depth with
  | zero =>
    intro c hdepth
    refine ⟨.refl c, fun _ _ hle hlt => ?_⟩
    omega
  | succ levels ih =>
    refine Nests.iff_keeps.mpr ?_
    rintro origin rfl
    exact around_nests (ih _)

theorem parser_nests (levels depth : Nat) : Nests levels depth parser (Fits depth) :=
  (deep_nests _ depth).of_enough (Nat.lt_succ_self maxNesting)

end Query

/-! ### Statements -/

namespace Statement

/-- The most steps on a way down through the statement. -/
def nesting : Statement → Nat
  | query q => q.nesting
  | createTable _ => 0

/-- The statement nests no deeper than may be nested where `depth` constructs are open. -/
def Fits (depth : Nat) (s : Statement) : Prop :=
  s.nesting ≤ maxNesting - depth

theorem bodyParser_nests :
    (Invariant.onward origin levels).Keeps bodyParser (Fits origin.depth) := by
  have hquery := Nests.iff_keeps.mp (Query.parser_nests levels origin.depth) origin rfl
  have hnames : Ident.Kept (Invariant.onward origin levels) fun _ => True := fun _ _ _ _ => trivial
  exact bodyParser_keeps hquery (TableDeclaration.parser_keeps hnames) (fun _ hq => hq)
    fun _ _ => Nat.zero_le _

theorem parser_nests (levels depth : Nat) : Nests levels depth parser (Fits depth) := by
  refine Nests.iff_keeps.mpr ?_
  rintro origin rfl
  exact parser_keeps bodyParser_nests

end Statement

/-! ### Every reader -/

/-- The readers of statements and of their parts, on every level. -/
inductive Statement.Reader : {α : Type} → Parser α → Prop where
  | closing : Reader Grammar.needClosing
  | arguments (levels : Nat) : Reader (Grammar.arguments (Grammar.deep levels))
  | listItems (levels : Nat) : Reader (Grammar.listItems (Grammar.deep levels))
  | primary (levels : Nat) : Reader (Grammar.primary (Grammar.deep levels))
  | signed (levels : Nat) : Reader (Grammar.signed (Grammar.deep levels))
  | operand (levels : Nat) : Reader (Grammar.operand (Grammar.deep levels))
  | climb (levels strengths least : Nat) :
      Reader (Grammar.climb (Grammar.deep levels) strengths least)
  | deepExpr (levels least : Nat) : Reader ((Grammar.deep levels).expr least)
  | deepUnary (levels : Nat) : Reader (Grammar.deep levels).unary
  | expr : Reader Expr.parser
  | exprList : Reader Expr.listParser
  | name : Reader needName
  | orderItem {notAName : Fault} (h : ∀ limit, notAName ≠ .nestingTooDeep limit) :
      Reader (OrderItem.parser notAName)
  | sourceAlias : Reader sourceAlias
  | window : Reader Window.parser
  | columnAlias : Reader columnAlias
  | selectItem : Reader SelectItem.parser
  | selectItems (position : Nat) : Reader (SelectClause.parser position)
  | nameList : Reader nameList?
  | condition : Reader JoinCondition.parser
  | joinCondition (kind : JoinKind) : Reader (joinCondition kind)
  | source (levels : Nat) : Reader (Query.sourceParser (Query.deep levels))
  | join (levels : Nat) : Reader (Query.join? (Query.deep levels))
  | selectClause : Reader Query.selectClause
  | timestampClause : Reader Query.timestampClause
  | latestByClause (source : SourceOf Query) : Reader (Query.latestByClause source)
  | whereClause : Reader Query.whereClause
  | sampleByClause : Reader Query.sampleByClause
  | orderByClause : Reader Query.orderByClause
  | limitClause : Reader Query.limitClause
  | deepQuery (levels : Nat) : Reader (Query.deep levels)
  | query : Reader Query.parser
  | number : Reader needNumber
  | indexSpec : Reader IndexSpec.parser
  | columnDeclaration : Reader ColumnDeclaration.parser
  | indexDeclaration : Reader IndexDeclaration.parser?
  | tableTimestamp : Reader TableDeclaration.timestampClause
  | partitionClause : Reader TableDeclaration.partitionClause
  | recordHintClause : Reader TableDeclaration.recordHintClause
  | tableDeclaration : Reader TableDeclaration.parser
  | body : Reader Statement.bodyParser
  | statement : Reader Statement.parser

/-- Every reader keeps the invariant of every cursor. -/
theorem Statement.Reader.keeps {α : Type} {p : Parser α} (h : Reader p) (origin : Cursor) :
    ∃ levels R, (Invariant.onward origin levels).Keeps p R := by
  have hgrammar : ∀ levels, Grammar.NestsAt levels (origin.depth + 1) :=
    fun levels => Grammar.deep_nests levels _
  have hquery : ∀ levels, Nests levels (origin.depth + 1) (Query.deep levels) (Query.Fits _) :=
    fun levels => Query.deep_nests levels _
  have hexpr : Expr.Kept (Invariant.onward origin 0) _ := Expr.kept_onward
  have hnames : Ident.Kept (Invariant.onward origin 0) fun _ => True := fun _ _ _ _ => trivial
  cases h with
  | closing => exact ⟨0, _, Grammar.needClosing_keeps⟩
  | arguments levels =>
    exact ⟨_, _, Grammar.arguments_keeps ((Grammar.deep_nests levels _).keeps_expr rfl 1)⟩
  | listItems levels => exact ⟨_, _, Grammar.listItems_nests (hgrammar levels)⟩
  | primary levels => exact ⟨_, _, Grammar.primary_nests (hgrammar levels)⟩
  | signed levels => exact ⟨_, _, Grammar.signed_nests (hgrammar levels)⟩
  | operand levels => exact ⟨_, _, Grammar.operand_nests (hgrammar levels)⟩
  | climb levels strengths least =>
    exact ⟨_, _, Grammar.climb_keeps (Grammar.operates_nests (hgrammar levels)) strengths least⟩
  | deepExpr levels least => exact ⟨_, _, (Grammar.deep_nests levels _).keeps_expr rfl least⟩
  | deepUnary levels => exact ⟨_, _, (Grammar.deep_nests levels _).keeps_unary rfl⟩
  | expr => exact ⟨_, _, hexpr.parser⟩
  | exprList => exact ⟨_, _, hexpr.listParser⟩
  | name => exact ⟨_, _, needName_keeps hnames⟩
  | orderItem h =>
    exact ⟨_, _, OrderItem.parser_keeps (fun _ hc => Invariant.fail _ hc trivial h) hexpr.column⟩
  | sourceAlias => exact ⟨0, _, sourceAlias_keeps⟩
  | window => exact ⟨_, _, Window.parser_keeps hexpr⟩
  | columnAlias => exact ⟨0, _, columnAlias_keeps⟩
  | selectItem => exact ⟨_, _, SelectItem.parser_keeps hexpr⟩
  | selectItems position => exact ⟨_, _, SelectClause.parser_keeps hexpr trivial⟩
  | nameList => exact ⟨0, _, nameList?_keeps⟩
  | condition => exact ⟨0, _, JoinCondition.parser_nests⟩
  | joinCondition kind => exact ⟨0, _, joinCondition_keeps JoinCondition.parser_nests kind⟩
  | source levels => exact ⟨_, _, Query.sourceParser_nests (hquery levels)⟩
  | join levels =>
    exact ⟨_, _, Query.join?_keeps (Query.sourceParser_nests (hquery levels))
      JoinCondition.parser_nests⟩
  | selectClause => exact ⟨_, _, Query.selectClause_keeps hexpr⟩
  | timestampClause => exact ⟨_, _, Query.timestampClause_keeps hexpr⟩
  | latestByClause source => exact ⟨_, _, Query.latestByClause_keeps hexpr source⟩
  | whereClause => exact ⟨_, _, Query.whereClause_keeps hexpr⟩
  | sampleByClause => exact ⟨_, _, Query.sampleByClause_keeps hexpr.constant⟩
  | orderByClause => exact ⟨_, _, Query.orderByClause_keeps hexpr⟩
  | limitClause => exact ⟨_, _, Query.limitClause_keeps hexpr⟩
  | deepQuery levels => exact ⟨_, _, Nests.iff_keeps.mp (Query.deep_nests levels _) origin rfl⟩
  | query => exact ⟨_, _, Nests.iff_keeps.mp (Query.parser_nests 0 _) origin rfl⟩
  | number => exact ⟨0, _, needNumber_keeps⟩
  | indexSpec => exact ⟨0, _, IndexSpec.parser_keeps⟩
  | columnDeclaration => exact ⟨_, _, ColumnDeclaration.parser_keeps hnames⟩
  | indexDeclaration => exact ⟨_, _, IndexDeclaration.parser?_keeps hnames⟩
  | tableTimestamp => exact ⟨_, _, TableDeclaration.timestampClause_keeps hnames⟩
  | partitionClause => exact ⟨0, _, TableDeclaration.partitionClause_keeps⟩
  | recordHintClause => exact ⟨0, _, TableDeclaration.recordHintClause_keeps⟩
  | tableDeclaration => exact ⟨_, _, TableDeclaration.parser_keeps hnames⟩
  | body => exact ⟨0, _, Statement.bodyParser_nests⟩
  | statement => exact ⟨0, _, Nests.iff_keeps.mp (Statement.parser_nests 0 _) origin rfl⟩

theorem Statement.Reader.onward {α : Type} {p : Parser α} (h : Reader p) (c : Cursor) :
    c.Onward (p.leaves c) := by
  obtain ⟨levels, R, hkeeps⟩ := h.keeps c
  exact (NestsFrom.iff_keepsAt.mpr (hkeeps c (.refl c))).onward

/-! ### The bound -/

/-- What is said where no token starts is not that anything nests too deep. -/
theorem Lexer.fault_ne_nestingTooDeep (position : Nat) (cs : List Char) (limit : Nat) :
    (fault position cs).fault ≠ .nestingTooDeep limit := by
  unfold fault
  split
  · nofun
  · nofun
  · nofun
  · split <;> nofun

theorem Lexer.lexFrom_ne_nestingTooDeep {position : Nat} {cs : List Char} {e : SqlError}
    (h : lexFrom position cs = .error e) (limit : Nat) : e.fault ≠ .nestingTooDeep limit := by
  fun_induction lexFrom position cs generalizing e with
  | case1 => cases h
  | case2 =>
    cases h
    exact fault_ne_nestingTooDeep _ _ limit
  | case3 =>
    rename_i hothers ih
    cases h
    exact ih hothers
  | case4 => cases h

theorem Cursor.depth_ofText {sql : String} {c : Cursor} (h : ofText sql = .ok c) : c.depth = 0 := by
  unfold ofText at h
  split at h
  · cases h
    rfl
  · cases h

theorem Cursor.ofText_ne_nestingTooDeep {sql : String} {e : SqlError} (h : ofText sql = .error e)
    (limit : Nat) : e.fault ≠ .nestingTooDeep limit := by
  unfold ofText at h
  split at h
  · cases h
  · rename_i hlex
    cases h
    exact Lexer.lexFrom_ne_nestingTooDeep hlex limit

/-- What a text is read as nests no deeper than may be nested, or it is refused where so many
constructs are open. -/
theorem Statement.nests_ofText (sql : String) :
    match ofText sql with
    | .ok s => s.nesting ≤ maxNesting
    | .error e => ∀ limit, e.fault = .nestingTooDeep limit →
        limit = maxNesting ∧ ∃ c, Cursor.ofText sql = .ok c ∧ c.depth = 0 ∧
          Refused e maxNesting c := by
  unfold ofText
  cases hcursor : Cursor.ofText sql with
  | error e => exact fun limit hfault => absurd hfault (Cursor.ofText_ne_nestingTooDeep hcursor limit)
  | ok c =>
    have hdepth := Cursor.depth_ofText hcursor
    have hrun := parser_nests (maxNesting + 1) 0 c hdepth
    unfold NestsFrom at hrun
    simp only
    cases hread : parser c with
    | ok s c' =>
      rw [hread] at hrun
      exact hrun.2
    | error e c' =>
      rw [hread, hdepth] at hrun
      intro limit hfault
      obtain ⟨hlimit, hrefused⟩ := hrun.2 limit hfault (Nat.zero_le _) (Nat.lt_succ_self _)
      exact ⟨hlimit, c, rfl, hdepth, hrefused⟩

/-- **Nesting is bounded.** A statement that is read nests no deeper than `maxNesting`; one is refused
as nested too deep only with `maxNesting` constructs open, where one more is opened; and every reader
leaves as many constructs open as it has found, at the same place or further on. -/
theorem Statement.nesting_bounded (sql : String) :
    (∀ s, ofText sql = .ok s → s.nesting ≤ maxNesting) ∧
      (∀ e limit, ofText sql = .error e → e.fault = .nestingTooDeep limit →
        limit = maxNesting ∧ ∃ c, Cursor.ofText sql = .ok c ∧ c.depth = 0 ∧
          Refused e maxNesting c) ∧
      ∀ {α : Type} {p : Parser α}, Reader p → ∀ c : Cursor,
        c.Onward (p.leaves c) ∧ (p.leaves c).index ≤ c.before.length + c.after.length := by
  have hread := nests_ofText sql
  refine ⟨fun s h => ?_, fun e limit h hfault => ?_, fun hp c => ⟨hp.onward c, ?_⟩⟩
  · rw [h] at hread
    exact hread
  · rw [h] at hread
    exact hread limit hfault
  · simpa using (hp.onward c).index_le

/-- A condition that is a name behind so many minus signs. -/
def Statement.behindSigns (signs : Nat) : String :=
  "t where " ++ String.join (List.replicate signs "- ") ++ "x"

/-- As many signs as may be nested are read, and one more is refused. -/
theorem Statement.nesting_bounded_signs :
    (∃ s, ofText (behindSigns 64) = .ok s ∧ s.nesting = 64 ∧ s.nesting ≤ maxNesting) ∧
      ∃ e c, ofText (behindSigns 65) = .error e ∧ e.fault = .nestingTooDeep 64 ∧
        Cursor.ofText (behindSigns 65) = .ok c ∧ Refused e maxNesting c ∧
          c.Onward (parser.leaves c) ∧
            (parser.leaves c).index ≤ c.before.length + c.after.length := by
  have hread : ((ofText (behindSigns 64)).map nesting).toOption = some 64 := by decide +kernel
  have hrefused : (match ofText (behindSigns 65) with
      | .ok _ => none
      | .error e => some e.fault) = some (.nestingTooDeep 64) := by decide +kernel
  constructor
  · cases h : ofText (behindSigns 64) with
    | error e =>
      rw [h] at hread
      cases hread
    | ok s =>
      rw [h] at hread
      exact ⟨s, rfl, Option.some.inj hread, (nesting_bounded _).1 s h⟩
  · cases h : ofText (behindSigns 65) with
    | ok s =>
      rw [h] at hrefused
      cases hrefused
    | error e =>
      rw [h] at hrefused
      have hfault := Option.some.inj hrefused
      obtain ⟨-, c, hcursor, -, hopen⟩ := (nesting_bounded _).2.1 e 64 h hfault
      exact ⟨e, c, rfl, hfault, hcursor, hopen, (nesting_bounded "").2.2 .statement c⟩

end SeriesQuery
