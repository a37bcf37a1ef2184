import SeriesQuery.Proofs.Expr.Invariant
import SeriesQuery.Proofs.TableDefinition.Checked
import SeriesQuery.Statement.Parser

/-!
What is kept while a statement is read.

The readers of a statement put together names, expressions and sources. Whatever invariant these keep,
the readers keep it, and what is known of the parts is known of all parts that a query is made of
(`Query.MadeOf`, `Query.around_keeps`); a declaration is made of names and of numbers that fit
(`TableDeclaration.MadeOf`, `TableDeclaration.parser_keeps`).
-/

namespace SeriesQuery

open SeriesQuery.Parser

/-! ### What a query is made of -/

/-- A name that is given, or none. -/
def GivenAt (P : Nat → Prop) (given : Option Ident) : Prop :=
  ∀ name ∈ given, P name.position

theorem GivenAt.some {P : Nat → Prop} {text : String} {position : Nat} (h : P position) :
    GivenAt P (some ⟨text, position⟩) := by
  rintro name ⟨⟩
  exact h

theorem GivenAt.none {P : Nat → Prop} : GivenAt P none := by
  rintro name ⟨⟩

/-- `E` holds of the expressions of the window. -/
structure Window.MadeOf (E : Expr → Prop) (w : Window) : Prop where
  partitionBy : ∀ e ∈ w.partitionBy, E e
  orderBy : ∀ item ∈ w.orderBy, E item.expr

/-- `E` holds of the expressions of the item, and the name that it is given is at an offset of `P`. -/
structure SelectItem.MadeOf (P : Nat → Prop) (E : Expr → Prop) (item : SelectItem) : Prop where
  expr : E item.expr
  givenName : GivenAt P item.givenName
  window : ∀ w ∈ item.window, w.MadeOf E

/-- The select list and its items are made of such parts. -/
structure SelectClause.MadeOf (P : Nat → Prop) (E : Expr → Prop) (select : SelectClause) : Prop where
  position : P select.position
  items : ∀ item ∈ select.items, item.MadeOf P E

/-- `E` holds of the condition, or its columns are named at offsets of `P`. -/
def JoinCondition.MadeOf (P : Nat → Prop) (E : Expr → Prop) : JoinCondition → Prop
  | on condition => E condition
  | columns names => ∀ name ∈ names, P name.position

/-- The join is made of such parts, and `S` holds of its source. -/
structure JoinOf.MadeOf (P : Nat → Prop) (E : Expr → Prop) (S : SourceOf Query → Prop)
    (j : JoinOf Query) : Prop where
  source : S j.source
  givenName : GivenAt P j.givenName
  condition : ∀ condition ∈ j.condition, condition.MadeOf P E

/-- `E` holds of the bounds of the limit. -/
structure Limit.MadeOf (E : Expr → Prop) (limit : Limit) : Prop where
  lo : E limit.lo
  hi : ∀ e ∈ limit.hi, E e

/-- One level of a query is made of names at offsets of `P`, expressions of which `E` holds and sources
of which `S` holds. -/
structure Query.MadeOf (P : Nat → Prop) (E : Expr → Prop) (S : SourceOf Query → Prop) (q : Query) :
    Prop where
  select : ∀ select ∈ q.select, select.MadeOf P E
  source : S q.source
  givenName : GivenAt P q.givenName
  timestamp : ∀ e ∈ q.timestamp, E e
  latestBy : ∀ e ∈ q.latestBy, E e
  joins : ∀ j ∈ q.joins, j.MadeOf P E S
  filter : ∀ e ∈ q.filter, E e
  sampleBy : ∀ e ∈ q.sampleBy, E e
  orderBy : ∀ item ∈ q.orderBy, E item.expr
  limit : ∀ limit ∈ q.limit, limit.MadeOf E

/-- `E` holds of the expressions that are read under the invariant, of the column that a word names and
of the constant that a lexeme writes, and it tells them to be at an offset. -/
structure Expr.Kept (I : Parser.Invariant) (E : Expr → Prop) : Prop where
  parser : I.Keeps Expr.parser E
  column : ∀ {l text}, I.Meets l → l.token = .ident text → E (.column (.ofText text) l.start)
  constant : ∀ {l}, I.Meets l → E (.constant l.text l.start)
  position : ∀ {e}, E e → I.Offset e.position

variable {I : Parser.Invariant} {E : Expr → Prop}

theorem Expr.Kept.listParser (hE : Expr.Kept I E) : I.Keeps Expr.listParser fun es => ∀ e ∈ es, E e :=
  .commaList hE.parser

/-! ### Parts of a query -/

theorem OrderItem.parser_keeps {notAName : Fault}
    (hfail : ∀ {position c}, I.Offset position → I.Sound c → I.Fails ⟨position, notAName⟩ c)
    (hcolumn : ∀ {l text}, I.Meets l → l.token = .ident text → E (.column (.ofText text) l.start)) :
    I.Keeps (OrderItem.parser notAName) fun item => E item.expr := by
  apply Invariant.Keeps.bind .needNext
  intro l hl
  split
  · rename_i text htoken
    have he := hcolumn hl htoken
    apply Invariant.Keeps.bind (.takeWord _)
    intro descending _
    split
    · exact .pure he
    · exact .bind (.takeWord _) fun _ _ => .pure he
  · exact fun c hc => hfail (I.start hl) hc

theorem sourceAlias_keeps : I.Keeps sourceAlias (GivenAt I.Offset) := by
  apply Invariant.Keeps.bind .peek
  intro l? hl
  cases l? with
  | none => exact .pure .none
  | some l =>
    have hstart := I.start (hl l rfl)
    dsimp only
    split
    · split
      · exact .pure .none
      · split
        · exact .fail hstart nofun
        · exact .bind .next fun _ _ => .pure (.some hstart)
    · exact .bind .next fun _ _ => .pure (.some hstart)
    · exact .pure .none

theorem Window.parser_keeps (hE : Expr.Kept I E) : I.Keeps Window.parser (Window.MadeOf E) := by
  apply Invariant.Keeps.bind (.needToken _)
  intro _ _
  apply Invariant.Keeps.bind (.takeWord _)
  intro partitioned _
  extract_lets rest
  have hrest : ∀ es, (∀ e ∈ es, E e) → I.Keeps (rest es) (Window.MadeOf E) := by
    intro es hes
    apply Invariant.Keeps.bind (.takeWord _)
    intro ordered _
    extract_lets close
    have hclose : ∀ items, (∀ item ∈ items, E item.expr) →
        I.Keeps (close items) (Window.MadeOf E) := by
      intro items hitems
      exact .bind (.needToken _) fun _ _ => .pure ⟨hes, hitems⟩
    split
    · apply Invariant.Keeps.bind (.needWord _)
      intro _ _
      refine .bind (.commaList (OrderItem.parser_keeps (fun hp hc => ?_) hE.column)) hclose
      exact I.fail hc hp nofun
    · exact hclose [] (List.forall_mem_nil _)
  split
  · apply Invariant.Keeps.bind (.needWord _)
    intro _ _
    exact .bind hE.listParser hrest
  · exact hrest [] (List.forall_mem_nil _)

theorem columnAlias_keeps : I.Keeps columnAlias (GivenAt I.Offset) := by
  apply Invariant.Keeps.bind (.takeWord _)
  intro isExplicit _
  apply Invariant.Keeps.bind .peek
  intro l? hl
  cases l? with
  | none =>
    dsimp only
    split
    · exact .bind .get fun c hc => .fail (I.endPosition hc) nofun
    · exact .pure .none
  | some l =>
    have hstart := I.start (hl l rfl)
    dsimp only
    split
    · apply Invariant.Keeps.bind .next
      intro _ _
      split
      · split
        · exact .fail hstart nofun
        · exact .pure (.some hstart)
      · exact .pure (.some hstart)
      · exact .fail hstart nofun
    · exact .pure .none

theorem SelectItem.parser_keeps (hE : Expr.Kept I E) :
    I.Keeps SelectItem.parser (SelectItem.MadeOf I.Offset E) := by
  apply Invariant.Keeps.bind hE.parser
  intro e he
  apply Invariant.Keeps.bind columnAlias_keeps
  intro given hgiven
  apply Invariant.Keeps.bind (.takeWord _)
  intro windowed _
  split
  · split
    · apply Invariant.Keeps.bind (Window.parser_keeps hE)
      intro w hw
      exact .pure ⟨he, hgiven, fun _ hmem => Option.mem_some.mp hmem ▸ hw⟩
    · exact .fail (hE.position he) nofun
  · exact .pure ⟨he, hgiven, fun _ hmem => by cases hmem⟩

theorem SelectClause.parser_keeps (hE : Expr.Kept I E) {position : Nat} (hp : I.Offset position) :
    I.Keeps (SelectClause.parser position)
      fun select? => ∀ select ∈ select?, select.MadeOf I.Offset E := by
  apply Invariant.Keeps.bind .peek
  intro l? hl
  cases l? with
  | none => exact .bind .position fun _ hposition => .fail hposition nofun
  | some l =>
    dsimp only
    split
    · exact .fail (I.start (hl l rfl)) nofun
    · split
      · apply Invariant.Keeps.bind .next
        intro _ _
        exact .bind (.needWord _) fun _ _ => .unlisted
      · apply Invariant.Keeps.bind (.listUntil _ _ (SelectItem.parser_keeps hE))
        intro items hitems
        exact .pure fun select hselect => Option.mem_some.mp hselect ▸ ⟨hp, hitems.2⟩

/-! ### Joins -/

theorem nameList?_names_keeps {N : Ident → Prop}
    (hN : ∀ {text start stop}, I.Meets ⟨.ident text, start, stop⟩ → N ⟨text, start⟩) (rounds : Nat) :
    I.Keeps (nameList?.names rounds) fun names? => ∀ names ∈ names?, ∀ name ∈ names, N name := by
  induction rounds with
  | zero => exact .unlisted
  | succ rounds ih =>
    apply Invariant.Keeps.bind .next
    intro l? hl
    split
    · rename_i text start stop
      have hname : N ⟨text, start⟩ := hN (hl _ rfl)
      split
      · exact .unlisted
      · apply Invariant.Keeps.bind .next
        intro _ _
        split
        · apply Invariant.Keeps.bind ih
          intro names? hnames
          refine .pure fun names hmem => ?_
          obtain ⟨rest, hrest, rfl⟩ := Option.map_eq_some_iff.mp (Option.mem_def.mp hmem)
          exact List.forall_mem_cons.mpr ⟨hname, hnames rest hrest⟩
        · refine .pure fun names hmem => ?_
          obtain rfl := Option.mem_some.mp hmem
          exact List.forall_mem_singleton.mpr hname
        · exact .unlisted
    · exact .unlisted

/-- What holds of the words in front of the cursor holds of the names of a list. -/
theorem nameList?_keeps_words {N : Ident → Prop}
    (hN : ∀ {text start stop}, I.Meets ⟨.ident text, start, stop⟩ → N ⟨text, start⟩) :
    I.Keeps nameList? fun names? => ∀ names ∈ names?, ∀ name ∈ names, N name := by
  apply Invariant.Keeps.bind (.accept _)
  intro opened _
  split
  · exact .bind .get fun c _ => nameList?_names_keeps hN _
  · exact .unlisted

theorem nameList?_keeps :
    I.Keeps nameList? fun names? => ∀ names ∈ names?, ∀ name ∈ names, I.Offset name.position :=
  nameList?_keeps_words I.start

/-- The condition of a join, whatever goes back to its start. -/
theorem joinCondition_keeps
    (hcondition : I.Keeps JoinCondition.parser (JoinCondition.MadeOf I.Offset E)) (kind : JoinKind) :
    I.Keeps (joinCondition kind)
      fun condition? => ∀ condition ∈ condition?, condition.MadeOf I.Offset E := by
  have hfail : ∀ {fault : Fault}, (∀ limit, fault ≠ .nestingTooDeep limit) →
      I.Keeps (do fail (← position) fault) fun condition? : Option JoinCondition =>
        ∀ condition ∈ condition?, condition.MadeOf I.Offset E :=
    fun h => .bind .position fun _ hp => .fail hp h
  have hread : I.Keeps (do let _ ← next; return some (← JoinCondition.parser))
      fun condition? => ∀ condition ∈ condition?, condition.MadeOf I.Offset E :=
    .bind .next fun _ _ => .listed hcondition
  apply Invariant.Keeps.bind .peek
  intro l? _
  cases kind with
  | cross =>
    dsimp only
    split
    · exact hfail nofun
    · exact .unlisted
  | inner | outer =>
    dsimp only
    split
    · exact hread
    · exact hfail nofun
  | asof | splice =>
    dsimp only
    split
    · exact hread
    · exact .unlisted

/-! ### Queries -/

namespace Query

variable {inner : Parser Query} {S : SourceOf Query → Prop}

theorem join?_keeps (hsource : I.Keeps (sourceParser inner) S)
    (hcondition : I.Keeps JoinCondition.parser (JoinCondition.MadeOf I.Offset E)) :
    I.Keeps (join? inner) fun j? => ∀ j ∈ j?, j.MadeOf I.Offset E S := by
  apply Invariant.Keeps.bind .peek
  intro l? _
  cases l? with
  | none => exact .unlisted
  | some first =>
    dsimp -zeta only
    split
    · exact .unlisted
    · apply Invariant.Keeps.bind .next
      intro _ _
      extract_lets rest
      have hrest : ∀ u, I.Keeps (rest u) fun j? => ∀ j ∈ j?, j.MadeOf I.Offset E S := by
        intro _
        apply Invariant.Keeps.bind hsource
        intro source hsource
        apply Invariant.Keeps.bind sourceAlias_keeps
        intro given hgiven
        apply Invariant.Keeps.bind (joinCondition_keeps hcondition _)
        intro condition hcondition
        exact .pure fun j hj => Option.mem_some.mp hj ▸ ⟨hsource, hgiven, hcondition⟩
      split
      · exact .bind (.needWord _) fun _ _ => hrest ()
      · exact hrest ()

theorem selectClause_keeps (hE : Expr.Kept I E) :
    I.Keeps selectClause fun select? => ∀ select ∈ select?, select.MadeOf I.Offset E := by
  apply Invariant.Keeps.bind .peek
  intro l? hl
  cases l? with
  | none => exact .unlisted
  | some l =>
    dsimp only
    split
    · exact .bind .next fun _ _ => SelectClause.parser_keeps hE (I.start (hl l rfl))
    · exact .unlisted

theorem timestampClause_keeps (hE : Expr.Kept I E) :
    I.Keeps timestampClause fun column? => ∀ e ∈ column?, E e := by
  apply Invariant.Keeps.bind (.takeWord _)
  intro taken _
  split
  · apply Invariant.Keeps.bind (.needToken _)
    intro _ _
    apply Invariant.Keeps.bind hE.parser
    intro e he
    exact .bind (.needToken _) fun _ _ => .pure fun e' he' => Option.mem_some.mp he' ▸ he
  · exact .unlisted

theorem latestByClause_keeps (hE : Expr.Kept I E) (source : SourceOf Query) :
    I.Keeps (latestByClause source) fun columns => ∀ e ∈ columns, E e := by
  apply Invariant.Keeps.bind .peek
  intro l? hl
  cases l? with
  | none => exact .pure (List.forall_mem_nil _)
  | some l =>
    dsimp only
    split
    · cases source with
      | query q => exact .fail (I.start (hl l rfl)) nofun
      | table name =>
        apply Invariant.Keeps.bind .next
        intro _ _
        exact .bind (.needWord _) fun _ _ => hE.listParser
    · exact .pure (List.forall_mem_nil _)

theorem whereClause_keeps (hE : Expr.Kept I E) :
    I.Keeps whereClause fun condition? => ∀ e ∈ condition?, E e := by
  apply Invariant.Keeps.bind (.takeWord _)
  intro taken _
  split
  · exact .listed hE.parser
  · exact .unlisted

theorem sampleByClause_keeps (hconstant : ∀ {l}, I.Meets l → E (.constant l.text l.start)) :
    I.Keeps sampleByClause fun interval? => ∀ e ∈ interval?, E e := by
  apply Invariant.Keeps.bind (.takeWord _)
  intro taken _
  split
  · apply Invariant.Keeps.bind (.needWord _)
    intro _ _
    apply Invariant.Keeps.bind .needNext
    intro l hl
    exact .pure fun e he => Option.mem_some.mp he ▸ hconstant hl
  · exact .unlisted

theorem orderByClause_keeps (hE : Expr.Kept I E) :
    I.Keeps orderByClause fun items => ∀ item ∈ items, E item.expr := by
  apply Invariant.Keeps.bind (.takeWord _)
  intro taken _
  split
  · apply Invariant.Keeps.bind (.needWord _)
    intro _ _
    exact .commaList (OrderItem.parser_keeps (fun hp hc => I.fail hc hp nofun) hE.column)
  · exact .pure (List.forall_mem_nil _)

theorem limitClause_keeps (hE : Expr.Kept I E) :
    I.Keeps limitClause fun limit? => ∀ limit ∈ limit?, limit.MadeOf E := by
  have hlimit : ∀ {lo : Expr} {hi : Option Expr}, E lo → (∀ e ∈ hi, E e) →
      ∀ limit ∈ some (Limit.mk lo hi), limit.MadeOf E :=
    fun hlo hhi _ hmem => Option.mem_some.mp hmem ▸ ⟨hlo, hhi⟩
  apply Invariant.Keeps.bind (.takeWord _)
  intro taken _
  split
  · apply Invariant.Keeps.bind hE.parser
    intro lo hlo
    apply Invariant.Keeps.bind (.accept _)
    intro both _
    split
    · refine .bind (.map hE.parser fun e he => ?_) fun hi hhi => .pure (hlimit hlo hhi)
      exact fun e' he' => Option.mem_some.mp he' ▸ he
    · exact .bind .unlisted fun hi hhi => .pure (hlimit hlo hhi)
  · exact .unlisted

/-- A query is made of the parts that are read. -/
theorem around_keeps (hE : Expr.Kept I E) (hsource : I.Keeps (sourceParser inner) S)
    (hcondition : I.Keeps JoinCondition.parser (JoinCondition.MadeOf I.Offset E)) :
    I.Keeps (around inner) (MadeOf I.Offset E S) := by
  apply Invariant.Keeps.bind .position
  intro position _
  apply Invariant.Keeps.bind (selectClause_keeps hE)
  intro select hselect
  apply Invariant.Keeps.bind hsource
  intro source hsource'
  apply Invariant.Keeps.bind sourceAlias_keeps
  intro given hgiven
  apply Invariant.Keeps.bind (timestampClause_keeps hE)
  intro timestamp htimestamp
  apply Invariant.Keeps.bind (latestByClause_keeps hE _)
  intro latestBy hlatestBy
  apply Invariant.Keeps.bind (.many (join?_keeps hsource hcondition))
  intro joins hjoins
  apply Invariant.Keeps.bind (whereClause_keeps hE)
  intro filter hfilter
  apply Invariant.Keeps.bind (sampleByClause_keeps hE.constant)
  intro sampleBy hsampleBy
  apply Invariant.Keeps.bind (orderByClause_keeps hE)
  intro orderBy horderBy
  apply Invariant.Keeps.bind (limitClause_keeps hE)
  intro limit hlimit
  exact .pure ⟨hselect, hsource', hgiven, htimestamp, hlatestBy, hjoins, hfilter, hsampleBy, horderBy,
    hlimit⟩

end Query

/-! ### Table declarations -/

/-- `N` holds of the names of the declaration, and its numbers fit. -/
structure TableDeclaration.MadeOf (N : Ident → Prop) (d : TableDeclaration) : Prop where
  name : N d.name
  nonempty : d.columns ≠ []
  columns : ∀ column ∈ d.columns, N column.name ∧ ∀ spec ∈ column.index, spec.Fits
  indexes : ∀ index ∈ d.indexes, N index.column ∧ index.spec.Fits
  timestamp : ∀ name ∈ d.timestamp, N name
  recordHint : ∀ n ∈ d.recordHint, n < UInt64.size

section Declarations

/-- `N` holds of the name that a word in front of the cursor is. -/
def Ident.Kept (I : Parser.Invariant) (N : Ident → Prop) : Prop :=
  ∀ l text, I.Meets l → l.token = .ident text → N ⟨text, l.start⟩

variable {N : Ident → Prop}

theorem needName_keeps (hN : Ident.Kept I N) : I.Keeps needName N := by
  apply Invariant.Keeps.bind .needNext
  intro l hl
  split
  · rename_i htoken
    exact .pure (hN l _ hl htoken)
  · exact .fail (I.start hl) nofun

theorem needNumber_keeps :
    I.Keeps needNumber fun number => number.1 < UInt64.size ∧ I.Offset number.2.start := by
  apply Invariant.Keeps.bind .needNext
  intro l hl
  split
  · rename_i hvalue
    exact .pure ⟨Text.lt_of_natBelow? hvalue, I.start hl⟩
  · exact .fail (I.start hl) nofun

theorem IndexSpec.parser_keeps : I.Keeps IndexSpec.parser IndexSpec.Fits := by
  apply Invariant.Keeps.bind (.takeWord _)
  intro taken _
  split
  · apply Invariant.Keeps.bind (.needWord _)
    intro _ _
    apply Invariant.Keeps.bind needNumber_keeps
    rintro ⟨size, l⟩ ⟨-, hl⟩
    dsimp only
    split
    · rename_i hsize
      exact .pure fun n hn => Option.mem_some.mp hn ▸ hsize
    · exact .fail hl nofun
  · exact .pure nofun

theorem ColumnDeclaration.parser_keeps (hN : Ident.Kept I N) :
    I.Keeps ColumnDeclaration.parser
      fun column => N column.name ∧ ∀ spec ∈ column.index, spec.Fits := by
  apply Invariant.Keeps.bind (needName_keeps hN)
  intro name hname
  apply Invariant.Keeps.bind .needNext
  intro l hl
  split
  · exact .fail (I.start hl) nofun
  · apply Invariant.Keeps.bind (.takeWord _)
    intro indexed _
    split
    · refine .bind (.map IndexSpec.parser_keeps fun spec hspec => ?_)
        fun index hindex => .pure ⟨hname, hindex⟩
      exact fun spec' hmem => Option.mem_some.mp hmem ▸ hspec
    · exact .bind .unlisted fun index hindex => .pure ⟨hname, hindex⟩

theorem IndexDeclaration.parser?_keeps (hN : Ident.Kept I N) :
    I.Keeps IndexDeclaration.parser?
      fun index? => ∀ index ∈ index?, N index.column ∧ index.spec.Fits := by
  apply Invariant.Keeps.bind (.accept _)
  intro taken _
  split
  · apply Invariant.Keeps.bind (.needWord _)
    intro _ _
    apply Invariant.Keeps.bind (.needToken _)
    intro _ _
    apply Invariant.Keeps.bind (needName_keeps hN)
    intro column hcolumn
    apply Invariant.Keeps.bind IndexSpec.parser_keeps
    intro spec hspec
    exact .bind (.needToken _) fun _ _ =>
      .pure fun index hindex => Option.mem_some.mp hindex ▸ ⟨hcolumn, hspec⟩
  · exact .unlisted

namespace TableDeclaration

theorem timestampClause_keeps (hN : Ident.Kept I N) :
    I.Keeps timestampClause fun name? => ∀ name ∈ name?, N name := by
  apply Invariant.Keeps.bind (.takeWord _)
  intro taken _
  split
  · apply Invariant.Keeps.bind (.needToken _)
    intro _ _
    apply Invariant.Keeps.bind (needName_keeps hN)
    intro column hcolumn
    exact .bind (.needToken _) fun _ _ =>
      .pure fun name hname => Option.mem_some.mp hname ▸ hcolumn
  · exact .unlisted

theorem partitionClause_keeps : I.Keeps partitionClause fun _ => True := by
  apply Invariant.Keeps.bind (.takeWord _)
  intro taken _
  split
  · apply Invariant.Keeps.bind (.needWord _)
    intro _ _
    apply Invariant.Keeps.bind .needNext
    intro l hl
    split
    · exact .pure trivial
    · exact .fail (I.start hl) nofun
  · exact .pure trivial

theorem recordHintClause_keeps :
    I.Keeps recordHintClause fun hint => ∀ n ∈ hint, n < UInt64.size := by
  apply Invariant.Keeps.bind (.takeWord _)
  intro taken _
  split
  · apply Invariant.Keeps.bind (.needWord _)
    intro _ _
    exact .bind needNumber_keeps fun number hnumber =>
      .pure fun n hn => Option.mem_some.mp hn ▸ hnumber.1
  · exact .unlisted

/-- A declaration is made of the names that are read. -/
theorem parser_keeps (hN : Ident.Kept I N) : I.Keeps parser (MadeOf N) := by
  apply Invariant.Keeps.bind .needNext
  intro target htarget
  extract_lets rest
  have hrest : ∀ u, I.Keeps (rest u) (MadeOf N) := by
    intro _
    apply Invariant.Keeps.bind (needName_keeps hN)
    intro name hname
    apply Invariant.Keeps.bind (.needToken _)
    intro _ _
    apply Invariant.Keeps.bind (.listUntil _ _ (ColumnDeclaration.parser_keeps hN))
    intro columns hcolumns
    apply Invariant.Keeps.bind (.many (IndexDeclaration.parser?_keeps hN))
    intro indexes hindexes
    apply Invariant.Keeps.bind (timestampClause_keeps hN)
    intro timestamp htimestamp
    apply Invariant.Keeps.bind partitionClause_keeps
    intro partitionBy _
    apply Invariant.Keeps.bind recordHintClause_keeps
    intro recordHint hhint
    exact .pure ⟨hname, hcolumns.1, hcolumns.2, hindexes, htimestamp, hhint⟩
  split
  · exact .bind (R := fun _ => True) (.fail (I.start htarget) nofun) fun _ _ => hrest ()
  · exact hrest ()

end TableDeclaration

end Declarations

/-! ### Statements -/

namespace Statement

variable {Q : Query → Prop} {D : TableDeclaration → Prop}

/-- A statement is a declaration or a query that is read. -/
theorem bodyParser_keeps (hquery : I.Keeps Query.parser Q)
    (htable : I.Keeps TableDeclaration.parser D) {R : Statement → Prop} (hQ : ∀ q, Q q → R (.query q))
    (hD : ∀ d, D d → R (.createTable d)) : I.Keeps bodyParser R := by
  apply Invariant.Keeps.bind (.takeWord _)
  intro create _
  split
  · exact .bind htable fun d hd => .pure (hD d hd)
  · exact .bind hquery fun q hq => .pure (hQ q hq)

theorem parser_keeps {R : Statement → Prop} (h : I.Keeps bodyParser R) : I.Keeps parser R := by
  apply Invariant.Keeps.bind h
  intro statement hstatement
  apply Invariant.Keeps.bind (.accept _)
  intro _ _
  apply Invariant.Keeps.bind .next
  intro l? hl
  cases l? with
  | none => exact .pure hstatement
  | some extra => exact .fail (I.start (hl extra rfl)) nofun

end Statement

end SeriesQuery
