import SeriesQuery.Proofs.Pointing.Statement
import SeriesQuery.Proofs.Waiting

/-!
Where the clauses of a level fail.

A check of something that is written fails where that is written: at the reference that leads nowhere,
at the alias that is taken, at the interval that nothing aggregates. So every clause fails at an offset
of its own text (`FailsIn`), with one exception: the timestamp that `sample by` groups on may be one
that nobody wrote.
-/

namespace SeriesQuery

/-- The errors of the computation satisfy `E`. -/
def FailsIn {α : Type} (E : SqlError → Prop) (x : Except SqlError α) : Prop :=
  ∀ e, x = .error e → E e

/-- The error is at an offset of `P`. -/
def SqlError.At (P : Nat → Prop) (e : SqlError) : Prop :=
  P e.position

namespace FailsIn

variable {α β : Type} {E : SqlError → Prop} {x : Except SqlError α}

theorem ok (E : SqlError → Prop) (a : α) : FailsIn E (.ok a) := by
  rintro e ⟨⟩

theorem error {e : SqlError} (h : E e) : FailsIn (α := α) E (.error e) := by
  rintro e ⟨⟩
  exact h

theorem mono {E' : SqlError → Prop} (h : FailsIn E x) (himp : ∀ e, E e → E' e) : FailsIn E' x :=
  fun e he => himp e (h e he)

theorem bind {f : α → Except SqlError β} (hx : FailsIn E x)
    (hf : ∀ a, x = .ok a → FailsIn E (f a)) : FailsIn E (x >>= f) := by
  cases hrun : x with
  | ok a => exact hf a hrun
  | error e => exact error (hx e hrun)

end FailsIn

variable {P : Nat → Prop} {scope : Scope}

/-! ### References -/

namespace Scope

theorem resolve_fails (scope : Scope) (ref : ColumnRef) {position : Nat} (h : P position) :
    FailsIn (SqlError.At P) (scope.resolve ref position) := by
  unfold resolve
  split
  · split
    · exact .error h
    · split
      · exact .ok _ _
      · exact .error h
    · exact .error h
  · split
    · exact .error h
    · exact .ok _ _
    · exact .error h

/-- A plain reference to a column of the first source is in doubt only if there is another one. -/
theorem resolve_plain_fails {entry : ScopeEntry} {entries : List ScopeEntry} {name : String}
    (hentries : scope.entries = entry :: entries) (hcolumn : (entry.column? name).isSome = true)
    (position : Nat) : FailsIn (fun e => e = ⟨position, .ambiguousColumn name⟩ ∧ entries ≠ [])
      (scope.resolve (.plain name) position) := by
  obtain ⟨column, hcolumn⟩ := Option.isSome_iff_exists.mp hcolumn
  have hholders : scope.holders name =
      ⟨0, column.type⟩ :: (entries.zipIdx 1).filterMap fun e =>
        (e.1.column? name).map fun c => ⟨e.2, c.type⟩ := by
    rw [holders, hentries, List.zipIdx_cons, List.filterMap_cons]
    simp [hcolumn]
  simp only [resolve, ColumnRef.plain, hholders]
  split
  · rename_i hnone
    cases hnone
  · exact .ok _ _
  · rename_i hmany
    refine .error ⟨rfl, ?_⟩
    rintro rfl
    exact hmany _ rfl

theorem rejection_fails {refs : List (ColumnRef × Nat)} (h : ∀ ref ∈ refs, P ref.2) :
    ∀ e ∈ scope.rejection? refs, P e.position := by
  intro e he
  obtain ⟨ref, href, hrejects⟩ := List.exists_of_findSome?_eq_some he
  have hfails := resolve_fails scope ref.1 (h ref href)
  cases hresolve : scope.resolve ref.1 ref.2 with
  | ok r => simp [hresolve] at hrejects
  | error e' =>
    simp only [hresolve, Option.some.injEq] at hrejects
    exact hrejects ▸ hfails e' hresolve

theorem sourcesOf_fails (scope : Scope) {refs : List (ColumnRef × Nat)} (h : ∀ ref ∈ refs, P ref.2) :
    FailsIn (SqlError.At P) (scope.sourcesOf refs) := by
  cases hrejects : scope.rejection? refs with
  | none =>
    obtain ⟨sources, hsources⟩ := sourcesOf_accepted hrejects
    rw [hsources]
    exact .ok _ _
  | some e =>
    rw [sourcesOf_rejected hrejects]
    exact .error (rejection_fails h e hrejects)

theorem declare_fails (name : Option String) {given : Option Ident} (columns : List ShownColumn)
    (h : GivenAt P given) : FailsIn (SqlError.At P) (scope.declare name given columns) := by
  unfold declare
  split
  · rename_i name
    split
    · exact .error (h name rfl)
    · exact .ok _ _
  · exact .ok _ _

end Scope

/-! ### Conditions -/

/-- The conjunct refers to columns at offsets of `P`. -/
def Conjunct.Located (P : Nat → Prop) (c : Conjunct) : Prop :=
  ∀ ref ∈ c.expr.columns, P ref.2

theorem Conjunct.located_ofCondition {origin : Origin} {condition : Expr}
    (h : condition.Located P) : ∀ c ∈ ofCondition origin condition, c.Located P := by
  intro c hc ref href
  obtain ⟨e, he, rfl⟩ := List.mem_map.mp hc
  have hmem := Expr.columns_of_mem_conjuncts he href
  rw [Expr.columns_pushNegations] at hmem
  exact (h.columns ref hmem).1

theorem Placement.place_fails (scope : Scope) (kinds : JoinKinds) {conjuncts : List Conjunct}
    (h : ∀ c ∈ conjuncts, c.Located P) : FailsIn (SqlError.At P) (place scope kinds conjuncts) := by
  have hcolumns : ∀ ref ∈ columnsOf conjuncts, P ref.2 := by
    intro ref href
    obtain ⟨c, hc, href⟩ := List.mem_flatMap.mp href
    exact h c hc ref href
  cases hrejects : scope.rejection? (columnsOf conjuncts) with
  | none =>
    obtain ⟨placement, hplacement⟩ := place_accepted kinds hrejects
    rw [hplacement]
    exact .ok _ _
  | some e =>
    rw [place_rejected hrejects]
    exact .error (Scope.rejection_fails hcolumns e hrejects)

/-! ### Select lists -/

namespace SelectClause

theorem resolveAll_fails {es : List Expr} (h : ∀ e ∈ es, e.Located P) :
    FailsIn (SqlError.At P) (resolveAll scope es) := by
  induction es with
  | nil => exact .ok _ _
  | cons e es ih =>
    obtain ⟨he, hes⟩ := List.forall_mem_cons.mp h
    rw [resolveAll]
    have hsources := Scope.sourcesOf_fails scope fun c hc => (he.columns c hc).1
    split
    · rename_i error hread
      exact .error (hsources error hread)
    · exact ih hes

theorem located_itemExprs {item : SelectItem} (h : item.Located P) :
    ∀ e ∈ itemExprs item, e.Located P := by
  intro e he
  rcases List.mem_cons.mp he with rfl | he
  · exact h.expr
  · split at he
    · rename_i w hwindow
      have hw := h.window w hwindow
      exact List.forall_mem_append.mpr ⟨hw.partitionBy, List.forall_mem_map.mpr hw.orderBy⟩ e he
    · cases he

theorem explicitAliases_fails {aliases : List Ident} (h : ∀ given ∈ aliases, P given.position)
    (taken : AliasSet) : FailsIn (SqlError.At P) (explicitAliases aliases taken) := by
  induction aliases generalizing taken with
  | nil => exact .ok _ _
  | cons given aliases ih =>
    obtain ⟨hgiven, haliases⟩ := List.forall_mem_cons.mp h
    rw [explicitAliases]
    split
    · exact ih haliases _
    · exact .error hgiven

theorem takenAliases_fails {select : SelectClause} (h : select.Located P) :
    FailsIn (SqlError.At P) select.takenAliases := by
  apply explicitAliases_fails
  intro given hgiven
  obtain ⟨item, hitem, hname⟩ := List.mem_filterMap.mp hgiven
  exact (h.items item hitem).givenName given hname

theorem resolve_fails {select : SelectClause} (h : select.Located P) :
    FailsIn (SqlError.At P) (select.resolve scope) := by
  have hitems : ∀ e ∈ select.items.flatMap itemExprs, e.Located P := by
    intro e he
    obtain ⟨item, hitem, he⟩ := List.mem_flatMap.mp he
    exact located_itemExprs (h.items item hitem) e he
  refine .bind (resolveAll_fails hitems) fun _ _ => .bind (takenAliases_fails h) fun _ _ => ?_
  split
  · exact .error h.position
  · exact .ok _ _

end SelectClause

theorem Layers.ofSelect_fails {select : SelectClause} (h : select.Located P) (key : Option Expr) :
    FailsIn (SqlError.At P) (ofSelect select scope key) := by
  refine .bind (SelectClause.resolve_fails h) fun _ _ => ?_
  refine .bind (SelectClause.takenAliases_fails h) fun _ _ => ?_
  exact .ok _ _

/-! ### Clauses -/

namespace Clause

theorem inMaster_fails (scope : Scope) {e : Expr} (h : P e.position) :
    FailsIn (SqlError.At P) (inMaster scope e) := by
  unfold inMaster
  split
  · exact .error h
  · rename_i ref hcolumn
    have hresolve := Scope.resolve_fails scope ref h
    split
    · rename_i error hfails
      exact .error (hresolve error hfails)
    · split
      · exact .ok _ _
      · exact .error h

theorem setTimestamp_fails {timestamp : Option Expr} (h : ∀ e ∈ timestamp, e.Located P) (m : Model) :
    FailsIn (SqlError.At P) (setTimestamp scope timestamp m) := by
  unfold setTimestamp
  split
  · exact .ok _ _
  · rename_i e
    have hcolumn := inMaster_fails scope (h e rfl).position
    split
    · rename_i error hfails
      exact .error (hcolumn error hfails)
    · exact .ok _ _

theorem allInMaster_fails (scope : Scope) {columns : List Expr} (h : ∀ e ∈ columns, e.Located P) :
    FailsIn (SqlError.At P) (allInMaster scope columns) := by
  induction columns with
  | nil => exact .ok _ _
  | cons e columns ih =>
    obtain ⟨he, hcolumns⟩ := List.forall_mem_cons.mp h
    have hcolumn := inMaster_fails scope he.position
    rw [allInMaster]
    split
    · rename_i error hfails
      exact .error (hcolumn error hfails)
    · exact ih hcolumns

theorem setLatestBy_fails {columns : List Expr} (h : ∀ e ∈ columns, e.Located P) (m : Model) :
    FailsIn (SqlError.At P) (setLatestBy scope columns m) := by
  have hcolumns := allInMaster_fails scope h
  unfold setLatestBy
  split
  · rename_i error hfails
    exact .error (hcolumns error hfails)
  · exact .ok _ _

theorem checkTimestamp_fails {timestamp : Expr} (h : P timestamp.position) :
    FailsIn (SqlError.At P) (checkTimestamp scope timestamp) := by
  unfold checkTimestamp
  split
  · exact .ok _ _
  · rename_i ref hcolumn
    have hresolve := Scope.resolve_fails scope ref h
    split
    · rename_i error hfails
      exact .error (hresolve error hfails)
    · split
      · exact .error h
      · exact .ok _ _

theorem checkOrderCount_fails (limit : Nat) {items : List OrderItem}
    (h : ∀ item ∈ items, item.expr.Located P) : FailsIn (SqlError.At P) (checkOrderCount limit items) := by
  unfold checkOrderCount
  split
  · rename_i extra hextra
    exact .error (h extra (List.mem_of_getElem? hextra)).position
  · exact .ok _ _

theorem orderColumn_fails {e : Expr} (h : P e.position) (l : Layers) :
    FailsIn (SqlError.At P) (orderColumn scope e l) := by
  unfold orderColumn
  split
  · exact .error h
  · rename_i ref hcolumn
    split
    · exact .ok _ _
    · have hresolve := Scope.resolve_fails scope ref h
      split
      · rename_i error hfails
        exact .error (hresolve error hfails)
      · split
        · exact .ok _ _
        · exact .error h

theorem orderColumns_fails {items : List OrderItem} (h : ∀ item ∈ items, item.expr.Located P)
    (l : Layers) : FailsIn (SqlError.At P) (orderColumns scope items l) := by
  induction items generalizing l with
  | nil => exact .ok _ _
  | cons item items ih =>
    obtain ⟨hitem, hitems⟩ := List.forall_mem_cons.mp h
    refine .bind (orderColumn_fails hitem.position l) fun bound _ => ?_
    exact .bind (ih hitems _) fun _ _ => .ok _ _

theorem orderLayers_fails (maxColumns : Nat) {items : List OrderItem}
    (h : ∀ item ∈ items, item.expr.Located P) (l : Layers) :
    FailsIn (SqlError.At P) (orderLayers scope maxColumns items l) := by
  unfold orderLayers
  split
  · exact .ok _ _
  · refine .bind (checkOrderCount_fails maxColumns h) fun _ _ => ?_
    exact .bind (orderColumns_fails h l) fun _ _ => .ok _ _

theorem orderBody_fails (maxColumns : Nat) {items : List OrderItem}
    (h : ∀ item ∈ items, item.expr.Located P) (m : Model) :
    FailsIn (SqlError.At P) (orderBody scope maxColumns items m) := by
  unfold orderBody
  split
  · exact .ok _ _
  · refine .bind (checkOrderCount_fails maxColumns h) fun _ _ => ?_
    exact .bind (SelectClause.resolveAll_fails (List.forall_mem_map.mpr h)) fun _ _ => .ok _ _

/-! ### `sample by` -/

/-- The interval that waits to be aggregated is written at an offset of `P`. -/
def WaitsAt (P : Nat → Prop) (body : Model) : Prop :=
  ∀ interval ∈ pendingSampleBy? body, P interval.position

theorem WaitsAt.congr {m m' : Model} (h : WaitsAt P m) (hp : m'.projection = m.projection)
    (hi : m'.sampleBy = m.sampleBy) (hs : m'.source = m.source) : WaitsAt P m' := by
  rw [WaitsAt, pendingSampleBy?_congr hp hi hs]
  exact h

theorem checkSampleBelow_fails (layers : Option Layers) (nested : Bool) {body : Model}
    (h : WaitsAt P body) : FailsIn (SqlError.At P) (checkSampleBelow layers nested body) := by
  unfold checkSampleBelow
  split
  · exact .ok _ _
  · rename_i interval hpending
    extract_lets aggregated
    split
    · exact .ok _ _
    · exact .error (h interval hpending)

variable {E : SqlError → Prop} {body : Model} {interval : Expr}

theorem setSampleBy_fails (hE : ∀ e, SqlError.At P e → E e) {select : SelectClause}
    (hselect : select.Located P) (hinterval : interval.Located P)
    (hcolumn : FailsIn E (sampleColumn scope body interval)) :
    FailsIn E (setSampleBy select scope body interval) := by
  refine .bind ((SelectClause.resolve_fails hselect).mono hE) fun aggregates _ => ?_
  split
  · exact .bind hcolumn fun _ _ => .ok _ _
  · exact .error (hE _ hinterval.position)

theorem leaveSampleBy_fails (hE : ∀ e, SqlError.At P e → E e) (nested : Bool)
    (hinterval : interval.Located P) (hcolumn : FailsIn E (sampleColumn scope body interval)) :
    FailsIn E (leaveSampleBy scope nested body interval) := by
  unfold leaveSampleBy
  split
  · exact .bind hcolumn fun _ _ => .ok _ _
  · exact .error (hE _ hinterval.position)

end Clause

/-! ### Table declarations -/

namespace TableDefinition

theorem defineColumns_fails (blockSize : Nat) {columns : List ColumnDeclaration}
    (h : ∀ column ∈ columns, P column.name.position) (defined : List ColumnDefinition) :
    FailsIn (SqlError.At P) (defineColumns blockSize defined columns) := by
  induction columns generalizing defined with
  | nil => exact .ok _ _
  | cons column columns ih =>
    obtain ⟨hcolumn, hcolumns⟩ := List.forall_mem_cons.mp h
    rw [defineColumns]
    split
    · exact .error hcolumn
    · exact ih hcolumns _

theorem addIndexes_fails (blockSize : Nat) {indexes : List IndexDeclaration}
    (h : ∀ index ∈ indexes, P index.column.position) (columns : List ColumnDefinition) :
    FailsIn (SqlError.At P) (addIndexes blockSize indexes columns) := by
  induction indexes generalizing columns with
  | nil => exact .ok _ _
  | cons index indexes ih =>
    obtain ⟨hindex, hindexes⟩ := List.forall_mem_cons.mp h
    rw [addIndexes]
    split
    · exact ih hindexes _
    · exact .error hindex

theorem findTimestamp_fails (columns : List ColumnDefinition) {timestamp : Option Ident}
    (h : GivenAt P timestamp) : FailsIn (SqlError.At P) (findTimestamp columns timestamp) := by
  unfold findTimestamp
  split
  · exact .ok _ _
  · rename_i name
    split
    · exact .error (h name rfl)
    · split
      · exact .ok _ _
      · exact .error (h name rfl)

theorem ofDeclaration_fails (settings : CompilerSettings) {d : TableDeclaration} (h : d.Located P) :
    FailsIn (SqlError.At P) (ofDeclaration settings d) := by
  refine .bind (defineColumns_fails _ h.columns []) fun defined _ => ?_
  refine .bind (addIndexes_fails _ h.indexes defined) fun columns _ => ?_
  exact .bind (findTimestamp_fails columns h.timestamp) fun _ _ => .ok _ _

end TableDefinition

end SeriesQuery
