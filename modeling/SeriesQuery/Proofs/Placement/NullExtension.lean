import SeriesQuery.Proofs.Placement.Meaning

/-!
When a filter that a constant brings may be evaluated before the joins.

A constant is handed on along chains of recorded equalities, those of outer joins among them
(`Propagates`). But an outer join keeps the rows it finds no match for, with null in the columns
of the joined source, so the equalities of its `on` need not hold in a row that the level
produces. A filter that comes along a chain is sound exactly when the ends of the chain are
linked in another way too, whichever outer joins have found a match: by equalities that are in
force then (`Backed`). Chains of equalities that hold in every row (`Standing`) are always in
force, those of `where` and of the `on` of inner joins among them (`filter_sound_iff`).

What is in force is worked out on terms: the values that expressions have when nothing is
known but which sources are null.
-/

namespace SeriesQuery

/-! ### Terms -/

/-- The value of an expression, as far as it is known from which columns are null. -/
inductive Term where
  | null
  | column (key : ColumnKey)
  | constant (text : String)
  | queryRef (text : String)
  | unary (op : UnaryOp) (operand : Term)
  | binary (op : BinaryOp) (left right : Term)
  | call (name : String) (args : List Term)
  | inList (operand : Term) (list : List Term)

namespace Term

/-- Every sign stands for the term that it builds. -/
def operations : Operations Term where
  null := .null
  constant text := if Ascii.same text "null" then .null else .constant text
  queryRef := .queryRef
  unary := .unary
  binary := .binary
  call := .call
  inList := .inList

section Eval

variable {Value : Type} (ops : Operations Value) (row : ColumnKey → Value)

mutual

/-- The value of a term under other operations. -/
def eval : Term → Value
  | null => ops.null
  | column key => row key
  | constant text => ops.constant text
  | queryRef text => ops.queryRef text
  | unary op operand => ops.unary op (eval operand)
  | binary op left right => ops.binary op (eval left) (eval right)
  | call name args => ops.call name (evalList args)
  | inList operand list => ops.inList (eval operand) (evalList list)

/-- The values of terms. -/
def evalList : List Term → List Value
  | [] => []
  | t :: ts => eval t :: evalList ts

end

end Eval

variable {Value : Type} {ops : Operations Value} {row : ColumnKey → Value}

/-- Reading terms first and evaluating them then is evaluating at once. -/
theorem eval_value {read : ColumnRef → Term} {read' : ColumnRef → Value}
    (hnull : ∀ text, Ascii.same text "null" = true → ops.constant text = ops.null)
    (hread : ∀ ref, (read ref).eval ops row = read' ref) (e : Expr) :
    (operations.value read e).eval ops row = ops.value read' e := by
  have hlist : ∀ es : List Expr,
      (∀ e ∈ es, (operations.value read e).eval ops row = ops.value read' e) →
      evalList ops row (operations.values read es) = ops.values read' es := by
    intro es h
    induction es with
    | nil => rfl
    | cons e es ih =>
      simp only [Operations.values, evalList, h e List.mem_cons_self]
      rw [ih fun a ha => h a (List.mem_cons_of_mem _ ha)]
  induction e using Expr.induct with
  | column ref p => exact hread ref
  | constant text p =>
    simp only [Operations.value, operations]
    split
    · rename_i hword
      exact (hnull text hword).symm
    · rfl
  | queryRef text p => rfl
  | unary op operand p ih => exact congrArg (ops.unary op) ih
  | binary op left right p ihl ihr => exact congr (congrArg (ops.binary op) ihl) ihr
  | call name args p ih => exact congrArg (ops.call name) (hlist args ih)
  | inList operand list p ih ihs => exact congr (congrArg ops.inList ih) (hlist list ihs)

end Term

namespace Placement

open Relation

variable {scope : Scope} {kinds : JoinKinds} {conjuncts : List Conjunct} {p : Placement}
  {matched : Nat → Bool}

/-! ### Rows of a level -/

/-- The rows that the joins and `where` produce as written. The clauses that filter hold;
for a source that keeps its place its `on` holds, or else its columns are null. -/
structure Produced {Value : Type} (I : Interpretation Value) (scope : Scope) (kinds : JoinKinds)
    (conjuncts : List Conjunct) (row : ColumnKey → Value) : Prop where
  filtered : ∀ c ∈ conjuncts, c.origin.Filters kinds → I.Satisfies scope row c.expr
  joined : ∀ j, kinds.isFixed j = true →
    (∀ c ∈ conjuncts, c.origin = .on j → I.Satisfies scope row c.expr) ∨
      ∀ name, row ⟨j, name⟩ = I.null

/-- The clauses that hold in a row for which the given sources are matched. -/
def Binds (kinds : JoinKinds) (matched : Nat → Bool) (origin : Origin) : Prop :=
  origin.Filters kinds ∨ ∃ j, origin = .on j ∧ kinds.isFixed j = true ∧ matched j = true

/-- The row of terms for which the given sources are matched: the columns of the sources
that keep their place and are not matched are null. -/
def termRow (kinds : JoinKinds) (matched : Nat → Bool) (key : ColumnKey) : Term :=
  if kinds.isFixed key.source && !matched key.source then .null else .column key

/-- The term of an expression in that row. -/
def termOf (scope : Scope) (kinds : JoinKinds) (matched : Nat → Bool) (e : Expr) : Term :=
  Term.operations.valueIn scope (termRow kinds matched) e

/-- No condition that holds compares null when the given sources are matched. -/
def Possible (scope : Scope) (kinds : JoinKinds) (conjuncts : List Conjunct)
    (matched : Nat → Bool) : Prop :=
  ∀ c ∈ conjuncts, Binds kinds matched c.origin → ∀ op l r p, c.expr = .binary op l r p →
    op.compares = true →
      termOf scope kinds matched l ≠ .null ∧ termOf scope kinds matched r ≠ .null

/-- A conjunct that holds when the given sources are matched equates two terms, in either
order. -/
def InForce (scope : Scope) (kinds : JoinKinds) (conjuncts : List Conjunct)
    (matched : Nat → Bool) (a b : Term) : Prop :=
  ∃ c ∈ conjuncts, Binds kinds matched c.origin ∧ ∃ l r p, c.expr = .binary .eq l r p ∧
    (a = termOf scope kinds matched l ∧ b = termOf scope kinds matched r ∨
      a = termOf scope kinds matched r ∧ b = termOf scope kinds matched l)

/-- A chain of equalities that hold when the given sources are matched leads from one term to
another. -/
abbrev Tied (scope : Scope) (kinds : JoinKinds) (conjuncts : List Conjunct)
    (matched : Nat → Bool) : Term → Term → Prop :=
  TransGen (InForce scope kinds conjuncts matched)

/-! ### Chains -/

/-- A filter of a source gives a column the constant that `f` gives to a column of another
source, and recorded equalities lead from the first column to the second. -/
inductive Propagates (scope : Scope) (kinds : JoinKinds) (conjuncts : List Conjunct) :
    ColumnKey → ColumnKey → Expr → Prop where
  | along {c : Conjunct} {s t : Nat} {column ref : ColumnRef} {constant : Expr} {q : Nat}
      (hc : c ∈ conjuncts) (hd : destination scope kinds c = .ok (.filter s))
      (hconstant : constantOf? c.expr = some (column, constant)) (hlead : scope.LeadsTo ref t)
      (hne : t ≠ s)
      (hchain : ReflTransGen (Recorded scope kinds conjuncts) (.ofRef s column) (.ofRef t ref)) :
      Propagates scope kinds conjuncts (.ofRef s column) (.ofRef t ref)
        (.equality (.column ref q) constant)

/-- Whichever sources are matched, equalities that hold then lead from one column to another. -/
def Backed (scope : Scope) (kinds : JoinKinds) (conjuncts : List Conjunct) (a b : ColumnKey) :
    Prop :=
  ∀ matched, Possible scope kinds conjuncts matched →
    Tied scope kinds conjuncts matched (termRow kinds matched a) (termRow kinds matched b)

/-- A conjunct equates two columns and holds in every row: its clause filters, or it stands in
the `on` of a source that cannot be without a match. -/
def Standing (scope : Scope) (kinds : JoinKinds) (conjuncts : List Conjunct) (a b : ColumnKey) :
    Prop :=
  ∃ c ∈ conjuncts, (c.origin.Filters kinds ∨ ∃ j, c.origin = .on j ∧ kinds.isFixed j = true ∧
      ∀ matched, Possible scope kinds conjuncts matched → matched j = true) ∧
    ∃ q, equalityOf scope c.expr = .ok (some q) ∧ q.Equates a b

/-- A condition holds in every row that the joins and `where` produce as written, whatever the
signs mean. -/
def Sound (scope : Scope) (kinds : JoinKinds) (conjuncts : List Conjunct) (f : Expr) : Prop :=
  ∀ (Value : Type) (I : Interpretation Value), I.Lawful → I.Strict →
    ∀ row, Produced I scope kinds conjuncts row → I.Satisfies scope row f

theorem termOf_column {ref : ColumnRef} {p source : Nat} (h : scope.LeadsTo ref source) :
    termOf scope kinds matched (.column ref p) = termRow kinds matched (.ofRef source ref) :=
  Operations.valueIn_column h

theorem InForce.symm {a b : Term} (h : InForce scope kinds conjuncts matched a b) :
    InForce scope kinds conjuncts matched b a := by
  obtain ⟨c, hc, hbinds, l, r, p, he, ⟨ha, hb⟩ | ⟨ha, hb⟩⟩ := h
  · exact ⟨c, hc, hbinds, l, r, p, he, .inr ⟨hb, ha⟩⟩
  · exact ⟨c, hc, hbinds, l, r, p, he, .inl ⟨hb, ha⟩⟩

theorem Tied.symm {a b : Term} (h : Tied scope kinds conjuncts matched a b) :
    Tied scope kinds conjuncts matched b a :=
  TransGen.mono (fun _ _ => InForce.symm) _ _ (TransGen.swap _ _ h)

/-- A conjunct that equates two columns equates their terms. -/
theorem inForce_of_equates {c : Conjunct} (hc : c ∈ conjuncts)
    (hbinds : Binds kinds matched c.origin) {q : Equality} {a b : ColumnKey}
    (hq : equalityOf scope c.expr = .ok (some q)) (h : q.Equates a b) :
    InForce scope kinds conjuncts matched (termRow kinds matched a) (termRow kinds matched b) := by
  have hspells : ∀ {a b : ColumnKey}, q.Spells a b →
      InForce scope kinds conjuncts matched (termRow kinds matched a) (termRow kinds matched b) := by
    rintro a b ⟨ha, hb⟩
    obtain ⟨l, r, lp, rp, p, he, hleft, hright, hl, hr, -⟩ := equalityOf_eq_some hq
    rw [hleft] at ha
    rw [hright] at hb
    obtain rfl : ColumnKey.ofRef q.leftSource l = a := Option.some.inj ha
    obtain rfl : ColumnKey.ofRef q.rightSource r = b := Option.some.inj hb
    exact ⟨c, hc, hbinds, _, _, p, he, .inl ⟨(termOf_column hl).symm, (termOf_column hr).symm⟩⟩
  rcases h with h | h
  · exact hspells h
  · exact (hspells h).symm

/-- A conjunct that equates a column with a constant equates their terms. -/
theorem inForce_of_constantOf? {c : Conjunct} (hc : c ∈ conjuncts)
    (hbinds : Binds kinds matched c.origin) {s : Nat} {column : ColumnRef} {constant : Expr}
    (hconstant : constantOf? c.expr = some (column, constant)) (hlead : scope.LeadsTo column s) :
    InForce scope kinds conjuncts matched (termRow kinds matched (.ofRef s column))
      (termOf scope kinds matched constant) := by
  obtain ⟨cp, text, kp, p, -, he | he⟩ := constantOf?_eq_some hconstant
  · exact ⟨c, hc, hbinds, _, _, p, he, .inl ⟨(termOf_column hlead).symm, rfl⟩⟩
  · exact ⟨c, hc, hbinds, _, _, p, he, .inr ⟨(termOf_column hlead).symm, rfl⟩⟩

/-- Chains of equalities that hold in every row are in force whichever sources are matched. -/
theorem backed_of_standing {a b : ColumnKey} (h : TransGen (Standing scope kinds conjuncts) a b) :
    Backed scope kinds conjuncts a b := by
  intro matched hpossible
  refine h.lift (termRow kinds matched) fun a b hstanding => ?_
  obtain ⟨c, hc, hfilters | ⟨j, horigin, hj, hmatched⟩, q, hq, hequates⟩ := hstanding
  · exact inForce_of_equates hc (.inl hfilters) hq hequates
  · exact inForce_of_equates hc (.inr ⟨j, horigin, hj, hmatched matched hpossible⟩) hq hequates

/-! ### The interpretation by terms -/

theorem Tied.ne_null (hpossible : Possible scope kinds conjuncts matched) {a b : Term}
    (h : Tied scope kinds conjuncts matched a b) : a ≠ .null ∧ b ≠ .null := by
  have hstep : ∀ {a b : Term}, InForce scope kinds conjuncts matched a b → a ≠ .null ∧ b ≠ .null := by
    rintro a b ⟨c, hc, hbinds, l, r, p, he, ⟨rfl, rfl⟩ | ⟨rfl, rfl⟩⟩
    · exact hpossible c hc hbinds .eq l r p he rfl
    · exact (hpossible c hc hbinds .eq l r p he rfl).symm
  induction h with
  | single hab => exact hstep hab
  | tail _ hbc ih => exact ⟨ih.1, (hstep hbc).2⟩

/-- Terms are equal when they are tied, other comparisons hold of everything but null, and
all other conditions hold. -/
def termInterpretation (scope : Scope) (kinds : JoinKinds) (conjuncts : List Conjunct)
    (matched : Nat → Bool) : Interpretation Term where
  toOperations := Term.operations
  Holds
    | .binary .eq a b => Tied scope kinds conjuncts matched a b
    | .binary op a b => op.compares = true → a ≠ .null ∧ b ≠ .null
    | _ => True

theorem termInterpretation_lawful : (termInterpretation scope kinds conjuncts matched).Lawful where
  symm h := Tied.symm h
  trans hab hbc := TransGen.trans hab hbc

theorem termInterpretation_strict (hpossible : Possible scope kinds conjuncts matched) :
    (termInterpretation scope kinds conjuncts matched).Strict := by
  have hne : ∀ {op : BinaryOp} {a b : Term}, op.compares = true →
      (termInterpretation scope kinds conjuncts matched).Holds (.binary op a b) →
      a ≠ .null ∧ b ≠ .null := by
    intro op a b hop h
    -- Only of equal terms it has to be shown that they are not null.
    by_cases heq : op = .eq
    · subst heq
      exact Tied.ne_null hpossible h
    · cases op <;> first | exact absurd rfl heq | exact h hop
  exact ⟨fun hop h => (hne hop h).1, fun hop h => (hne hop h).2, fun h => if_pos h⟩

/-- A condition that holds satisfies the interpretation by terms. -/
theorem satisfies_termRow (hpossible : Possible scope kinds conjuncts matched) {c : Conjunct}
    (hc : c ∈ conjuncts) (hbinds : Binds kinds matched c.origin) :
    (termInterpretation scope kinds conjuncts matched).Satisfies scope (termRow kinds matched)
      c.expr := by
  cases he : c.expr with
  | column ref p =>
    simp only [Interpretation.Satisfies, Operations.valueIn, Operations.value, Operations.read]
    split
    · unfold termRow
      split
      · trivial
      · trivial
    · trivial
  | constant text p =>
    by_cases hword : Ascii.same text "null" = true
    · simp [Interpretation.Satisfies, Operations.valueIn, Operations.value, termInterpretation,
        Term.operations, hword]
    · simp [Interpretation.Satisfies, Operations.valueIn, Operations.value, termInterpretation,
        Term.operations, hword]
  | queryRef text p => trivial
  | unary op operand p => trivial
  | binary op l r p =>
    by_cases heq : op = .eq
    · subst heq
      exact .single ⟨c, hc, hbinds, l, r, p, he, .inl ⟨rfl, rfl⟩⟩
    · have hsides := hpossible c hc hbinds op l r p he
      cases op <;> first | exact absurd rfl heq | exact hsides
  | call name args p => trivial
  | inList operand list p => trivial

/-- The row of terms is produced: every condition that must hold there holds. -/
theorem termRow_produced (hpossible : Possible scope kinds conjuncts matched) :
    Produced (termInterpretation scope kinds conjuncts matched) scope kinds conjuncts
      (termRow kinds matched) := by
  constructor
  · intro c hc horigin
    exact satisfies_termRow hpossible hc (Or.inl horigin)
  · intro j hj
    by_cases hmatched : matched j = true
    · exact Or.inl fun c hc horigin =>
        satisfies_termRow hpossible hc (Or.inr ⟨j, horigin, hj, hmatched⟩)
    · right
      intro name
      simp [termRow, hj, hmatched, termInterpretation, Term.operations]

/-! ### Soundness -/

variable {Value : Type} {I : Interpretation Value} {row : ColumnKey → Value}

open Classical in
/-- The sources that are matched in a row. -/
noncomputable def matchedIn (I : Interpretation Value) (scope : Scope) (conjuncts : List Conjunct)
    (row : ColumnKey → Value) (j : Nat) : Bool :=
  decide (∀ c ∈ conjuncts, c.origin = .on j → I.Satisfies scope row c.expr)

theorem matchedIn_iff {j : Nat} :
    matchedIn I scope conjuncts row j = true ↔
      ∀ c ∈ conjuncts, c.origin = .on j → I.Satisfies scope row c.expr := by
  simp [matchedIn]

theorem eval_termRow (hrow : Produced I scope kinds conjuncts row) (key : ColumnKey) :
    (termRow kinds (matchedIn I scope conjuncts row) key).eval I.toOperations row = row key := by
  unfold termRow
  split
  · rename_i hnull
    obtain ⟨hfixed, hunmatched⟩ := Bool.and_eq_true_iff.mp hnull
    rcases hrow.joined key.source hfixed with hon | hnull
    · rw [matchedIn_iff.mpr hon] at hunmatched
      cases hunmatched
    · exact (hnull key.name).symm
  · rfl

theorem eval_termOf (hstrict : I.Strict) (hrow : Produced I scope kinds conjuncts row) (e : Expr) :
    (termOf scope kinds (matchedIn I scope conjuncts row) e).eval I.toOperations row =
      I.valueIn scope row e := by
  refine Term.eval_value (fun text h => hstrict.constant_null h) (fun ref => ?_) e
  unfold Operations.read
  split
  · exact eval_termRow hrow _
  · rfl

theorem satisfies_of_binds (hrow : Produced I scope kinds conjuncts row) {c : Conjunct}
    (hc : c ∈ conjuncts) (hbinds : Binds kinds (matchedIn I scope conjuncts row) c.origin) :
    I.Satisfies scope row c.expr := by
  rcases hbinds with horigin | ⟨j, horigin, -, hmatched⟩
  · exact hrow.filtered c hc horigin
  · exact matchedIn_iff.mp hmatched c hc horigin

/-- The sources that are matched in a produced row are possible: nothing that holds there
compares null. -/
theorem possible_matchedIn (hstrict : I.Strict) (hrow : Produced I scope kinds conjuncts row) :
    Possible scope kinds conjuncts (matchedIn I scope conjuncts row) := by
  intro c hc hbinds op l r p he hop
  have hholds := satisfies_of_binds hrow hc hbinds
  rw [he] at hholds
  have hvalue : ∀ e, termOf scope kinds (matchedIn I scope conjuncts row) e = .null →
      I.valueIn scope row e = I.null := by
    intro e hnull
    rw [← eval_termOf hstrict hrow e, hnull]
    rfl
  exact ⟨fun hnull => hstrict.left_ne_null hop hholds (hvalue l hnull),
    fun hnull => hstrict.right_ne_null hop hholds (hvalue r hnull)⟩

/-- Terms that are tied have equal values in a produced row. -/
theorem equal_of_tied (hI : I.Lawful) (hstrict : I.Strict)
    (hrow : Produced I scope kinds conjuncts row) {a b : Term}
    (h : Tied scope kinds conjuncts (matchedIn I scope conjuncts row) a b) :
    I.Equal (a.eval I.toOperations row) (b.eval I.toOperations row) := by
  have hstep : ∀ {a b : Term},
      InForce scope kinds conjuncts (matchedIn I scope conjuncts row) a b →
        I.Equal (a.eval I.toOperations row) (b.eval I.toOperations row) := by
    rintro a b ⟨c, hc, hbinds, l, r, p, he, hsides⟩
    have hholds := satisfies_of_binds hrow hc hbinds
    rw [he, Interpretation.satisfies_eq_iff, ← eval_termOf hstrict hrow,
      ← eval_termOf hstrict hrow] at hholds
    rcases hsides with ⟨rfl, rfl⟩ | ⟨rfl, rfl⟩
    · exact hholds
    · exact hI.symm hholds
  induction h with
  | single hab => exact hstep hab
  | tail _ hbc ih => exact hI.trans ih (hstep hbc)

/-- What a constant is handed on to is sound exactly when the chain is backed. -/
theorem Propagates.sound_iff {a b : ColumnKey} {f : Expr}
    (h : Propagates scope kinds conjuncts a b f) :
    Sound scope kinds conjuncts f ↔ Backed scope kinds conjuncts a b := by
  cases h with
  | @along c s t column ref constant q hc hd hconstant hlead hne hchain =>
    obtain ⟨sources, hs, horigin, -, rfl⟩ := destination_suits hd
    have hcolumn : scope.LeadsTo column s := (leadsTo_of_constantOf? hconstant).mp hs
    constructor
    · intro hsound matched hpossible
      -- The row of terms is a produced one, and equal terms are tied there.
      have hbrought := hsound Term _ termInterpretation_lawful (termInterpretation_strict hpossible)
        _ (termRow_produced hpossible)
      have hvalue : Tied scope kinds conjuncts matched (termRow kinds matched (.ofRef t ref))
          (termOf scope kinds matched constant) := by
        rw [← termOf_column (p := q) hlead]
        exact hbrought
      exact .head (inForce_of_constantOf? hc (.inl horigin) hconstant hcolumn) hvalue.symm
    · intro hbacked Value I hI hstrict row hrow
      have hequal := equal_of_tied hI hstrict hrow
        (hbacked _ (possible_matchedIn hstrict hrow))
      rw [eval_termRow hrow, eval_termRow hrow] at hequal
      have hvalue := equal_of_constantOf? hI hconstant hcolumn (hrow.filtered c hc horigin)
      rw [Expr.equality, Interpretation.satisfies_eq_iff, Operations.valueIn_column hlead]
      exact hI.trans (hI.symm hequal) hvalue

/-- The two columns belong to different sources, so the chain between them has a link. -/
theorem Propagates.transGen {a b : ColumnKey} {f : Expr}
    (h : Propagates scope kinds conjuncts a b f) :
    TransGen (Recorded scope kinds conjuncts) a b := by
  cases h with
  | along hc hd hconstant hlead hne hchain =>
    exact (reflTransGen_iff_eq_or_transGen.mp hchain).resolve_left fun heq =>
      hne (congrArg ColumnKey.source heq)

/-! ### What is placed -/

/-- A filter of a source that may be moved is a conjunct that filters, or a constant is handed
on to the source by it. -/
theorem conjunct_or_propagates (h : place scope kinds conjuncts = .ok p) {t : Nat}
    (ht : kinds.isFixed t = false) {f : Expr} (hf : f ∈ p.filters.getD t []) :
    (∃ c ∈ conjuncts, c.origin.Filters kinds ∧ c.expr = f ∧ scope.sourcesIn f = .ok [t]) ∨
      ∃ a b, b.source = t ∧ Propagates scope kinds conjuncts a b f := by
  obtain ⟨placed, hplaced, rfl⟩ := place_ok h
  rcases mem_of_mem_sourceFilters (mem_bySource.mp hf).2 with hown | hbrought
  · left
    rcases mem_ownFilters.mp hown with hmem | hmem
    · obtain ⟨c, -, -, hd⟩ := (mem_destinations hplaced).mp hmem
      obtain ⟨-, -, -, hfixed, -⟩ := destination_suits hd
      rw [ht] at hfixed
      cases hfixed
    · obtain ⟨c, hc, rfl, hd⟩ := (mem_destinations hplaced).mp hmem
      obtain ⟨sources, hs, horigin, -, rfl⟩ := destination_suits hd
      exact ⟨c, hc, horigin, rfl, hs⟩
  · right
    obtain ⟨c, hc, s, column, constant, ref, q, hd, hconstant, rfl, hlead, hne, hchain⟩ :=
      propagated_chain hplaced hbrought
    exact ⟨.ofRef s column, .ofRef t ref, rfl, .along hc hd hconstant hlead hne hchain⟩

/-- A constant is handed on, up to spelling, wherever a chain of recorded equalities leads. -/
theorem exists_filter_of_propagates (hlen : kinds.length = scope.entries.length)
    (h : place scope kinds conjuncts = .ok p) {a b : ColumnKey} {f : Expr}
    (hf : Propagates scope kinds conjuncts a b f) :
    ∃ f', Propagates scope kinds conjuncts a b f' ∧
      ∃ g ∈ p.filters.getD b.source [], g.text = f'.text := by
  obtain ⟨placed, hplaced, rfl⟩ := place_ok h
  cases hf with
  | @along c s t column ref constant q hc hd hconstant hlead hne hchain =>
    obtain ⟨ref', q', hkey, hlead', hmem⟩ := exists_propagated hplaced hc hd hconstant hne hchain
    obtain ⟨g, hg, htext⟩ := exists_text_eq_mem_sourceFilters hmem
    refine ⟨.equality (.column ref' q') constant, ?_, g,
      mem_bySource.mpr ⟨hlen ▸ hlead'.lt_length, hg⟩, htext⟩
    have hkey' : ColumnKey.ofRef t ref = .ofRef t ref' := hkey
    rw [hkey'] at hchain ⊢
    exact .along hc hd hconstant hlead' hne hchain

/-- **When a filter is sound.** A filter of a source that is not joined by an outer join is a
conjunct that filters, or a constant is handed on by it along a chain of recorded equalities; then
it is sound exactly when the chain is backed, whichever outer joins have found a match. Every such
chain has its filter, sound or not. Chains of equalities that hold in every row are backed, those
of `where` and of the `on` of inner joins among them. -/
theorem filter_sound_iff (h : place scope kinds conjuncts = .ok p) :
    (∀ t, kinds.isFixed t = false → ∀ f ∈ p.filters.getD t [],
      (∃ c ∈ conjuncts, c.origin.Filters kinds ∧ c.expr = f) ∧ Sound scope kinds conjuncts f ∨
        ∃ a b, b.source = t ∧ Propagates scope kinds conjuncts a b f ∧
          (Sound scope kinds conjuncts f ↔ Backed scope kinds conjuncts a b)) ∧
    (kinds.length = scope.entries.length → ∀ a b f, Propagates scope kinds conjuncts a b f →
      kinds.isFixed b.source = false → ∃ f', Propagates scope kinds conjuncts a b f' ∧
        (∃ g ∈ p.filters.getD b.source [], g.text = f'.text) ∧
        (Sound scope kinds conjuncts f' ↔ Backed scope kinds conjuncts a b)) ∧
    ∀ a b, TransGen (Standing scope kinds conjuncts) a b → Backed scope kinds conjuncts a b := by
  refine ⟨fun t ht f hf => ?_, fun hlen a b f hf _ => ?_, fun a b => backed_of_standing⟩
  · rcases conjunct_or_propagates h ht hf with ⟨c, hc, horigin, rfl, -⟩ | ⟨a, b, hb, hpropagates⟩
    · exact .inl ⟨⟨c, hc, horigin, rfl⟩, fun Value I _ _ row hrow => hrow.filtered c hc horigin⟩
    · exact .inr ⟨a, b, hb, hpropagates, hpropagates.sound_iff⟩
  · obtain ⟨f', hf', hwritten⟩ := exists_filter_of_propagates hlen h hf
    exact ⟨f', hf', hwritten, hf'.sound_iff⟩

/-! ### An inner and an outer join -/

/-- The kinds of an inner join and an outer join behind it. -/
def innerThenOuter : JoinKinds :=
  [none, some .inner, some .outer]

/-- An inner join of `b` with `a`, a constant for `a`, and an outer join of `c` on a constant
of its own. -/
def besideOuterJoin : List Conjunct :=
  [⟨.equality (columnOf "a" "x") (columnOf "b" "y"), .on 1⟩,
    ⟨.equality (columnOf "c" "z") (.constant "7" 0), .on 2⟩,
    ⟨.equality (columnOf "a" "x") (.constant "100" 0), .whereClause⟩]

/-- A constant for `a`, and an outer join of `c` on its equality with both `a` and `b`. -/
def acrossOuterJoin : List Conjunct :=
  [⟨.equality (columnOf "a" "x") (columnOf "c" "z"), .on 2⟩,
    ⟨.equality (columnOf "b" "y") (columnOf "c" "z"), .on 2⟩,
    ⟨.equality (columnOf "a" "x") (.constant "100" 0), .whereClause⟩]

/-- The constant of `a` is brought to `b` along the inner join, and holds there. -/
theorem filter_sound_beside_outer_join :
    ∃ p, place threeSources innerThenOuter besideOuterJoin = .ok p ∧ p.filters.getD 1 [] ≠ [] ∧
      ∀ f ∈ p.filters.getD 1 [], ∀ (Value : Type) (I : Interpretation Value), I.Lawful →
        I.Strict → ∀ row, Produced I threeSources innerThenOuter besideOuterJoin row →
          I.Satisfies threeSources row f := by
  obtain ⟨p, h⟩ : ∃ p, place threeSources innerThenOuter besideOuterJoin = .ok p := ⟨_, rfl⟩
  have hchain : ReflTransGen (Recorded threeSources innerThenOuter besideOuterJoin)
      (.ofRef 0 (.qualified "a" "x")) (.ofRef 1 (.qualified "b" "y")) :=
    .single ⟨_, List.mem_cons_self, _, rfl, .inl ⟨rfl, rfl, rfl⟩, .inl ⟨rfl, rfl⟩⟩
  have hpropagates : Propagates threeSources innerThenOuter besideOuterJoin
      (.ofRef 0 (.qualified "a" "x")) (.ofRef 1 (.qualified "b" "y"))
      (.equality (.column (.qualified "b" "y") 0) (.constant "100" 0)) :=
    .along (c := ⟨.equality (columnOf "a" "x") (.constant "100" 0), .whereClause⟩)
      (by simp [besideOuterJoin]) rfl rfl (fun _ => ⟨_, rfl⟩) (by decide) hchain
  obtain ⟨-, -, g, hg, -⟩ := exists_filter_of_propagates rfl h hpropagates
  -- The only equality of two columns stands in the `on` of the inner join.
  have hstanding : ∀ a b, Recorded threeSources innerThenOuter besideOuterJoin a b →
      Standing threeSources innerThenOuter besideOuterJoin a b := by
    rintro a b ⟨c, hc, q, hq, -, hequates⟩
    refine ⟨c, hc, .inl ?_, q, hq, hequates⟩
    simp only [besideOuterJoin, List.mem_cons, List.not_mem_nil, or_false] at hc
    rcases hc with rfl | rfl | rfl
    · rfl
    · cases hq
    · trivial
  obtain ⟨hfilters, -, hbacked⟩ := filter_sound_iff h
  refine ⟨p, h, List.ne_nil_of_mem hg, fun f hf => ?_⟩
  rcases hfilters 1 rfl f hf with ⟨-, hsound⟩ | ⟨a, b, -, hpropagates, hsound⟩
  · exact hsound
  · exact hsound.mpr (hbacked a b (TransGen.mono hstanding _ _ hpropagates.transGen))

/-- A constant crosses the outer join of `c` from `a` to `b`, and the filter that it becomes
drops a row for which no row of `c` is found. -/
theorem constant_crosses_outer_join :
    ∃ p, place threeSources innerThenOuter acrossOuterJoin = .ok p ∧
      ∃ f ∈ p.filters.getD 1 [], ∃ I : Interpretation Nat, I.Lawful ∧ I.Strict ∧
        ∃ row, Produced I threeSources innerThenOuter acrossOuterJoin row ∧
          ¬ I.Satisfies threeSources row f := by
  obtain ⟨p, h⟩ : ∃ p, place threeSources innerThenOuter acrossOuterJoin = .ok p := ⟨_, rfl⟩
  have hchain : ReflTransGen (Recorded threeSources innerThenOuter acrossOuterJoin)
      (.ofRef 0 (.qualified "a" "x")) (.ofRef 1 (.qualified "b" "y")) :=
    .tail (b := ⟨2, "z"⟩)
      (.single ⟨_, List.mem_cons_self, _, rfl, .inr ⟨2, rfl, rfl, rfl, by decide⟩,
        .inl ⟨rfl, rfl⟩⟩)
      ⟨_, List.mem_cons_of_mem _ List.mem_cons_self, _, rfl,
        .inr ⟨2, rfl, rfl, rfl, by decide⟩, .inr ⟨rfl, rfl⟩⟩
  have hpropagates : Propagates threeSources innerThenOuter acrossOuterJoin
      (.ofRef 0 (.qualified "a" "x")) (.ofRef 1 (.qualified "b" "y"))
      (.equality (.column (.qualified "b" "y") 0) (.constant "100" 0)) :=
    .along (c := ⟨.equality (columnOf "a" "x") (.constant "100" 0), .whereClause⟩)
      (by simp [acrossOuterJoin]) rfl rfl (fun _ => ⟨_, rfl⟩) (by decide) hchain
  obtain ⟨-, -, f, hf, -⟩ := exists_filter_of_propagates rfl h hpropagates
  refine ⟨p, h, f, hf, Interpretation.numbers, Interpretation.numbers_lawful,
    Interpretation.numbers_strict, fun key => [100, 7].getD key.source 0, ⟨?_, ?_⟩, ?_⟩
  · intro c hc horigin
    simp only [acrossOuterJoin, List.mem_cons, List.not_mem_nil, or_false] at hc
    rcases hc with rfl | rfl | rfl
    · cases horigin
    · cases horigin
    · exact Nat.one_ne_zero
  · rintro j hj
    right
    intro name
    match j, hj with
    | 2, _ => rfl
  · rcases conjunct_or_propagates h rfl hf with ⟨c, hc, -, rfl, hs⟩ | ⟨a, b, hb, hchain⟩
    · -- None of the conjuncts reads `b` alone.
      simp only [acrossOuterJoin, List.mem_cons, List.not_mem_nil, or_false] at hc
      rcases hc with rfl | rfl | rfl
      · cases hs
      · cases hs
      · cases hs
    · cases hchain with
      | @along c s t column ref constant q hc hd hconstant hlead hne hchain =>
        obtain rfl : t = 1 := hb
        have hvalue : constant = .constant "100" 0 := by
          simp only [acrossOuterJoin, List.mem_cons, List.not_mem_nil, or_false] at hc
          rcases hc with rfl | rfl | rfl
          · cases hconstant
          · cases hconstant
          · cases hconstant
            rfl
        rw [hvalue, Expr.equality, Interpretation.satisfies_eq_iff,
          Operations.valueIn_column hlead]
        intro hequal
        have heq : (7 : Nat) = 100 := (Interpretation.numbers_holds_iff.mp hequal).2.1
        exact absurd heq (by decide)

end Placement

end SeriesQuery
