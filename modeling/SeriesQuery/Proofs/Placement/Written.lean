import SeriesQuery.Compile
import SeriesQuery.Proofs.Expr.Reading
import SeriesQuery.Proofs.Placement.Criteria
import SeriesQuery.Proofs.Statement.Invariant
import SeriesQuery.Proofs.Statement.OnClause

/-!
The conjuncts of a text, and what their equalities are told by.

A conjunct is written in a text when it comes from a condition that is read there, or when
it equates a column that a join names (`Conjunct.written_of_read`). In a scope without dots, an equality between such
conjuncts' columns is told by its text (`erase_eq_of_text_eq`): that is what makes it safe to
drop a criterion that is written like an earlier one.
-/

namespace SeriesQuery

open Text

/-! ### What conjuncts are read from -/

/-- A conjunct as the compiler has it: of a condition that is read somewhere in a text, or
the equality of the columns of one name in two sources. The name is a word of a text; the
sources have any names, made up ones and aliases in quotes among them. -/
inductive Conjunct.Written : Conjunct → Prop where
  | condition {source : String} {lexemes : List Lexeme} {before after : Cursor} {condition : Expr}
      {origin : Origin} {c : Conjunct} (hlex : lex source = .ok lexemes)
      (hbefore : ∀ l ∈ before.after, l ∈ lexemes)
      (hread : Expr.parser before = .ok condition after)
      (hc : c ∈ Conjunct.ofCondition origin condition) : Written c
  | sharedColumn {source : String} {lexemes : List Lexeme} {l : Lexeme} {joined master : Model}
      {column : Ident} (origin : Origin) (hlex : lex source = .ok lexemes) (hl : l ∈ lexemes)
      (hcolumn : l.token = .ident column.name) :
      Written ⟨Compile.sharedColumn joined master column, origin⟩

/-- The conjuncts of a join are written, whatever the sources are that it joins. -/
theorem Conjunct.written_of_read {source : String} {lexemes : List Lexeme} {before after : Cursor}
    {condition : JoinCondition} (hlex : lex source = .ok lexemes)
    (hbefore : ∀ l ∈ before.after, l ∈ lexemes)
    (hread : JoinCondition.parser before = .ok condition after) (i : Nat) (joined master : Model) :
    ∀ c ∈ Compile.onConjuncts i joined master (some condition), c.Written := by
  obtain ⟨names?, c₁, hnames, hsame⟩ := Parser.Answers.nameList? before
  obtain ⟨_, _, hget, hchoice⟩ := Parser.bind_eq_ok.mp hread
  cases hget
  obtain ⟨_, _, hlist, hchoice⟩ := Parser.bind_eq_ok.mp hchoice
  rw [hnames] at hlist
  cases hlist
  cases names? with
  | some names =>
    cases hchoice
    intro c hc
    obtain ⟨name, hname, rfl⟩ := List.mem_map.mp hc
    have hwords : Parser.Ensures (fun t => ∃ l ∈ lexemes, l.token = t) nameList?
        fun names? => ∀ names ∈ names?, ∀ name ∈ names, ∃ l ∈ lexemes, l.token = .ident name.name :=
      Parser.Ensures.iff_keeps.mpr (nameList?_keeps_words id)
    obtain ⟨l, hl, htoken⟩ :=
      (hwords _ _ _ (fun l hl => ⟨l, hbefore l hl, rfl⟩) hnames).2 names rfl name hname
    exact .sharedColumn (.on i) hlex hl htoken
  | none =>
    obtain ⟨_, _, hreset, hchoice⟩ := Parser.bind_eq_ok.mp hchoice
    cases hreset
    rw [hsame.reset_index] at hchoice
    obtain ⟨e, _, hexpr, hchoice⟩ := Parser.bind_eq_ok.mp hchoice
    cases hchoice
    exact fun c hc => .condition hlex hbefore hexpr hc

/-- The columns of a written conjunct have names without spaces. -/
theorem Conjunct.Written.unspaced {c : Conjunct} (h : c.Written) : c.expr.Unspaced := by
  cases h with
  | condition hlex hbefore hread hc =>
    obtain ⟨e, he, rfl⟩ := List.mem_map.mp hc
    have hwords := fun l hl => worded_of_mem_lex hlex (hbefore l hl)
    exact (Expr.unspaced_of_read hwords hread).conjunct he
  | sharedColumn origin hlex hl hcolumn =>
    have hword := worded_of_mem_lex hlex hl _ hcolumn
    intro ref href
    simp only [Compile.sharedColumn, Expr.equality, Expr.columns, List.singleton_append,
      List.mem_cons, List.not_mem_nil, or_false] at href
    rcases href with rfl | rfl
    · exact hword
    · exact hword

/-! ### Scopes without dots -/

namespace Scope

/-- No source and no column of a scope has a dot in its name. -/
def Undotted (s : Scope) : Prop :=
  ∀ entry ∈ s.entries, (∀ name ∈ entry.name, Lacks name '.') ∧
    ∀ column ∈ entry.columns, Lacks column.name '.'

variable {s : Scope}

theorem lacks_dot_of_column? {entry : ScopeEntry} {name : String} {column : ShownColumn}
    (h : ∀ column ∈ entry.columns, Lacks column.name '.') (hc : entry.column? name = some column) :
    Lacks name '.' := by
  obtain ⟨hmem, hsame⟩ := And.intro (List.mem_of_find?_eq_some hc) (List.find?_some hc)
  exact lacks_dot_of_same hsame (h column hmem)

/-- What leads to a source of a scope without dots has no dots either. -/
theorem Undotted.of_leadsTo (hs : s.Undotted) {ref : ColumnRef} {t : Nat}
    (h : s.LeadsTo ref t) : ref.Undotted := by
  obtain ⟨type, h⟩ := h 0
  obtain ⟨qualifier, name⟩ := ref
  cases qualifier with
  | some qualifier =>
    obtain ⟨entry, column, hnamed, hcolumn, -⟩ := resolve_qualified h
    have hmem : (entry, t) ∈ s.named qualifier := by
      rw [hnamed]
      exact List.mem_singleton_self _
    obtain ⟨hentry, hisNamed⟩ := List.mem_filter.mp hmem
    obtain ⟨hname, hcolumns⟩ := hs entry (List.fst_mem_of_mem_zipIdx hentry)
    refine ⟨?_, lacks_dot_of_column? hcolumns hcolumn⟩
    rintro q hq
    obtain rfl := Option.mem_some.mp hq
    obtain ⟨given, hgiven, hsame⟩ := (Option.any_eq_true _ _).mp hisNamed
    exact lacks_dot_of_same hsame (hname given hgiven)
  | none =>
    have hmem : ⟨t, type⟩ ∈ s.holders name := by
      rw [resolve_plain h]
      exact List.mem_singleton_self _
    obtain ⟨⟨entry, i⟩, hentry, hcolumn⟩ := List.mem_filterMap.mp hmem
    obtain ⟨column, hcolumn, -⟩ := Option.map_eq_some_iff.mp hcolumn
    exact ⟨by simp, lacks_dot_of_column? (hs entry (List.fst_mem_of_mem_zipIdx hentry)).2 hcolumn⟩

end Scope

/-! ### Equalities of written conjuncts -/

namespace Placement

variable {scope : Scope}

/-- An equality of a written conjunct, in a scope without dots, is one of legible references. -/
theorem references_of_equality (hscope : scope.Undotted) {e : Expr} {q : Equality}
    (he : e.Unspaced) (hq : equalityOf scope e = .ok (some q)) :
    ∃ l r lp rp, q.left = .column l lp ∧ q.right = .column r rp ∧ l.Legible ∧ r.Legible := by
  obtain ⟨l, r, lp, rp, p, rfl, hleft, hright, hl, hr, -⟩ := equalityOf_eq_some hq
  exact ⟨l, r, lp, rp, hleft, hright,
    ⟨hscope.of_leadsTo hl, he (l, lp) (by simp [Expr.columns])⟩,
    ⟨hscope.of_leadsTo hr, he (r, rp) (by simp [Expr.columns])⟩⟩

/-- The same of the equality seen from one of its sources. -/
theorem references_startingAt (hscope : scope.Undotted) {e : Expr} {q : Equality}
    (he : e.Unspaced) (hq : equalityOf scope e = .ok (some q)) (s : Nat) :
    ∃ l r lp rp, q.startingAt s = .equality (.column l lp) (.column r rp) ∧ l.Legible ∧
      r.Legible := by
  obtain ⟨l, r, lp, rp, hleft, hright, hl, hr⟩ := references_of_equality hscope he hq
  rcases q.startingAt_eq s with heq | heq
  · exact ⟨l, r, lp, rp, by rw [heq, hleft, hright], hl, hr⟩
  · exact ⟨r, l, rp, lp, by rw [heq, hleft, hright], hr, hl⟩

/-- **Equalities that are written alike are the same**, but for their positions. -/
theorem erase_eq_of_text_eq (hscope : scope.Undotted) {e e' : Expr} {q q' : Equality}
    (he : e.Unspaced) (he' : e'.Unspaced) (hq : equalityOf scope e = .ok (some q))
    (hq' : equalityOf scope e' = .ok (some q')) {s s' : Nat}
    (h : (q.startingAt s).text = (q'.startingAt s').text) :
    (q.startingAt s).erase = (q'.startingAt s').erase := by
  obtain ⟨l, r, lp, rp, heq, hl, hr⟩ := references_startingAt hscope he hq s
  obtain ⟨l', r', lp', rp', heq', hl', hr'⟩ := references_startingAt hscope he' hq' s'
  rw [heq, heq'] at h ⊢
  obtain ⟨rfl, rfl⟩ := Expr.sides_of_text_eq hl hr hl' hr' h
  rfl

end Placement

end SeriesQuery
