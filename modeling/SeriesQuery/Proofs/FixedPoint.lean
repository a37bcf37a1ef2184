import SeriesQuery.Proofs.Statement.Filter

/-!
Filters compiled again.

A canonical text is meant to be a fixed point of compilation. For a table with a condition it is
one as long as no operator is drawn into a `not` of the text: `not` takes in what follows it up to
`and`, also behind the parentheses it is printed with (`compile_filter_again`,
`comparison_drawn_into_not`).
-/

namespace SeriesQuery

/-- The text of a table with a filter. -/
theorem Model.text_ofFilter (name : String) (table : Table) (filter : Expr) :
    (ofFilter name table filter).text = name ++ " where " ++ filter.text := by
  simp [ofFilter, ofTable, ofSource, text, textWith, sourceText, joinsText, clauseText,
    listClauseText, String.append_assoc]

variable {env : Environment} {sql : String} {r : Compiled} {name : Ident} {condition : Expr}

/-- **A canonical filter is a fixed point of compilation**: what a table with a condition compiles
to compiles to the same text again. The condition nests no deeper than half of what may be nested,
its conjuncts have columns, and no operator that binds at least as tightly as a comparison follows
a `not` in its text. -/
theorem compile_filter_again
    (hsql : Statement.ofText sql = .ok (.query (.ofFilter name.position name condition)))
    (hr : compile env sql = .ok r) (hdepth : 2 * condition.depth ≤ maxNesting)
    (hcolumns : ∀ c ∈ condition.pushNegations.conjuncts, c.columns ≠ [])
    (hnots : condition.pushNegations.notsApart = true) :
    ∃ again, compile env r.text = .ok again ∧ again.text = r.text := by
  obtain ⟨hname, hcreate, hselect, htokens⟩ := Statement.tokens_of_filter hsql
  -- the first compilation puts the filter on the table
  obtain ⟨m, hm, rfl⟩ : ∃ m, Query.compile env (.ofFilter name.position name condition) = .ok m ∧
      r = .query m := by
    obtain ⟨statement, hstatement, hr⟩ := Except.bind_eq_ok.mp hr
    obtain rfl := Except.ok.inj (hsql.symm.trans hstatement)
    obtain ⟨m, hm, h⟩ := Except.bind_eq_ok.mp hr
    cases h
    exact ⟨m, hm, rfl⟩
  obtain ⟨table, htable, hlead⟩ := Query.columns_of_compile hm
  rw [Query.compile_ofFilter name htable fun c hc => ⟨hcolumns c hc, hlead c hc⟩] at hm
  cases hm
  -- its text is read as the filter, but for the spelling of its calls
  obtain ⟨p, q, read, hread, hfilter⟩ := Statement.ofText_filter hname hcreate hselect
    htokens.filtered (Expr.notsApart_filtered hnots)
    (Nat.le_trans condition.depth_filtered_le hdepth)
  have hagain : ∀ c ∈ read.pushNegations.conjuncts, c.columns ≠ [] ∧
      ∀ ref ∈ c.columns, (Scope.ofTable name.name table).LeadsTo ref.1 0 := by
    intro c hc
    obtain ⟨d, hd, hperm⟩ := Expr.exists_conjunct_of_read hfilter hc
    constructor
    · intro hnil
      have hnone : d.references = [] := List.perm_nil.mp (by simpa [Expr.references, hnil] using hperm.symm)
      exact hcolumns d hd (List.map_eq_nil_iff.mp hnone)
    · intro ref href
      obtain ⟨ref', href', heq⟩ := List.mem_map.mp (hperm.mem_iff.mp (List.mem_map_of_mem href))
      exact heq ▸ hlead d hd ref' href'
  have hmodel := Query.compile_ofFilter ⟨name.name, q⟩ (p := p) htable hagain
  refine ⟨.query (.ofFilter name.name table read.filtered), ?_, ?_⟩
  · simp only [Compiled.text, Model.text_ofFilter, compile, hread]
    exact Except.bind_eq_ok.mpr ⟨_, rfl, Except.bind_eq_ok.mpr ⟨_, hmodel, rfl⟩⟩
  · simp only [Compiled.text, Model.text_ofFilter, Expr.text_filtered_again hfilter]

/-- A table `t` with the columns `a` and `b`. -/
def tableOfTwo : Environment where
  table? name :=
    if Ascii.same name "t" then
      some (((Table.empty "t").withColumn "a" .boolean).withColumn "b" .boolean)
    else none
  settings := .standard

/-- The condition `not a = 1`, as it is read behind `t where`. -/
def negatedComparison : Expr :=
  .unary .not (.binary .eq (.column (.plain "a") 12) (.constant "1" 16) 14) 8

theorem ofText_negatedComparison :
    Statement.ofText "t where not a = 1" =
      .ok (.query (.ofFilter (Ident.mk "t" 0).position ⟨"t", 0⟩ negatedComparison)) := by
  have hcursor : Cursor.ofText "t where not a = 1" =
      .ok ⟨[], [⟨.ident "t", 0, 1⟩, ⟨.ident "where", 2, 7⟩, ⟨.ident "not", 8, 11⟩,
        ⟨.ident "a", 12, 13⟩, ⟨.op "=", 14, 15⟩, ⟨.number "1", 16, 17⟩], 16, 0⟩ := by
    decide +kernel
  simp only [Statement.ofText, hcursor]
  rfl

theorem compile_filter_again_negatedComparison :
    ∃ r again, compile tableOfTwo "t where not a = 1" = .ok r ∧
      compile tableOfTwo r.text = .ok again ∧ again.text = r.text := by
  have hr : (compile tableOfTwo "t where not a = 1").toOption.isSome = true := by decide +kernel
  obtain ⟨r, hr⟩ : ∃ r, compile tableOfTwo "t where not a = 1" = .ok r := by
    cases h : compile tableOfTwo "t where not a = 1" with
    | ok r => exact ⟨r, rfl⟩
    | error e =>
      rw [h] at hr
      cases hr
  obtain ⟨again, hagain, htext⟩ :=
    compile_filter_again ofText_negatedComparison hr (by decide) (by decide) (by decide)
  exact ⟨r, again, hr, hagain, htext⟩

/-- Behind the parentheses of a `not` the comparison is drawn into it. -/
theorem comparison_drawn_into_not :
    (compile tableOfTwo "t where (not a) = b").toOption.map Compiled.text =
        some "t where not(a) = b" ∧
      (compile tableOfTwo "t where not(a) = b").toOption.map Compiled.text = some "t where a != b" := by
  decide +kernel

end SeriesQuery
