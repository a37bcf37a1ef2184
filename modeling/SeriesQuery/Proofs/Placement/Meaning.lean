import SeriesQuery.Proofs.Interpretation
import SeriesQuery.Proofs.Placement.Evaluable
import SeriesQuery.Proofs.Placement.Written

/-!
Placement keeps the meaning of the conditions of inner and cross joins.

A conjunct is kept as it is, turned round, or dropped because it is written like another
one; what is added follows from a chain of equalities that the conjuncts state. So a row
satisfies all conjuncts exactly when it satisfies everything that is placed
(`placed_iff_conjuncts`).
-/

namespace SeriesQuery

namespace Placement

open Relation

variable {scope : Scope} {kinds : JoinKinds} {conjuncts : List Conjunct} {p : Placement}
  {Value : Type} {I : Interpretation Value} {row : ColumnKey → Value}

/-! ### Everything that is placed -/

/-- All conditions of a placement, wherever they are evaluated. -/
def conditions (p : Placement) : List Expr :=
  p.filters.flatten ++ p.criteria.flatten ++ p.postJoin.flatten ++ p.constFilters

theorem mem_flatten_iff {ls : List (List Expr)} {e : Expr} :
    e ∈ ls.flatten ↔ ∃ s, e ∈ ls.getD s [] := by
  rw [List.mem_flatten]
  constructor
  · rintro ⟨l, hl, he⟩
    obtain ⟨s, hs⟩ := List.getElem?_of_mem hl
    exact ⟨s, by simpa [List.getD_eq_getElem?_getD, hs] using he⟩
  · rintro ⟨s, he⟩
    rw [List.getD_eq_getElem?_getD] at he
    cases hs : ls[s]? with
    | none => simp [hs] at he
    | some l => exact ⟨l, List.mem_of_getElem? hs, by simpa [hs] using he⟩

theorem mem_conditions {e : Expr} :
    e ∈ p.conditions ↔ (∃ s, e ∈ p.filters.getD s []) ∨ (∃ s, e ∈ p.criteria.getD s []) ∨
      (∃ s, e ∈ p.postJoin.getD s []) ∨ e ∈ p.constFilters := by
  simp only [conditions, List.mem_append, mem_flatten_iff, or_assoc]

/-! ### Equalities -/

/-- An equality compares what the row has for its two columns. -/
theorem satisfies_iff_of_spells {e : Expr} {q : Equality} {a b : ColumnKey}
    (hq : equalityOf scope e = .ok (some q)) (h : q.Spells a b) :
    I.Satisfies scope row e ↔ I.Equal (row a) (row b) := by
  obtain ⟨l, r, lp, rp, p, rfl, hleft, hright, hl, hr, -⟩ := equalityOf_eq_some hq
  obtain ⟨ha, hb⟩ := h
  rw [hleft] at ha
  rw [hright] at hb
  obtain rfl : ColumnKey.ofRef q.leftSource l = a := Option.some.inj ha
  obtain rfl : ColumnKey.ofRef q.rightSource r = b := Option.some.inj hb
  rw [Interpretation.satisfies_eq_iff, Operations.valueIn_column hl, Operations.valueIn_column hr]

theorem equal_of_equates (hI : I.Lawful) {e : Expr} {q : Equality} {a b : ColumnKey}
    (hq : equalityOf scope e = .ok (some q)) (h : q.Equates a b)
    (he : I.Satisfies scope row e) : I.Equal (row a) (row b) := by
  rcases h with h | h
  · exact (satisfies_iff_of_spells hq h).mp he
  · exact hI.symm ((satisfies_iff_of_spells hq h).mp he)

/-- An equality may be turned round. -/
theorem satisfies_startingAt_iff (hI : I.Lawful) {e : Expr} {q : Equality}
    (hq : equalityOf scope e = .ok (some q)) (s : Nat) :
    I.Satisfies scope row (q.startingAt s) ↔ I.Satisfies scope row e := by
  obtain ⟨l, r, lp, rp, p, rfl, hleft, hright, -⟩ := equalityOf_eq_some hq
  rcases q.startingAt_eq s with heq | heq
  · rw [heq, hleft, hright, Expr.equality, Interpretation.satisfies_eq_iff,
      Interpretation.satisfies_eq_iff]
  · rw [heq, hleft, hright, Expr.equality, Interpretation.satisfies_eq_iff,
      Interpretation.satisfies_eq_iff]
    exact ⟨hI.symm, hI.symm⟩

/-- What chains of equal columns lead to from a column is equal to it. -/
theorem equal_of_chain (hI : I.Lawful) {R : ColumnKey → ColumnKey → Prop}
    (hR : ∀ a b, R a b → I.Equal (row a) (row b)) {a b : ColumnKey} (h : ReflTransGen R a b) :
    a = b ∨ I.Equal (row a) (row b) := by
  induction h with
  | refl => exact Or.inl rfl
  | tail _ hlast ih =>
    rcases ih with rfl | ih
    · exact Or.inr (hR _ _ hlast)
    · exact Or.inr (hI.trans ih (hR _ _ hlast))

/-- An equality with a constant says that the row has a value equal to it. -/
theorem equal_of_constantOf? (hI : I.Lawful) {e : Expr} {column : ColumnRef} {constant : Expr}
    {s : Nat} (hconstant : constantOf? e = some (column, constant))
    (hlead : scope.LeadsTo column s) (he : I.Satisfies scope row e) :
    I.Equal (row (.ofRef s column)) (I.valueIn scope row constant) := by
  obtain ⟨cp, text, kp, p, rfl, rfl | rfl⟩ := constantOf?_eq_some hconstant
  · rw [Interpretation.satisfies_eq_iff, Operations.valueIn_column hlead] at he
    exact he
  · rw [Interpretation.satisfies_eq_iff, Operations.valueIn_column hlead] at he
    exact hI.symm he

/-- A filter that a constant brings holds wherever the equalities on its way hold. -/
theorem satisfies_of_chain (hI : I.Lawful) {R : ColumnKey → ColumnKey → Prop}
    (hR : ∀ a b, R a b → I.Equal (row a) (row b)) {e : Expr} {column ref : ColumnRef}
    {constant : Expr} {s t q : Nat} (hconstant : constantOf? e = some (column, constant))
    (hcolumn : scope.LeadsTo column s) (hlead : scope.LeadsTo ref t)
    (hchain : ReflTransGen R (.ofRef s column) (.ofRef t ref)) (he : I.Satisfies scope row e) :
    I.Satisfies scope row (.equality (.column ref q) constant) := by
  have hvalue := equal_of_constantOf? hI hconstant hcolumn he
  rw [Expr.equality, Interpretation.satisfies_eq_iff, Operations.valueIn_column hlead]
  rcases equal_of_chain hI hR hchain with heq | hequal
  · exact heq ▸ hvalue
  · exact hI.trans (hI.symm hequal) hvalue

/-! ### Inner and cross joins -/

/-- All joins of a level are inner or cross joins. -/
def JoinsFreely (kinds : JoinKinds) : Prop :=
  ∀ kind ∈ kinds, kind = none ∨ kind = some .inner ∨ kind = some .cross

theorem JoinsFreely.isFixed (h : JoinsFreely kinds) (s : Nat) : kinds.isFixed s = false := by
  rw [JoinKinds.isFixed, List.getD_eq_getElem?_getD]
  cases hs : kinds[s]? with
  | none => rfl
  | some kind =>
    rcases h kind (List.mem_of_getElem? hs) with rfl | rfl | rfl
    · rfl
    · rfl
    · rfl

theorem JoinsFreely.timeJoin? (h : JoinsFreely kinds) : kinds.timeJoin? = none := by
  rw [JoinKinds.timeJoin?, List.findIdx?_eq_none_iff]
  intro kind hmem
  rcases h kind hmem with rfl | rfl | rfl
  · rfl
  · rfl
  · rfl

/-- A row that satisfies the conjuncts satisfies every filter. -/
theorem satisfies_filter (hI : I.Lawful) (h : place scope kinds conjuncts = .ok p)
    (hrow : ∀ c ∈ conjuncts, I.Satisfies scope row c.expr) {s : Nat} {e : Expr}
    (he : e ∈ p.filters.getD s []) : I.Satisfies scope row e := by
  obtain ⟨placed, hplaced, rfl⟩ := place_ok h
  rcases mem_of_mem_sourceFilters (mem_bySource.mp he).2 with hown | hbrought
  · rcases mem_ownFilters.mp hown with hmem | hmem
    · obtain ⟨c, hc, rfl, -⟩ := (mem_destinations hplaced).mp hmem
      exact hrow c hc
    · obtain ⟨c, hc, rfl, -⟩ := (mem_destinations hplaced).mp hmem
      exact hrow c hc
  · obtain ⟨c, hc, s', column, constant, ref, q, hd, hconstant, rfl, hlead, -, hchain⟩ :=
      propagated_chain hplaced hbrought
    obtain ⟨sources, hs, -, -, rfl⟩ := destination_suits hd
    refine satisfies_of_chain hI ?_ hconstant ((leadsTo_of_constantOf? hconstant).mp hs) hlead
      hchain (hrow c hc)
    rintro a b ⟨c', hc', q', hq', -, hequates⟩
    exact equal_of_equates hI hq' hequates (hrow c' hc')

theorem satisfies_placed (hI : I.Lawful) (hlen : kinds.length = scope.entries.length)
    (h : place scope kinds conjuncts = .ok p)
    (hrow : ∀ c ∈ conjuncts, I.Satisfies scope row c.expr) {e : Expr} (he : e ∈ p.conditions) :
    I.Satisfies scope row e := by
  rcases mem_conditions.mp he with ⟨s, he⟩ | ⟨s, he⟩ | ⟨s, he⟩ | he
  · exact satisfies_filter hI h hrow he
  · obtain ⟨c, hc, q, hq, rfl, -⟩ := criterion_conjunct hlen h he
    exact (satisfies_startingAt_iff hI hq s).mpr (hrow c hc)
  · obtain ⟨placed, hplaced, rfl⟩ := place_ok h
    rcases mem_postJoinFilters.mp (mem_bySource.mp he).2 with hmem | ⟨ss, hmem, -⟩
    · obtain ⟨c, hc, rfl, -⟩ := (mem_destinations hplaced).mp hmem
      exact hrow c hc
    · obtain ⟨c, hc, rfl, -⟩ := (mem_destinations hplaced).mp hmem
      exact hrow c hc
  · obtain ⟨placed, hplaced, rfl⟩ := place_ok h
    obtain ⟨c, hc, rfl, -⟩ := (mem_destinations hplaced).mp (mem_constantFilters.mp he)
    exact hrow c hc

/-- Every conjunct is among the conditions, or an equality that is written like it is. -/
theorem satisfies_conjunct (hI : I.Lawful) (hlen : kinds.length = scope.entries.length)
    (hkinds : JoinsFreely kinds) (hscope : scope.Undotted)
    (hunspaced : ∀ c ∈ conjuncts, c.expr.Unspaced) (h : place scope kinds conjuncts = .ok p)
    (hrow : ∀ e ∈ p.conditions, I.Satisfies scope row e) {c : Conjunct} (hc : c ∈ conjuncts) :
    I.Satisfies scope row c.expr := by
  obtain ⟨placed, hplaced, hp⟩ := place_ok h
  obtain ⟨d, hd, hmem⟩ := exists_destination hplaced hc
  obtain ⟨sources, hs, hsuits⟩ := destination_suits hd
  have hlt : ∀ s ∈ sources, s < kinds.length := by
    intro s hmem
    obtain ⟨ref, -, hlead⟩ := (Scope.mem_sourcesOf hs).mp hmem
    exact hlen ▸ hlead.lt_length
  cases d with
  | constant =>
    refine hrow _ (mem_conditions.mpr (Or.inr (Or.inr (Or.inr ?_))))
    rw [hp]
    exact mem_constantFilters.mpr hmem
  | ownCriterion j q => exact absurd hsuits.2.1 (by simp [hkinds.isFixed])
  | ownFilter j => exact absurd hsuits.2.1 (by simp [hkinds.isFixed])
  | edge q =>
    obtain ⟨horigin, hq, hl, hr⟩ := hsuits
    obtain ⟨e, he, htext⟩ := exists_text_eq_mem_criteria hlen h hc horigin hq hl hr
    -- The criterion may come from another conjunct; it is the same but for positions.
    have hholds := hrow e (mem_conditions.mpr (Or.inr (Or.inl ⟨_, he⟩)))
    obtain ⟨c', hc', q', hq', rfl, -⟩ := criterion_conjunct hlen h he
    have herase := erase_eq_of_text_eq hscope (hunspaced c' hc') (hunspaced c hc) hq' hq htext
    rw [Interpretation.Satisfies, Operations.valueIn_eq_of_erase_eq herase] at hholds
    exact (satisfies_startingAt_iff hI hq _).mp hholds
  | filter s =>
    obtain ⟨-, -, rfl⟩ := hsuits
    refine hrow _ (mem_conditions.mpr (Or.inl ⟨s, ?_⟩))
    rw [hp]
    exact mem_bySource.mpr ⟨hlt s List.mem_cons_self,
      mem_sourceFilters_of_own (mem_ownFilters.mpr (Or.inr hmem))⟩
  | afterJoin j =>
    rcases hsuits with ⟨-, hj⟩ | ⟨-, htime, -⟩
    · exact absurd hj (by simp [hkinds.isFixed])
    · exact absurd htime (by simp [hkinds.timeJoin?])
  | afterAll ss =>
    obtain ⟨-, rfl, hne⟩ := hsuits
    refine hrow _ (mem_conditions.mpr (Or.inr (Or.inr (Or.inl ⟨lastOf p.order ss, ?_⟩))))
    rw [hp]
    exact mem_bySource.mpr ⟨hlt _ (lastOf_mem _ hne),
      mem_postJoinFilters.mpr (Or.inr ⟨ss, hmem, rfl⟩)⟩

/-- **Placement keeps the meaning of inner and cross joins.** Whatever the signs mean, as long
as `=` is symmetric and transitive, a row satisfies all conjuncts exactly when it satisfies
all conditions that are placed. -/
theorem placed_iff_conjuncts (hI : I.Lawful) (hlen : kinds.length = scope.entries.length)
    (hkinds : JoinsFreely kinds) (hscope : scope.Undotted)
    (hwritten : ∀ c ∈ conjuncts, c.Written) (h : place scope kinds conjuncts = .ok p) :
    (∀ c ∈ conjuncts, I.Satisfies scope row c.expr) ↔
      ∀ e ∈ p.conditions, I.Satisfies scope row e := by
  constructor
  · intro hrow e he
    exact satisfies_placed hI hlen h hrow he
  · intro hrow c hc
    exact satisfies_conjunct hI hlen hkinds hscope (fun c hc => (hwritten c hc).unspaced) h hrow hc

/-- The lexemes of `a.x = b.y and b.y = 7`. -/
def chainLexemes : List Lexeme :=
  [⟨.ident "a.x", 0, 3⟩, ⟨.op "=", 4, 5⟩, ⟨.ident "b.y", 6, 9⟩, ⟨.ident "and", 10, 13⟩,
    ⟨.ident "b.y", 14, 17⟩, ⟨.op "=", 18, 19⟩, ⟨.number "7", 20, 21⟩]

theorem lex_chain : lex "a.x = b.y and b.y = 7" = .ok chainLexemes := by
  have h : (lex "a.x = b.y and b.y = 7").toOption = some chainLexemes := by decide +kernel
  cases hlex : lex "a.x = b.y and b.y = 7" with
  | error e => simp [hlex, Except.toOption] at h
  | ok lexemes => simpa [hlex, Except.toOption] using h

/-- The condition that those lexemes spell. -/
def chainCondition : Expr :=
  .binary .and
    (.binary .eq (.column (.qualified "a" "x") 0) (.column (.qualified "b" "y") 6) 4)
    (.binary .eq (.column (.qualified "b" "y") 14) (.constant "7" 20) 18) 10

/-- A row of sevens satisfies everything that is placed for `a.x = b.y and b.y = 7`. -/
theorem placed_iff_conjuncts_chain :
    ∃ p, place threeSources [none, some .inner, some .cross]
        (Conjunct.ofCondition (.on 1) chainCondition) = .ok p ∧
      ∀ e ∈ p.conditions, Interpretation.numbers.Satisfies threeSources (fun _ => 7) e := by
  obtain ⟨p, h⟩ : ∃ p, place threeSources [none, some .inner, some .cross]
      (Conjunct.ofCondition (.on 1) chainCondition) = .ok p := ⟨_, rfl⟩
  refine ⟨p, h, (placed_iff_conjuncts Interpretation.numbers_lawful rfl (by simp [JoinsFreely])
    (by simp [Scope.Undotted, threeSources, Text.Lacks]) ?_ h).mp ?_⟩
  · intro c hc
    have hread : Expr.parser ⟨[], chainLexemes, 20, 0⟩ =
        .ok chainCondition ⟨chainLexemes.reverse, [], 20, 0⟩ := rfl
    exact .condition lex_chain (fun l hl => hl) hread hc
  · intro c hc
    rcases List.mem_cons.mp hc with rfl | hc
    · exact Nat.one_ne_zero
    · obtain rfl := List.mem_singleton.mp hc
      exact Nat.one_ne_zero

end Placement

end SeriesQuery
