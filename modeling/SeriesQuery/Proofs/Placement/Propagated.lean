import SeriesQuery.Proofs.Join.Equivalence
import SeriesQuery.Proofs.Placement.Destination

/-!
The filters that constants bring to other columns, read off the conjuncts.

`Links` says which equalities are recorded as known, by the clause they stand in, and
`Recorded` which columns they link. A filter is brought from a constant to a column exactly
when a chain of recorded equalities leads there: `propagated_chain` and
`exists_propagated` are the two directions.
-/

namespace SeriesQuery.Placement

open Relation

variable {scope : Scope} {kinds : JoinKinds} {conjuncts : List Conjunct}
  {placed : List (Expr × Destination)}

/-! ### Recorded equalities -/

/-- An equality in the given clause is recorded: in a clause that filters if it may relate
both its sources, and in the `on` of a fixed source if it ties that source to an earlier
one. -/
def Links (kinds : JoinKinds) (origin : Origin) (q : Equality) : Prop :=
  (origin.Filters kinds ∧ mayRelate kinds origin q.leftSource = true ∧
    mayRelate kinds origin q.rightSource = true) ∨
  ∃ j, origin = .on j ∧ kinds.isFixed j = true ∧ q.touches j = true ∧ q.partnerOf j < j

/-- Some conjunct equates two columns, and its equality is recorded. -/
def Recorded (scope : Scope) (kinds : JoinKinds) (conjuncts : List Conjunct)
    (a b : ColumnKey) : Prop :=
  ∃ c ∈ conjuncts, ∃ q, equalityOf scope c.expr = .ok (some q) ∧ Links kinds c.origin q ∧
    q.Equates a b

theorem destination_edge {c : Conjunct} {sources : List Nat} {q : Equality}
    (horigin : c.origin.Filters kinds) (hs : scope.sourcesIn c.expr = .ok sources)
    (hq : equalityOf scope c.expr = .ok (some q))
    (hl : mayRelate kinds c.origin q.leftSource = true)
    (hr : mayRelate kinds c.origin q.rightSource = true) :
    destination scope kinds c = .ok (.edge q) := by
  have hmem := (mem_sources_of_equality hs hq).mpr q.touches_left
  rw [destination_of_filters horigin hs (List.ne_nil_of_mem hmem) hq]
  simp [innerDestination, hl, hr]

theorem destination_ownCriterion {c : Conjunct} {sources : List Nat} {q : Equality} {j : Nat}
    (horigin : c.origin = .on j) (hj : kinds.isFixed j = true)
    (hs : scope.sourcesIn c.expr = .ok sources) (hq : equalityOf scope c.expr = .ok (some q))
    (ht : q.touches j = true) (hp : q.partnerOf j < j) :
    destination scope kinds c = .ok (.ownCriterion j q) := by
  have hmem := (mem_sources_of_equality hs hq).mpr ht
  rw [destination_of_on_fixed horigin hj hs (List.ne_nil_of_mem hmem) hq]
  simp [onDestination, hp, hmem]

/-- The recorded equalities are those of the conjuncts, by their clauses. -/
theorem mem_equalities_iff (h : destinations scope kinds conjuncts = .ok placed) {q : Equality} :
    q ∈ equalities placed ↔
      ∃ c ∈ conjuncts, equalityOf scope c.expr = .ok (some q) ∧ Links kinds c.origin q := by
  rw [mem_equalities]
  constructor
  · rintro ⟨e, hmem | ⟨j, hmem⟩⟩
    · obtain ⟨c, hc, rfl, hd⟩ := (mem_destinations h).mp hmem
      obtain ⟨sources, -, horigin, hq, hl, hr⟩ := destination_suits hd
      exact ⟨c, hc, hq, Or.inl ⟨horigin, hl, hr⟩⟩
    · obtain ⟨c, hc, rfl, hd⟩ := (mem_destinations h).mp hmem
      obtain ⟨sources, -, horigin, hj, hq, ht, hp⟩ := destination_suits hd
      exact ⟨c, hc, hq, Or.inr ⟨j, horigin, hj, ht, hp⟩⟩
  · rintro ⟨c, hc, hq, hlinks⟩
    obtain ⟨d, hd, hmem⟩ := exists_destination h hc
    obtain ⟨sources, hs, -⟩ := destination_suits hd
    refine ⟨c.expr, ?_⟩
    rcases hlinks with ⟨horigin, hl, hr⟩ | ⟨j, horigin, hj, ht, hp⟩
    · rw [destination_edge horigin hs hq hl hr] at hd
      cases hd
      exact Or.inl hmem
    · rw [destination_ownCriterion horigin hj hs hq ht hp] at hd
      cases hd
      exact Or.inr ⟨j, hmem⟩

theorem chained_equalities_iff (h : destinations scope kinds conjuncts = .ok placed)
    {a b : ColumnKey} :
    Equivalence.Chained (equalities placed) a b ↔
      ReflTransGen (Recorded scope kinds conjuncts) a b := by
  have hlink : (fun a b => ∃ e ∈ equalities placed, e.Equates a b) =
      Recorded scope kinds conjuncts := by
    funext a b
    apply propext
    constructor
    · rintro ⟨q, hq, hequates⟩
      obtain ⟨c, hc, heq, hlinks⟩ := (mem_equalities_iff h).mp hq
      exact ⟨c, hc, q, heq, hlinks, hequates⟩
    · rintro ⟨c, hc, q, heq, hlinks, hequates⟩
      exact ⟨q, (mem_equalities_iff h).mpr ⟨c, hc, heq, hlinks⟩, hequates⟩
  rw [Equivalence.Chained, hlink]

/-- What an equality mentions is a column of the source that its key names. -/
theorem column_of_mentions {e : Expr} {q : Equality} {key : ColumnKey} {spelling : Expr}
    (hq : equalityOf scope e = .ok (some q)) (h : q.Mentions key spelling) :
    ∃ ref p, spelling = .column ref p ∧ key = .ofRef key.source ref ∧
      scope.LeadsTo ref key.source := by
  obtain ⟨l, r, lp, rp, -, -, hleft, hright, hl, hr, -⟩ := equalityOf_eq_some hq
  rcases h with ⟨hkey, rfl⟩ | ⟨hkey, rfl⟩
  · rw [hleft] at hkey
    obtain rfl : ColumnKey.ofRef q.leftSource l = key := Option.some.inj hkey
    exact ⟨l, lp, hleft, rfl, hl⟩
  · rw [hright] at hkey
    obtain rfl : ColumnKey.ofRef q.rightSource r = key := Option.some.inj hkey
    exact ⟨r, rp, hright, rfl, hr⟩

/-! ### Constants -/

/-- A condition that equates a column and a constant has them on its two sides. -/
theorem constantOf?_eq_some {e : Expr} {column : ColumnRef} {constant : Expr}
    (h : constantOf? e = some (column, constant)) :
    ∃ cp text kp p, constant = .constant text kp ∧
      (e = .binary .eq (.column column cp) constant p ∨
        e = .binary .eq constant (.column column cp) p) := by
  unfold constantOf? at h
  split at h
  · rename_i left right p
    cases left <;> cases right <;> simp only [Expr.column?, Expr.isConstant, if_true,
      Option.some.injEq, Prod.mk.injEq, reduceCtorEq, Bool.false_eq_true, if_false] at h
    · obtain ⟨rfl, rfl⟩ := h
      exact ⟨_, _, _, _, rfl, Or.inl rfl⟩
    · obtain ⟨rfl, rfl⟩ := h
      exact ⟨_, _, _, _, rfl, Or.inr rfl⟩
  · cases h

/-- The column of a conjunct that equates it with a constant is the only one it reads. -/
theorem leadsTo_of_constantOf? {e : Expr} {column : ColumnRef} {constant : Expr} {s : Nat}
    (h : constantOf? e = some (column, constant)) :
    scope.sourcesIn e = .ok [s] ↔ scope.LeadsTo column s := by
  have hcolumns : ∃ cp, e.columns = [(column, cp)] := by
    obtain ⟨cp, text, kp, p, rfl, rfl | rfl⟩ := constantOf?_eq_some h
    · exact ⟨cp, rfl⟩
    · exact ⟨cp, rfl⟩
  obtain ⟨cp, hcolumns⟩ := hcolumns
  rw [Scope.sourcesIn, hcolumns]
  constructor
  · intro hs
    obtain ⟨r, others, hr, hothers, heq⟩ := Scope.sourcesOf_cons hs
    cases hothers
    obtain rfl : s = r.source := by simpa [Scope.sourcesOf.insertSource] using heq
    exact Scope.leadsTo_of_resolve hr
  · intro hlead
    obtain ⟨type, hr⟩ := hlead cp
    simp [Scope.sourcesOf, hr, Scope.sourcesOf.insertSource]

/-! ### What constants bring -/

/-- A filter that a constant brings stands on a column that recorded equalities link to a
column with that constant. -/
theorem propagated_chain (h : destinations scope kinds conjuncts = .ok placed) {t : Nat}
    {f : Expr} (hf : (t, f) ∈ propagated placed) :
    ∃ c ∈ conjuncts, ∃ s column constant ref p, destination scope kinds c = .ok (.filter s) ∧
      constantOf? c.expr = some (column, constant) ∧ f = .equality (.column ref p) constant ∧
      scope.LeadsTo ref t ∧ t ≠ s ∧
      ReflTransGen (Recorded scope kinds conjuncts) (.ofRef s column) (.ofRef t ref) := by
  obtain ⟨s, column, constant, e, hconstant, hequal, rfl⟩ := mem_propagated.mp hf
  obtain ⟨e', hmem, hconstant⟩ := mem_constants.mp hconstant
  obtain ⟨c, hc, rfl, hd⟩ := (mem_destinations h).mp hmem
  obtain ⟨hne, key, rfl, hlookup, hchain⟩ := Equivalence.mem_equalColumns.mp hequal
  obtain ⟨q, hq, hmentions⟩ := Equivalence.lookup_ofEqualities hlookup
  obtain ⟨c', -, heq, -⟩ := (mem_equalities_iff h).mp hq
  obtain ⟨ref, p, rfl, hkey, hlead⟩ := column_of_mentions heq hmentions
  refine ⟨c, hc, s, column, constant, ref, p, hd, hconstant, rfl, hlead, hne, ?_⟩
  rw [hkey] at hchain
  exact (chained_equalities_iff h).mp hchain

/-- Every column of another source that recorded equalities link to a column with a constant
is brought that constant. -/
theorem exists_propagated (h : destinations scope kinds conjuncts = .ok placed) {c : Conjunct}
    (hc : c ∈ conjuncts) {s : Nat} {column : ColumnRef} {constant : Expr} {key : ColumnKey}
    (hd : destination scope kinds c = .ok (.filter s))
    (hconstant : constantOf? c.expr = some (column, constant)) (hne : key.source ≠ s)
    (hchain : ReflTransGen (Recorded scope kinds conjuncts) (.ofRef s column) key) :
    ∃ ref p, key = .ofRef key.source ref ∧ scope.LeadsTo ref key.source ∧
      (key.source, .equality (.column ref p) constant) ∈ propagated placed := by
  have hmem := (mem_destinations h).mpr ⟨c, hc, rfl, hd⟩
  -- The chain is not empty, so its last link mentions the column it ends at.
  have hmentioned : ∃ q ∈ equalities placed, ∃ spelling, q.Mentions key spelling := by
    rcases ReflTransGen.cases_tail hchain with heq | ⟨before, -, hlink⟩
    · exact absurd (congrArg ColumnKey.source heq) hne
    · obtain ⟨c', hc', q, hq, hlinks, hequates⟩ := hlink
      exact ⟨q, (mem_equalities_iff h).mpr ⟨c', hc', hq, hlinks⟩, hequates.symm.exists_mentions⟩
  obtain ⟨q, hq, spelling, hmentions⟩ := hmentioned
  obtain ⟨e, hlookup⟩ :=
    Option.isSome_iff_exists.mp (Equivalence.isSome_lookup_of_mentions (q := .empty) hq hmentions)
  obtain ⟨q', hq', hmentions'⟩ := Equivalence.lookup_ofEqualities hlookup
  obtain ⟨c', -, heq, -⟩ := (mem_equalities_iff h).mp hq'
  obtain ⟨ref, p, rfl, hkey, hlead⟩ := column_of_mentions heq hmentions'
  refine ⟨ref, p, hkey, hlead, mem_propagated.mpr ⟨s, column, constant, _,
    mem_constants.mpr ⟨c.expr, hmem, hconstant⟩, ?_, rfl⟩⟩
  exact Equivalence.mem_equalColumns.mpr
    ⟨hne, key, rfl, hlookup, (chained_equalities_iff h).mpr hchain⟩

end SeriesQuery.Placement
