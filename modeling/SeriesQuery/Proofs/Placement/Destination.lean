import SeriesQuery.Placement
import SeriesQuery.Proofs.Join.Equality
import SeriesQuery.Proofs.Scope

/-!
Where a conjunct goes, read backwards.

`Destination.Suits` says for each destination what a conjunct that goes there is like;
`destination_suits` is the only place that follows the classification. What is found in
a placement is traced to the conjuncts it comes from by the `mem_` statements.
-/

namespace SeriesQuery

/-- A clause filters the rows of its level: `where`, or the `on` of a source that may be
moved. The `on` of a fixed source only says which rows are matched. -/
def Origin.Filters (kinds : JoinKinds) : Origin → Prop
  | .on join => kinds.isFixed join = false
  | .whereClause => True

theorem Origin.filters_or_on_fixed (kinds : JoinKinds) (origin : Origin) :
    origin.Filters kinds ∨ ∃ join, origin = .on join ∧ kinds.isFixed join = true := by
  cases origin with
  | whereClause => exact Or.inl trivial
  | on join =>
    cases h : kinds.isFixed join with
    | false => exact Or.inl h
    | true => exact Or.inr ⟨join, rfl, h⟩

theorem JoinKinds.isFixed_iff {kinds : JoinKinds} {j : Nat} :
    kinds.isFixed j = true ↔ kinds.fixed[j]? = some true := by
  unfold isFixed fixed
  rw [List.getElem?_map, List.getD_eq_getElem?_getD]
  cases kinds[j]? <;> simp

theorem JoinKinds.lt_length_of_isFixed {kinds : JoinKinds} {j : Nat}
    (h : kinds.isFixed j = true) : j < kinds.length := by
  have := (List.getElem?_eq_some_iff.mp (isFixed_iff.mp h)).1
  simpa [fixed] using this

namespace Placement

variable {scope : Scope} {kinds : JoinKinds}

/-! ### Equalities -/

/-- An equality that is found in an expression has a column on each side, and each leads
to the source that the equality names. -/
theorem equalityOf_eq_some {e : Expr} {q : Equality} (h : equalityOf scope e = .ok (some q)) :
    ∃ l r lp rp p, e = .binary .eq (.column l lp) (.column r rp) p ∧ q.left = .column l lp ∧
      q.right = .column r rp ∧ scope.LeadsTo l q.leftSource ∧ scope.LeadsTo r q.rightSource ∧
      q.leftSource ≠ q.rightSource := by
  unfold equalityOf at h
  split at h
  · rename_i left right p
    cases left <;> cases right <;> simp only [Expr.column?, reduceCtorEq, pure, Except.pure,
      Except.ok.injEq] at h
    rename_i l lp r rp
    cases hl : scope.resolve l lp with
    | error err => simp [Expr.position, hl, bind, Except.bind] at h
    | ok ls =>
      cases hr : scope.resolve r rp with
      | error err => simp [Expr.position, hl, hr, bind, Except.bind] at h
      | ok rs =>
        simp only [Expr.position, hl, hr, bind, Except.bind] at h
        split at h
        · cases h
        · rename_i hne
          cases h
          exact ⟨l, r, lp, rp, p, rfl, rfl, rfl, Scope.leadsTo_of_resolve hl,
            Scope.leadsTo_of_resolve hr, hne⟩
  · cases h

/-- The sources of a conjunct are sources of its scope. -/
theorem lt_length_of_mem_sources (hlen : kinds.length = scope.entries.length) {e : Expr}
    {sources : List Nat} (hs : scope.sourcesIn e = .ok sources) {t : Nat} (ht : t ∈ sources) :
    t < kinds.length := by
  obtain ⟨ref, -, hlead⟩ := (Scope.mem_sourcesOf hs).mp ht
  exact hlen ▸ hlead.lt_length

/-- The sources of a conjunct that equates two columns are the two of the equality. -/
theorem mem_sources_of_equality {e : Expr} {q : Equality} {sources : List Nat}
    (hs : scope.sourcesIn e = .ok sources) (h : equalityOf scope e = .ok (some q)) {t : Nat} :
    t ∈ sources ↔ q.touches t = true := by
  obtain ⟨l, r, lp, rp, p, rfl, -, -, hl, hr, -⟩ := equalityOf_eq_some h
  rw [Scope.mem_sourcesOf hs, Equality.touches_iff]
  simp only [Expr.columns, List.singleton_append, List.mem_cons, List.not_mem_nil, or_false,
    exists_eq_or_imp, exists_eq_left]
  constructor
  · rintro (ht | ht)
    · exact Or.inl (hl.unique ht)
    · exact Or.inr (hr.unique ht)
  · rintro (rfl | rfl)
    · exact Or.inl hl
    · exact Or.inr hr

/-! ### The classification -/

/-- What a conjunct with the given sources is like that goes to a destination. -/
def Suits (scope : Scope) (kinds : JoinKinds) (c : Conjunct) (sources : List Nat) :
    Destination → Prop
  | .constant => sources = []
  | .ownCriterion j q => c.origin = .on j ∧ kinds.isFixed j = true ∧
      equalityOf scope c.expr = .ok (some q) ∧ q.touches j = true ∧ q.partnerOf j < j
  | .ownFilter j => c.origin = .on j ∧ kinds.isFixed j = true ∧ sources = [j]
  | .edge q => c.origin.Filters kinds ∧ equalityOf scope c.expr = .ok (some q) ∧
      mayRelate kinds c.origin q.leftSource = true ∧ mayRelate kinds c.origin q.rightSource = true
  | .filter s => c.origin.Filters kinds ∧ kinds.isFixed s = false ∧ sources = [s]
  | .afterJoin j => (c.origin = .on j ∧ kinds.isFixed j = true) ∨
      (c.origin = .whereClause ∧ kinds.timeJoin? = some j ∧ sources = [0])
  | .afterAll ss => c.origin.Filters kinds ∧ ss = sources ∧ ss ≠ []

/-- A conjunct of a clause that filters is classified as an inner one. -/
theorem destination_of_filters {c : Conjunct} {sources : List Nat} {q : Option Equality}
    (horigin : c.origin.Filters kinds) (hs : scope.sourcesIn c.expr = .ok sources)
    (hne : sources ≠ []) (hq : equalityOf scope c.expr = .ok q) :
    destination scope kinds c = .ok (innerDestination kinds c.origin sources q) := by
  obtain ⟨e, origin⟩ := c
  cases origin with
  | whereClause => simp [destination, hs, hq, hne, bind, Except.bind, pure, Except.pure]
  | on join =>
    have hfree : kinds.isFixed join = false := horigin
    simp [destination, hs, hq, hne, hfree, bind, Except.bind, pure, Except.pure]

/-- A conjunct of the `on` of a fixed source is classified by that source. -/
theorem destination_of_on_fixed {c : Conjunct} {sources : List Nat} {q : Option Equality}
    {j : Nat} (horigin : c.origin = .on j) (hj : kinds.isFixed j = true)
    (hs : scope.sourcesIn c.expr = .ok sources) (hne : sources ≠ [])
    (hq : equalityOf scope c.expr = .ok q) :
    destination scope kinds c = .ok (onDestination j sources q) := by
  obtain ⟨e, origin⟩ := c
  obtain rfl : origin = .on j := horigin
  simp [destination, hs, hq, hne, hj, bind, Except.bind, pure, Except.pure]

theorem innerDestination_suits {c : Conjunct} {sources : List Nat} {q : Option Equality}
    (horigin : c.origin.Filters kinds) (hne : sources ≠ [])
    (hq : equalityOf scope c.expr = .ok q) :
    Suits scope kinds c sources (innerDestination kinds c.origin sources q) := by
  have hsingle : Suits scope kinds c sources (innerDestination kinds c.origin sources none) := by
    simp only [innerDestination]
    split
    · rename_i source
      split
      · exact ⟨horigin, rfl, hne⟩
      · rename_i hfree
        have hfree : kinds.isFixed source = false := by simpa using hfree
        split
        · rename_i join htime
          split
          · rename_i hmaster
            obtain ⟨rfl, hwhere⟩ := hmaster
            exact Or.inr ⟨hwhere, htime, rfl⟩
          · exact ⟨horigin, hfree, rfl⟩
        · exact ⟨horigin, hfree, rfl⟩
    · exact ⟨horigin, rfl, hne⟩
  cases q with
  | none => exact hsingle
  | some q =>
    by_cases hrel : mayRelate kinds c.origin q.leftSource && mayRelate kinds c.origin q.rightSource
    · have hboth := Bool.and_eq_true_iff.mp hrel
      simp only [innerDestination, hrel, if_true]
      exact ⟨horigin, hq, hboth.1, hboth.2⟩
    · have hsame : innerDestination kinds c.origin sources (some q) =
          innerDestination kinds c.origin sources none := by
        simp only [innerDestination, hrel]
        rfl
      exact hsame ▸ hsingle

theorem onDestination_suits {c : Conjunct} {sources : List Nat} {q : Option Equality} {j : Nat}
    (horigin : c.origin = .on j) (hj : kinds.isFixed j = true)
    (hs : scope.sourcesIn c.expr = .ok sources) (hq : equalityOf scope c.expr = .ok q) :
    Suits scope kinds c sources (onDestination j sources q) := by
  have hown : Suits scope kinds c sources (onDestination j sources none) := by
    simp only [onDestination]
    split
    · rename_i heq
      exact ⟨horigin, hj, heq⟩
    · exact Or.inl ⟨horigin, hj⟩
  cases q with
  | none => exact hown
  | some q =>
    by_cases hcrit : q.partnerOf j < j ∧ j ∈ sources
    · simp only [onDestination, hcrit, and_self, if_true]
      exact ⟨horigin, hj, hq, (mem_sources_of_equality hs hq).mp hcrit.2, hcrit.1⟩
    · have hsame : onDestination j sources (some q) = onDestination j sources none := by
        simp only [onDestination, hcrit, if_false]
      exact hsame ▸ hown

/-- **The classification inverted**: what is known of a conjunct from where it goes. -/
theorem destination_suits {c : Conjunct} {d : Destination}
    (h : destination scope kinds c = .ok d) :
    ∃ sources, scope.sourcesIn c.expr = .ok sources ∧ Suits scope kinds c sources d := by
  cases hs : scope.sourcesIn c.expr with
  | error err => simp [destination, hs, bind, Except.bind] at h
  | ok sources =>
    refine ⟨sources, rfl, ?_⟩
    by_cases hne : sources = []
    · simp only [destination, hs, hne, bind, Except.bind, pure, Except.pure, if_true] at h
      cases h
      exact hne
    · cases hq : equalityOf scope c.expr with
      | error err => simp [destination, hs, hq, hne, bind, Except.bind] at h
      | ok q =>
        rcases c.origin.filters_or_on_fixed kinds with horigin | ⟨j, horigin, hj⟩
        · rw [destination_of_filters horigin hs hne hq] at h
          cases h
          exact innerDestination_suits horigin hne hq
        · rw [destination_of_on_fixed horigin hj hs hne hq] at h
          cases h
          exact onDestination_suits horigin hj hs hq

/-! ### All conjuncts of a level -/

theorem destinations_cons {c : Conjunct} {cs : List Conjunct} {placed : List (Expr × Destination)}
    (h : destinations scope kinds (c :: cs) = .ok placed) :
    ∃ d rest, destination scope kinds c = .ok d ∧ destinations scope kinds cs = .ok rest ∧
      placed = (c.expr, d) :: rest := by
  simp only [destinations] at h
  split at h
  · cases h
  · rename_i d hd
    split at h
    · cases h
    · rename_i rest hrest
      cases h
      exact ⟨d, rest, hd, hrest, rfl⟩

/-- No conjunct looks at another: those of a list go where they go in its parts. -/
theorem destinations_append {cs cs' : List Conjunct} {placed : List (Expr × Destination)} :
    destinations scope kinds (cs ++ cs') = .ok placed ↔
      ∃ front back, destinations scope kinds cs = .ok front ∧
        destinations scope kinds cs' = .ok back ∧ placed = front ++ back := by
  induction cs generalizing placed with
  | nil =>
    constructor
    · intro h
      exact ⟨[], placed, rfl, h, rfl⟩
    · rintro ⟨front, back, hfront, hback, rfl⟩
      cases hfront
      exact hback
  | cons c cs ih =>
    constructor
    · intro h
      obtain ⟨d, rest, hd, hrest, rfl⟩ := destinations_cons h
      obtain ⟨front, back, hfront, hback, rfl⟩ := ih.mp hrest
      refine ⟨(c.expr, d) :: front, back, ?_, hback, rfl⟩
      simp only [destinations, hd, hfront]
    · rintro ⟨front, back, hfront, hback, rfl⟩
      obtain ⟨d, rest, hd, hrest, rfl⟩ := destinations_cons hfront
      have htail := ih.mpr ⟨rest, back, hrest, hback, rfl⟩
      simp only [List.cons_append, destinations, hd, htail]

theorem mem_destinations {cs : List Conjunct} {placed : List (Expr × Destination)}
    (h : destinations scope kinds cs = .ok placed) {e : Expr} {d : Destination} :
    (e, d) ∈ placed ↔ ∃ c ∈ cs, c.expr = e ∧ destination scope kinds c = .ok d := by
  induction cs generalizing placed with
  | nil =>
    cases h
    simp
  | cons c cs ih =>
    obtain ⟨d', rest, hd, hrest, rfl⟩ := destinations_cons h
    simp only [List.mem_cons, Prod.mk.injEq, ih hrest, exists_eq_or_imp, hd, Except.ok.injEq]
    constructor
    · rintro (⟨rfl, rfl⟩ | h)
      · exact Or.inl ⟨rfl, rfl⟩
      · exact Or.inr h
    · rintro (⟨rfl, rfl⟩ | h)
      · exact Or.inl ⟨rfl, rfl⟩
      · exact Or.inr h

/-- When a level is placed, every conjunct has gone somewhere. -/
theorem exists_destination {cs : List Conjunct} {placed : List (Expr × Destination)}
    (h : destinations scope kinds cs = .ok placed) {c : Conjunct} (hc : c ∈ cs) :
    ∃ d, destination scope kinds c = .ok d ∧ (c.expr, d) ∈ placed := by
  induction cs generalizing placed with
  | nil => cases hc
  | cons first cs ih =>
    obtain ⟨d, rest, hd, hrest, rfl⟩ := destinations_cons h
    rcases List.mem_cons.mp hc with rfl | hc
    · exact ⟨d, hd, List.mem_cons_self⟩
    · obtain ⟨d', hd', hmem⟩ := ih hrest hc
      exact ⟨d', hd', List.mem_cons_of_mem _ hmem⟩

theorem place_ok {cs : List Conjunct} {p : Placement} (h : place scope kinds cs = .ok p) :
    ∃ placed, destinations scope kinds cs = .ok placed ∧
      p = ofDestinations (scope.entries.map fun e => e.name.getD "") kinds placed := by
  simp only [place] at h
  split at h
  · cases h
  · rename_i placed hplaced
    cases h
    exact ⟨placed, hplaced, rfl⟩

/-! ### What a placement holds -/

theorem getD_bySource (f : Nat → List Expr) (n s : Nat) :
    ((List.range n).map f).getD s [] = if s < n then f s else [] := by
  rw [List.getD_eq_getElem?_getD, List.getElem?_map]
  by_cases h : s < n
  · simp [h]
  · rw [List.getElem?_eq_none (by simpa using h), if_neg h]
    rfl

theorem mem_bySource {f : Nat → List Expr} {n s : Nat} {e : Expr} :
    e ∈ ((List.range n).map f).getD s [] ↔ s < n ∧ e ∈ f s := by
  rw [getD_bySource]
  by_cases h : s < n
  · simp [h]
  · simp [h]

variable {placed : List (Expr × Destination)}

theorem mem_edges {q : Equality} : q ∈ edges placed ↔ ∃ e, (e, .edge q) ∈ placed := by
  simp only [edges, List.mem_filterMap]
  constructor
  · rintro ⟨⟨e, d⟩, hmem, h⟩
    cases d <;> simp only [reduceCtorEq, Option.some.injEq] at h
    subst h
    exact ⟨e, hmem⟩
  · rintro ⟨e, hmem⟩
    exact ⟨_, hmem, rfl⟩

theorem mem_equalities {q : Equality} :
    q ∈ equalities placed ↔ ∃ e, (e, .edge q) ∈ placed ∨ ∃ s, (e, .ownCriterion s q) ∈ placed := by
  simp only [equalities, List.mem_filterMap]
  constructor
  · rintro ⟨⟨e, d⟩, hmem, h⟩
    cases d <;> simp only [reduceCtorEq, Option.some.injEq] at h
    · subst h
      exact ⟨e, Or.inr ⟨_, hmem⟩⟩
    · subst h
      exact ⟨e, Or.inl hmem⟩
  · rintro ⟨e, hmem | ⟨s, hmem⟩⟩
    · exact ⟨_, hmem, rfl⟩
    · exact ⟨_, hmem, rfl⟩

theorem mem_ownCriteria {s : Nat} {e : Expr} :
    e ∈ ownCriteria placed s ↔ ∃ c q, (c, .ownCriterion s q) ∈ placed ∧ e = q.startingAt s := by
  simp only [ownCriteria, List.mem_filterMap]
  constructor
  · rintro ⟨⟨c, d⟩, hmem, h⟩
    cases d <;> simp only [reduceCtorEq, Option.ite_none_right_eq_some, Option.some.injEq] at h
    obtain ⟨rfl, rfl⟩ := h
    exact ⟨c, _, hmem, rfl⟩
  · rintro ⟨c, q, hmem, rfl⟩
    exact ⟨_, hmem, if_pos rfl⟩

theorem mem_ownFilters {s : Nat} {e : Expr} :
    e ∈ ownFilters placed s ↔ (e, .ownFilter s) ∈ placed ∨ (e, .filter s) ∈ placed := by
  simp only [ownFilters, List.mem_filterMap]
  constructor
  · rintro ⟨⟨c, d⟩, hmem, h⟩
    cases d <;> simp only [reduceCtorEq, Option.ite_none_right_eq_some, Option.some.injEq] at h
    · obtain ⟨rfl, rfl⟩ := h
      exact Or.inl hmem
    · obtain ⟨rfl, rfl⟩ := h
      exact Or.inr hmem
  · rintro (hmem | hmem)
    · exact ⟨_, hmem, if_pos rfl⟩
    · exact ⟨_, hmem, if_pos rfl⟩

theorem mem_constants {s : Nat} {column : ColumnRef} {constant : Expr} :
    (s, column, constant) ∈ constants placed ↔
      ∃ e, (e, .filter s) ∈ placed ∧ constantOf? e = some (column, constant) := by
  simp only [constants, List.mem_filterMap]
  constructor
  · rintro ⟨⟨e, d⟩, hmem, h⟩
    cases d <;> simp only [reduceCtorEq, Option.map_eq_some_iff] at h
    obtain ⟨⟨column, constant⟩, hconstant, heq⟩ := h
    cases heq
    exact ⟨e, hmem, hconstant⟩
  · rintro ⟨e, hmem, hconstant⟩
    exact ⟨_, hmem, Option.map_eq_some_iff.mpr ⟨_, hconstant, rfl⟩⟩

theorem mem_constantFilters {e : Expr} : e ∈ constantFilters placed ↔ (e, .constant) ∈ placed := by
  simp only [constantFilters, List.mem_filterMap]
  constructor
  · rintro ⟨⟨c, d⟩, hmem, h⟩
    cases d <;> simp only [reduceCtorEq, Option.some.injEq] at h
    subst h
    exact hmem
  · intro hmem
    exact ⟨_, hmem, rfl⟩

theorem mem_postJoinFilters {order : List Nat} {s : Nat} {e : Expr} :
    e ∈ postJoinFilters placed order s ↔ (e, .afterJoin s) ∈ placed ∨
      ∃ sources, (e, .afterAll sources) ∈ placed ∧ lastOf order sources = s := by
  simp only [postJoinFilters, List.mem_filterMap]
  constructor
  · rintro ⟨⟨c, d⟩, hmem, h⟩
    cases d <;> simp only [reduceCtorEq, Option.ite_none_right_eq_some, Option.some.injEq] at h
    · obtain ⟨rfl, rfl⟩ := h
      exact Or.inl hmem
    · obtain ⟨hlast, rfl⟩ := h
      exact Or.inr ⟨_, hmem, hlast⟩
  · rintro (hmem | ⟨sources, hmem, hlast⟩)
    · exact ⟨_, hmem, if_pos rfl⟩
    · exact ⟨_, hmem, if_pos hlast⟩

theorem mem_propagated {t : Nat} {f : Expr} :
    (t, f) ∈ propagated placed ↔ ∃ s column constant e, (s, column, constant) ∈ constants placed ∧
      (t, e) ∈ (equivalence placed).equalColumns s column ∧ f = .equality e constant := by
  simp only [propagated, List.mem_flatMap, List.mem_map, Prod.exists, Prod.mk.injEq]
  constructor
  · rintro ⟨s, column, constant, hconstant, t, e, hequal, rfl, rfl⟩
    exact ⟨s, column, constant, e, hconstant, hequal, rfl⟩
  · rintro ⟨s, column, constant, e, hconstant, hequal, rfl⟩
    exact ⟨s, column, constant, hconstant, t, e, hequal, rfl, rfl⟩

/-- A filter of a source is a conjunct of its own or brought by a constant. -/
theorem mem_of_mem_sourceFilters {s : Nat} {e : Expr} (h : e ∈ sourceFilters placed s) :
    e ∈ ownFilters placed s ∨ (s, e) ∈ propagated placed := by
  rcases Expr.mem_of_mem_extendDistinct h with h | h
  · exact Or.inl h
  · simp only [List.mem_map, List.mem_filter, decide_eq_true_eq] at h
    obtain ⟨⟨t, f⟩, ⟨hmem, rfl⟩, rfl⟩ := h
    exact Or.inr hmem

theorem mem_sourceFilters_of_own {s : Nat} {e : Expr} (h : e ∈ ownFilters placed s) :
    e ∈ sourceFilters placed s :=
  Expr.mem_extendDistinct_of_mem h

theorem exists_text_eq_mem_sourceFilters {s : Nat} {e : Expr} (h : (s, e) ∈ propagated placed) :
    ∃ f ∈ sourceFilters placed s, f.text = e.text := by
  apply Expr.exists_text_eq_mem_extendDistinct
  simp only [List.mem_map, List.mem_filter, decide_eq_true_eq]
  exact ⟨(s, e), ⟨h, rfl⟩, rfl⟩

end Placement

end SeriesQuery
