import SeriesQuery.Proofs.Join.Order
import SeriesQuery.Proofs.Placement.Propagated

/-!
The criteria of a join, and what decides which rows it matches.

Every criterion is an equality of some conjunct with the other side joined earlier
(`criterion_conjunct`). The criteria of a source that keeps its place should be those of
its own `on`. A source declared later and joined freely can add to them: an equality in
its `on` that speaks of two earlier sources is joined at the later of the two
(`criteria_own_iff`).
-/

namespace SeriesQuery.Placement

open JoinGraph (Before rank laterSource)

variable {scope : Scope} {kinds : JoinKinds} {conjuncts : List Conjunct} {p : Placement}
  {placed : List (Expr × Destination)}

/-! ### The order of a level -/

/-- The order in which the sources of a level are joined once its conjuncts have gone to
their destinations. -/
abbrev orderOf (scope : Scope) (kinds : JoinKinds) (placed : List (Expr × Destination)) :
    List Nat :=
  (ofDestinations (scope.entries.map fun e => e.name.getD "") kinds placed).order

theorem orderOf_nodup (scope : Scope) (kinds : JoinKinds) (placed : List (Expr × Destination)) :
    (orderOf scope kinds placed).Nodup :=
  JoinGraph.order_nodup _ _

theorem mem_orderOf_of_lt {s : Nat} (h : s < kinds.length) : s ∈ orderOf scope kinds placed := by
  apply JoinGraph.mem_order
  simpa [JoinKinds.fixed] using h

/-- A source that some reference leads to is in the order. -/
theorem mem_orderOf (hlen : kinds.length = scope.entries.length) {ref : ColumnRef} {s : Nat}
    (h : scope.LeadsTo ref s) : s ∈ orderOf scope kinds placed :=
  mem_orderOf_of_lt (hlen ▸ h.lt_length)

theorem before_fixed_iff {j s : Nat} (h : kinds.isFixed j = true) :
    Before (orderOf scope kinds placed) s j ↔ s < j :=
  JoinGraph.before_fixed_iff _ (JoinKinds.isFixed_iff.mp h)

/-- Behind the master the order of a placement is one of the joined sources. -/
theorem tail_order_place (h : place scope kinds conjuncts = .ok p) :
    p.order.tail.Perm (List.range' 1 kinds.tail.length) := by
  obtain ⟨placed, -, rfl⟩ := place_ok h
  obtain ⟨rest, horder, hperm⟩ := JoinGraph.order_eq_cons
    ⟨(scope.entries.map fun e => e.name.getD "").map Ascii.lower, edges placed⟩ kinds.fixed
  have hfixed : kinds.fixed.tail.length = kinds.tail.length := by
    simp [JoinKinds.fixed]
  rw [hfixed] at hperm
  simpa only [ofDestinations, horder, List.tail_cons] using hperm

/-! ### Criteria and the conjuncts they come from -/

/-- A criterion of a source is an equality of a conjunct, with the column of that source on
the left and an earlier one on the right. The conjunct stands in the `on` of that source or
in a clause that filters. -/
theorem criterion_conjunct (hlen : kinds.length = scope.entries.length)
    (h : place scope kinds conjuncts = .ok p) {s : Nat} {e : Expr}
    (he : e ∈ p.criteria.getD s []) :
    ∃ c ∈ conjuncts, ∃ q, equalityOf scope c.expr = .ok (some q) ∧ e = q.startingAt s ∧
      q.touches s = true ∧ Before p.order (q.partnerOf s) s ∧
      ((c.origin = .on s ∧ kinds.isFixed s = true) ∨
        (c.origin.Filters kinds ∧ mayRelate kinds c.origin s = true)) := by
  obtain ⟨placed, hplaced, rfl⟩ := place_ok h
  rcases List.mem_append.mp (mem_bySource.mp he).2 with hown | hedge
  · obtain ⟨e', q, hmem, rfl⟩ := mem_ownCriteria.mp hown
    obtain ⟨c, hc, rfl, hd⟩ := (mem_destinations hplaced).mp hmem
    obtain ⟨-, -, horigin, hs, hq, ht, hp⟩ := destination_suits hd
    exact ⟨c, hc, q, hq, rfl, ht, (before_fixed_iff hs).mpr hp, Or.inl ⟨horigin, hs⟩⟩
  · obtain ⟨q, hq, rfl, rfl⟩ := JoinGraph.edge_of_mem_criteria _ hedge
    obtain ⟨e', hmem⟩ := mem_edges.mp hq
    obtain ⟨c, hc, rfl, hd⟩ := (mem_destinations hplaced).mp hmem
    obtain ⟨-, -, horigin, hq, hleft, hright⟩ := destination_suits hd
    obtain ⟨l, r, -, -, -, -, -, -, hl, hr, hne⟩ := equalityOf_eq_some hq
    have ht := JoinGraph.touches_laterSource (orderOf scope kinds placed) q
    refine ⟨c, hc, q, hq, rfl, ht, ?_, Or.inr ⟨horigin, ?_⟩⟩
    · exact JoinGraph.before_laterSource (orderOf_nodup scope kinds placed) (mem_orderOf hlen hl)
        (mem_orderOf hlen hr) hne
    · rcases Equality.touches_iff.mp ht with hside | hside
      · exact hside ▸ hleft
      · exact hside ▸ hright

/-- An equality that relates two sources freely is a criterion of the later one, up to its
spelling. -/
theorem exists_text_eq_mem_criteria (hlen : kinds.length = scope.entries.length)
    (h : place scope kinds conjuncts = .ok p) {c : Conjunct} (hc : c ∈ conjuncts) {q : Equality}
    (horigin : c.origin.Filters kinds) (hq : equalityOf scope c.expr = .ok (some q))
    (hl : mayRelate kinds c.origin q.leftSource = true)
    (hr : mayRelate kinds c.origin q.rightSource = true) :
    ∃ e ∈ p.criteria.getD (laterSource p.order q) [],
      e.text = (q.startingAt (laterSource p.order q)).text := by
  obtain ⟨placed, hplaced, rfl⟩ := place_ok h
  obtain ⟨d, hd, hmem⟩ := exists_destination hplaced hc
  obtain ⟨sources, hs, -⟩ := destination_suits hd
  rw [destination_edge horigin hs hq hl hr] at hd
  cases hd
  obtain ⟨l, r, -, -, -, -, -, -, hleft, hright, -⟩ := equalityOf_eq_some hq
  have hlt : laterSource (orderOf scope kinds placed) q < kinds.length := by
    rw [hlen]
    rcases Equality.touches_iff.mp (JoinGraph.touches_laterSource _ q) with hside | hside
    · exact hside ▸ hleft.lt_length
    · exact hside ▸ hright.lt_length
  obtain ⟨e, he, htext⟩ := JoinGraph.exists_text_eq_mem_criteria
    ⟨_, edges placed⟩ (orderOf scope kinds placed) (mem_edges.mpr ⟨_, hmem⟩)
  exact ⟨e, mem_bySource.mpr ⟨hlt, List.mem_append_right _ he⟩, htext⟩

/-! ### The match condition of a source that keeps its place -/

/-- An equality of the `on` of a source, as it is written there or with its sides swapped. -/
def OwnEquality (scope : Scope) (conjuncts : List Conjunct) (j : Nat) (e : Expr) : Prop :=
  ∃ c ∈ conjuncts, c.origin = .on j ∧ ∃ q, equalityOf scope c.expr = .ok (some q) ∧
    (e.text = (Expr.equality q.left q.right).text ∨ e.text = (Expr.equality q.right q.left).text)

/-- A source that is declared later and joined freely equates, in its `on`, a column of `j`
with one of a source declared before `j`. -/
def Stray (scope : Scope) (kinds : JoinKinds) (conjuncts : List Conjunct) (j : Nat)
    (q : Equality) : Prop :=
  ∃ c ∈ conjuncts, equalityOf scope c.expr = .ok (some q) ∧ q.touches j = true ∧
    q.partnerOf j < j ∧ ∃ i, c.origin = .on i ∧ kinds.isFixed i = false ∧ j < i

/-- What a source that keeps its place is matched by stands in its own `on` or is stray. -/
theorem own_or_stray (hlen : kinds.length = scope.entries.length)
    (h : place scope kinds conjuncts = .ok p) {j : Nat} (hj : kinds.isFixed j = true) {e : Expr}
    (he : e ∈ p.criteria.getD j []) :
    OwnEquality scope conjuncts j e ∨
      ∃ q, Stray scope kinds conjuncts j q ∧ e = q.startingAt j := by
  obtain ⟨c, hc, q, hq, rfl, ht, hbefore, ⟨horigin, -⟩ | ⟨horigin, hmay⟩⟩ :=
    criterion_conjunct hlen h he
  · refine Or.inl ⟨c, hc, horigin, q, hq, ?_⟩
    rcases q.startingAt_eq j with heq | heq
    · exact Or.inl (congrArg Expr.text heq)
    · exact Or.inr (congrArg Expr.text heq)
  · refine Or.inr ⟨q, ⟨c, hc, hq, ht, ?_, ?_⟩, rfl⟩
    · obtain ⟨placed, -, rfl⟩ := place_ok h
      exact (before_fixed_iff hj).mp hbefore
    · -- Only the `on` of a later source may relate a fixed one.
      cases hwritten : c.origin with
      | whereClause => simp [mayRelate, hj, hwritten] at hmay
      | on i =>
        rw [hwritten] at horigin
        exact ⟨i, rfl, horigin, by simpa [mayRelate, hj, hwritten] using hmay⟩

/-- A stray equality ends up among the criteria, up to its spelling. -/
theorem exists_text_eq_of_stray (hlen : kinds.length = scope.entries.length)
    (h : place scope kinds conjuncts = .ok p) {j : Nat} (hj : kinds.isFixed j = true)
    {q : Equality} (hstray : Stray scope kinds conjuncts j q) :
    ∃ e ∈ p.criteria.getD j [], e.text = (q.startingAt j).text := by
  obtain ⟨c, hc, hq, ht, hp, i, horigin, hi, hlt⟩ := hstray
  have hmay : ∀ s, s ≤ j → mayRelate kinds c.origin s = true := by
    intro s hs
    simp only [mayRelate, horigin, Bool.or_eq_true, decide_eq_true_eq]
    exact Or.inr (by omega)
  have hsides : q.leftSource ≤ j ∧ q.rightSource ≤ j := by
    obtain ⟨-, -, -, -, -, -, -, -, -, -, hne⟩ := equalityOf_eq_some hq
    rcases Equality.touches_iff.mp ht with rfl | rfl
    · rw [Equality.partnerOf_left] at hp
      omega
    · rw [Equality.partnerOf_right hne] at hp
      omega
  have hlater : laterSource p.order q = j := by
    obtain ⟨placed, -, rfl⟩ := place_ok h
    exact JoinGraph.laterSource_eq_of_before (orderOf_nodup scope kinds placed) ht
      ((before_fixed_iff hj).mpr hp)
  have hfilters : c.origin.Filters kinds := by
    rw [horigin]
    exact hi
  have hcriterion := exists_text_eq_mem_criteria hlen h hc hfilters hq (hmay _ hsides.1)
    (hmay _ hsides.2)
  rwa [hlater] at hcriterion

/-- **What an order-sensitive join is matched by.** The criteria of an outer, asof or splice
join are equalities of its own `on` exactly when no inner or cross join that is declared
later equates, in its `on`, a column of the joined source with an earlier one, unless that
equality stands in the `on` of the order-sensitive join as well. -/
theorem criteria_own_iff (hlen : kinds.length = scope.entries.length)
    (h : place scope kinds conjuncts = .ok p) {j : Nat} (hj : kinds.isFixed j = true) :
    (∀ e ∈ p.criteria.getD j [], OwnEquality scope conjuncts j e) ↔
      ∀ q, Stray scope kinds conjuncts j q → OwnEquality scope conjuncts j (q.startingAt j) := by
  constructor
  · intro hown q hstray
    obtain ⟨e, he, htext⟩ := exists_text_eq_of_stray hlen h hj hstray
    obtain ⟨c, hc, horigin, q', hq', hspelled⟩ := hown e he
    rw [htext] at hspelled
    exact ⟨c, hc, horigin, q', hq', hspelled⟩
  · intro hstray e he
    rcases own_or_stray hlen h hj he with hown | ⟨q, hq, rfl⟩
    · exact hown
    · exact hstray q hq

/-! ### Three sources -/

/-- A column of a source at the start of a text. -/
def columnOf (source name : String) : Expr :=
  .column (.qualified source name) 0

/-- The sources `a`, `b` and `c` with the columns `x`, `y` and `z`. -/
def threeSources : Scope :=
  ⟨[⟨some "a", [⟨"x", some .int⟩]⟩, ⟨some "b", [⟨"y", some .int⟩]⟩,
    ⟨some "c", [⟨"z", some .int⟩]⟩]⟩

/-- The kinds of an outer join and an inner join behind it. -/
def outerThenInner : JoinKinds :=
  [none, some .outer, some .inner]

/-- An outer join of `b` on its equality with `a`, an inner join of `c` on its equality with
`b`, and a comparison of `b` and `c`. -/
def chainedJoins : List Conjunct :=
  [⟨.equality (columnOf "a" "x") (columnOf "b" "y"), .on 1⟩,
    ⟨.equality (columnOf "b" "y") (columnOf "c" "z"), .on 2⟩,
    ⟨.binary .lt (columnOf "b" "y") (columnOf "c" "z") 0, .whereClause⟩]

theorem criteria_own_chained_joins :
    ∃ p, place threeSources outerThenInner chainedJoins = .ok p ∧ p.criteria.getD 1 [] ≠ [] ∧
      ∀ e ∈ p.criteria.getD 1 [], OwnEquality threeSources chainedJoins 1 e := by
  obtain ⟨p, h⟩ : ∃ p, place threeSources outerThenInner chainedJoins = .ok p := ⟨_, rfl⟩
  refine ⟨p, h, ?_, (criteria_own_iff rfl h rfl).mpr ?_⟩
  · obtain ⟨placed, hplaced, rfl⟩ := place_ok h
    cases hplaced
    exact List.ne_nil_of_mem (mem_bySource.mpr ⟨by decide, List.mem_append_left _
      (mem_ownCriteria.mpr ⟨_, _, List.mem_cons_self, rfl⟩)⟩)
  · rintro q ⟨c, hc, hq, ht, hp, i, horigin, hi, hlt⟩
    simp only [chainedJoins, List.mem_cons, List.not_mem_nil, or_false] at hc
    rcases hc with rfl | rfl | rfl
    · obtain rfl : 1 = i := Origin.on.inj horigin
      omega
    · cases hq
      exact absurd hp (by decide)
    · cases horigin

/-- An equality of `a` and `b` in the `on` of the inner join of `c` decides which rows the
outer join of `b` matches. -/
theorem stray_equality_decides_outer_join :
    ∃ p, place threeSources outerThenInner
        [⟨.equality (columnOf "a" "x") (columnOf "b" "y"), .on 2⟩] = .ok p ∧
      ∃ e ∈ p.criteria.getD 1 [], ¬ OwnEquality threeSources
        [⟨.equality (columnOf "a" "x") (columnOf "b" "y"), .on 2⟩] 1 e := by
  obtain ⟨p, h⟩ : ∃ p, place threeSources outerThenInner
      [⟨.equality (columnOf "a" "x") (columnOf "b" "y"), .on 2⟩] = .ok p := ⟨_, rfl⟩
  have hstray : Stray threeSources outerThenInner
      [⟨.equality (columnOf "a" "x") (columnOf "b" "y"), .on 2⟩] 1
      ⟨columnOf "a" "x", 0, columnOf "b" "y", 1⟩ :=
    ⟨_, List.mem_cons_self, rfl, rfl, by decide, 2, rfl, rfl, by decide⟩
  obtain ⟨e, he, -⟩ := exists_text_eq_of_stray rfl h rfl hstray
  refine ⟨p, h, e, he, ?_⟩
  rintro ⟨c, hc, horigin, -⟩
  obtain rfl := List.mem_singleton.mp hc
  cases horigin

end SeriesQuery.Placement
