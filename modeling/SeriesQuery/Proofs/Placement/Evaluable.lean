import SeriesQuery.Proofs.Placement.Criteria

/-!
Everything is placed where it can be evaluated, except for one kind of conjunct.

Filters read their own source alone, and a criterion reads the source it stands at and
one joined before it. What is evaluated after a join reads nothing that is joined later,
unless the `on` of a source that keeps its place speaks of a source declared after it:
such a conjunct is evaluated with the join in whose `on` it stands (`placed_readable`).
-/

namespace SeriesQuery.Placement

open JoinGraph (Before rank)

variable {scope : Scope} {kinds : JoinKinds} {conjuncts : List Conjunct} {p : Placement}
  {placed : List (Expr × Destination)}

/-- `t` is `s` or joined before it. -/
def NoLater (order : List Nat) (s t : Nat) : Prop :=
  t = s ∨ Before order t s

/-! ### The last of several sources -/

theorem lastOf_cons_cons (order : List Nat) (first s : Nat) (rest : List Nat) :
    lastOf order (first :: s :: rest) =
      lastOf order ((if rank order first ≤ rank order s then s else first) :: rest) :=
  rfl

theorem lastOf_mem (order : List Nat) {sources : List Nat} (h : sources ≠ []) :
    lastOf order sources ∈ sources := by
  obtain ⟨first, rest, rfl⟩ := List.exists_cons_of_ne_nil h
  induction rest generalizing first with
  | nil => exact List.mem_cons_self
  | cons s rest ih =>
    rw [lastOf_cons_cons]
    split
    · exact List.mem_cons_of_mem _ (ih s (by simp))
    · rcases List.mem_cons.mp (ih first (by simp)) with heq | hmem
      · rw [heq]
        exact List.mem_cons_self
      · exact List.mem_cons_of_mem _ (List.mem_cons_of_mem _ hmem)

theorem rank_le_lastOf (order : List Nat) {sources : List Nat} {t : Nat} (h : t ∈ sources) :
    rank order t ≤ rank order (lastOf order sources) := by
  obtain ⟨first, rest, rfl⟩ := List.exists_cons_of_ne_nil (List.ne_nil_of_mem h)
  induction rest generalizing first t with
  | nil =>
    obtain rfl := List.mem_singleton.mp h
    exact Nat.le_refl _
  | cons s rest ih =>
    rw [lastOf_cons_cons]
    split
    · rename_i hle
      rcases List.mem_cons.mp h with rfl | h
      · exact Nat.le_trans hle (ih s List.mem_cons_self)
      · exact ih s h
    · rename_i hgt
      rcases List.mem_cons.mp h with rfl | h
      · exact ih t List.mem_cons_self
      · rcases List.mem_cons.mp h with rfl | h
        · exact Nat.le_trans (by omega) (ih first List.mem_cons_self)
        · exact ih first (List.mem_cons_of_mem _ h)

/-- Every one of several sources is the last of them or joined before it. -/
theorem noLater_lastOf {order sources : List Nat} (hn : order.Nodup)
    (hsources : ∀ s ∈ sources, s ∈ order) {t : Nat} (h : t ∈ sources) :
    NoLater order (lastOf order sources) t := by
  by_cases heq : t = lastOf order sources
  · exact Or.inl heq
  · have hlast := lastOf_mem order (List.ne_nil_of_mem h)
    rcases JoinGraph.before_or_before (hsources t h) (hsources _ hlast) heq with hb | hb
    · exact Or.inr hb
    · have hlt := JoinGraph.rank_lt_of_before hn hb
      have hle := rank_le_lastOf order h
      omega

/-! ### Filters and criteria -/

/-- A criterion with a side at `s` and the other side joined earlier reads `s` and nothing
later. -/
theorem reads_startingAt {e : Expr} {q : Equality} {s : Nat} {order : List Nat}
    (hq : equalityOf scope e = .ok (some q)) (ht : q.touches s = true)
    (hbefore : Before order (q.partnerOf s) s) :
    scope.Reads (q.startingAt s) s ∧ scope.ReadsOnly (q.startingAt s) (NoLater order s) := by
  obtain ⟨l, r, lp, rp, -, -, hleft, hright, hl, hr, hne⟩ := equalityOf_eq_some hq
  rw [Scope.Reads, Scope.readsOnly_iff]
  by_cases hside : q.leftSource = s
  · subst hside
    rw [Equality.partnerOf_left] at hbefore
    have hcolumns : (q.startingAt q.leftSource).columns = [(l, lp), (r, rp)] := by
      simp [Equality.startingAt, Expr.equality, hleft, hright, Expr.columns]
    rw [hcolumns]
    refine ⟨⟨(l, lp), by simp, hl⟩, fun ref href => ?_⟩
    simp only [List.mem_cons, List.not_mem_nil, or_false] at href
    rcases href with rfl | rfl
    · exact ⟨_, hl, Or.inl rfl⟩
    · exact ⟨_, hr, Or.inr hbefore⟩
  · obtain rfl := (Equality.touches_iff.mp ht).resolve_left hside
    rw [Equality.partnerOf_right hne] at hbefore
    have hcolumns : (q.startingAt q.rightSource).columns = [(r, rp), (l, lp)] := by
      simp [Equality.startingAt, hne, Expr.equality, hleft, hright, Expr.columns]
    rw [hcolumns]
    refine ⟨⟨(r, rp), by simp, hr⟩, fun ref href => ?_⟩
    simp only [List.mem_cons, List.not_mem_nil, or_false] at href
    rcases href with rfl | rfl
    · exact ⟨_, hr, Or.inl rfl⟩
    · exact ⟨_, hl, Or.inr hbefore⟩

theorem filters_readsOnly (h : place scope kinds conjuncts = .ok p) {s : Nat} {e : Expr}
    (he : e ∈ p.filters.getD s []) : scope.ReadsOnly e (· = s) := by
  obtain ⟨placed, hplaced, rfl⟩ := place_ok h
  rcases mem_of_mem_sourceFilters (mem_bySource.mp he).2 with hown | hbrought
  · -- A conjunct that filters a source has that source alone.
    have hsingle : scope.sourcesIn e = .ok [s] := by
      rcases mem_ownFilters.mp hown with hmem | hmem
      · obtain ⟨c, -, rfl, hd⟩ := (mem_destinations hplaced).mp hmem
        obtain ⟨sources, hs, -, -, rfl⟩ := destination_suits hd
        exact hs
      · obtain ⟨c, -, rfl, hd⟩ := (mem_destinations hplaced).mp hmem
        obtain ⟨sources, hs, -, -, rfl⟩ := destination_suits hd
        exact hs
    exact ⟨[s], hsingle, fun t ht => List.mem_singleton.mp ht⟩
  · obtain ⟨c, -, s', column, constant, ref, q, -, hconstant, rfl, hlead, -, -⟩ :=
      propagated_chain hplaced hbrought
    obtain ⟨-, text, kp, -, rfl, -⟩ := constantOf?_eq_some hconstant
    rw [Scope.readsOnly_iff]
    intro ref' href
    obtain rfl : ref' = (ref, q) := by simpa [Expr.equality, Expr.columns] using href
    exact ⟨s, hlead, rfl⟩

theorem criteria_readsOnly (hlen : kinds.length = scope.entries.length)
    (h : place scope kinds conjuncts = .ok p) {s : Nat} {e : Expr}
    (he : e ∈ p.criteria.getD s []) :
    scope.Reads e s ∧ scope.ReadsOnly e (NoLater p.order s) := by
  obtain ⟨c, -, q, hq, rfl, ht, hbefore, -⟩ := criterion_conjunct hlen h he
  exact reads_startingAt hq ht hbefore

/-! ### After the joins -/

/-- In the `on` of every source that keeps its place, nothing is read that is declared after
that source. -/
def OnReadsEarlier (scope : Scope) (kinds : JoinKinds) (conjuncts : List Conjunct) : Prop :=
  ∀ c ∈ conjuncts, ∀ j, c.origin = .on j → kinds.isFixed j = true →
    scope.ReadsOnly c.expr (· ≤ j)

theorem noLater_fixed_iff {j t : Nat} (h : kinds.isFixed j = true) :
    NoLater (orderOf scope kinds placed) j t ↔ t ≤ j := by
  rw [NoLater, before_fixed_iff h]
  omega

theorem postJoin_readsOnly (hlen : kinds.length = scope.entries.length)
    (h : place scope kinds conjuncts = .ok p) (hon : OnReadsEarlier scope kinds conjuncts)
    {s : Nat} {e : Expr} (he : e ∈ p.postJoin.getD s []) :
    scope.ReadsOnly e (NoLater p.order s) := by
  obtain ⟨placed, hplaced, rfl⟩ := place_ok h
  obtain ⟨hlt, he⟩ := mem_bySource.mp he
  rcases mem_postJoinFilters.mp he with hmem | ⟨ss, hmem, rfl⟩
  · obtain ⟨c, hc, rfl, hd⟩ := (mem_destinations hplaced).mp hmem
    obtain ⟨sources, hs, ⟨horigin, hj⟩ | ⟨-, -, rfl⟩⟩ := destination_suits hd
    · obtain ⟨sources', hs', hle⟩ := hon c hc s horigin hj
      exact ⟨sources', hs', fun t ht => (noLater_fixed_iff hj).mpr (hle t ht)⟩
    · refine ⟨[0], hs, fun t ht => ?_⟩
      obtain rfl := List.mem_singleton.mp ht
      rcases Nat.eq_zero_or_pos s with rfl | hpos
      · exact Or.inl rfl
      · exact Or.inr (JoinGraph.before_of_pos _ (by simpa [JoinKinds.fixed] using hlt) hpos)
  · obtain ⟨c, -, rfl, hd⟩ := (mem_destinations hplaced).mp hmem
    obtain ⟨sources, hs, -, rfl, -⟩ := destination_suits hd
    refine ⟨ss, hs, fun t ht => noLater_lastOf (orderOf_nodup scope kinds placed) ?_ ht⟩
    intro t ht
    obtain ⟨ref, -, hlead⟩ := (Scope.mem_sourcesOf hs).mp ht
    exact mem_orderOf hlen hlead

/-- A conjunct of the `on` of a fixed source reads nothing declared later if what is
evaluated after the joins reads nothing joined later. -/
theorem onReadsEarlier_of_postJoin (h : place scope kinds conjuncts = .ok p)
    (hpost : ∀ s, ∀ e ∈ p.postJoin.getD s [], scope.ReadsOnly e (NoLater p.order s)) :
    OnReadsEarlier scope kinds conjuncts := by
  obtain ⟨placed, hplaced, rfl⟩ := place_ok h
  intro c hc j horigin hj
  have hnot : ¬ c.origin.Filters kinds := by
    rw [horigin]
    simp [Origin.Filters, hj]
  obtain ⟨d, hd, hmem⟩ := exists_destination hplaced hc
  obtain ⟨sources, hs, hsuits⟩ := destination_suits hd
  cases d with
  | constant =>
    obtain rfl : sources = [] := hsuits
    exact ⟨[], hs, fun t ht => by cases ht⟩
  | ownCriterion j' q =>
    obtain ⟨horigin', -, hq, ht, hp⟩ := hsuits
    obtain rfl : j = j' := Origin.on.inj (horigin.symm.trans horigin')
    refine ⟨sources, hs, fun t htmem => ?_⟩
    have hsides := Equality.touches_iff.mp ((mem_sources_of_equality hs hq).mp htmem)
    rcases Equality.touches_iff.mp ht with rfl | rfl
    · rw [Equality.partnerOf_left] at hp
      omega
    · obtain ⟨-, -, -, -, -, -, -, -, -, -, hne⟩ := equalityOf_eq_some hq
      rw [Equality.partnerOf_right hne] at hp
      omega
  | ownFilter j' =>
    obtain ⟨horigin', -, rfl⟩ := hsuits
    obtain rfl : j = j' := Origin.on.inj (horigin.symm.trans horigin')
    exact ⟨[j], hs, fun t ht => Nat.le_of_eq (List.mem_singleton.mp ht)⟩
  | edge q => exact absurd hsuits.1 hnot
  | filter s => exact absurd hsuits.1 hnot
  | afterAll ss => exact absurd hsuits.1 hnot
  | afterJoin j' =>
    rcases hsuits with ⟨horigin', -⟩ | ⟨hwhere, -, -⟩
    · obtain rfl : j = j' := Origin.on.inj (horigin.symm.trans horigin')
      have hstands : c.expr ∈ (ofDestinations (scope.entries.map fun e => e.name.getD "")
          kinds placed).postJoin.getD j [] :=
        mem_bySource.mpr ⟨JoinKinds.lt_length_of_isFixed hj, mem_postJoinFilters.mpr (Or.inl hmem)⟩
      obtain ⟨sources', hs', hle⟩ := hpost j _ hstands
      exact ⟨sources', hs', fun t ht => (noLater_fixed_iff hj).mp (hle t ht)⟩
    · rw [horigin] at hwhere
      cases hwhere

/-- **Where everything that is placed can be evaluated.** The filters of a source read it
alone, and its criteria read it and what is joined before it. What is evaluated after the
join of a source reads nothing joined later exactly when no `on` of an outer, asof or splice
join reads a source declared after that join. -/
theorem placed_readable (hlen : kinds.length = scope.entries.length)
    (h : place scope kinds conjuncts = .ok p) :
    (∀ s, ∀ e ∈ p.filters.getD s [], scope.ReadsOnly e (· = s)) ∧
    (∀ s, ∀ e ∈ p.criteria.getD s [],
      scope.Reads e s ∧ scope.ReadsOnly e (NoLater p.order s)) ∧
    ((∀ s, ∀ e ∈ p.postJoin.getD s [], scope.ReadsOnly e (NoLater p.order s)) ↔
      OnReadsEarlier scope kinds conjuncts) := by
  refine ⟨fun s e he => filters_readsOnly h he, fun s e he => criteria_readsOnly hlen h he, ?_⟩
  constructor
  · intro hpost
    exact onReadsEarlier_of_postJoin h hpost
  · intro hon s e he
    exact postJoin_readsOnly hlen h hon he

/-! ### An outer and an inner join -/

theorem placed_readable_chained_joins :
    ∃ p, place threeSources outerThenInner chainedJoins = .ok p ∧
      (∀ s, ∀ e ∈ p.filters.getD s [], threeSources.ReadsOnly e (· = s)) ∧
      (∀ s, ∀ e ∈ p.criteria.getD s [],
        threeSources.Reads e s ∧ threeSources.ReadsOnly e (NoLater p.order s)) ∧
      (∀ s, ∀ e ∈ p.postJoin.getD s [], threeSources.ReadsOnly e (NoLater p.order s)) := by
  obtain ⟨p, h⟩ : ∃ p, place threeSources outerThenInner chainedJoins = .ok p := ⟨_, rfl⟩
  obtain ⟨hfilters, hcriteria, hpost⟩ := placed_readable rfl h
  refine ⟨p, h, hfilters, hcriteria, hpost.mpr ?_⟩
  intro c hc j horigin hj
  simp only [chainedJoins, List.mem_cons, List.not_mem_nil, or_false] at hc
  rcases hc with rfl | rfl | rfl
  · obtain rfl : 1 = j := Origin.on.inj horigin
    exact ⟨[0, 1], rfl, by decide⟩
  · obtain rfl : 2 = j := Origin.on.inj horigin
    cases hj
  · cases horigin

/-- The `on` of an outer join of `b` may speak of `c`, which is joined later. -/
theorem on_reads_later_source :
    ∃ p, place threeSources outerThenInner
        [⟨.binary .lt (columnOf "a" "x") (columnOf "c" "z") 0, .on 1⟩] = .ok p ∧
      ∃ e ∈ p.postJoin.getD 1 [], ¬ threeSources.ReadsOnly e (NoLater p.order 1) := by
  refine ⟨_, rfl, .binary .lt (columnOf "a" "x") (columnOf "c" "z") 0, ?_, ?_⟩
  · exact mem_bySource.mpr ⟨by decide, mem_postJoinFilters.mpr (Or.inl List.mem_cons_self)⟩
  · rintro ⟨sources, hs, hearlier⟩
    obtain rfl : [0, 2] = sources := Except.ok.inj hs
    have hle := (noLater_fixed_iff rfl).mp (hearlier 2 (by simp))
    omega

end SeriesQuery.Placement
