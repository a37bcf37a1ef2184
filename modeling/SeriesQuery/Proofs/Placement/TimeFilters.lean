import SeriesQuery.Proofs.Placement.Criteria

/-!
The filters of a source that is joined by time.

An asof or splice join takes from the joined source the row that is nearest in time, so a
filter on any other column than one the join matches by changes which row that is. Such a
source has the filters of its own `on`, and those that constants bring to its columns along
chains of recorded equalities. The last link of a chain stands in its own `on` or in that of
a source declared later (`equatedIn_of_chain`); the filters are its own as long as no chain
comes in from a later `on` alone (`timeFilters_own`).
-/

namespace SeriesQuery.Placement

open Relation

variable {scope : Scope} {kinds : JoinKinds} {conjuncts : List Conjunct} {p : Placement}
  {placed : List (Expr × Destination)} {j : Nat}

/-- The `on` of a source equates two columns. -/
def EquatedIn (scope : Scope) (conjuncts : List Conjunct) (source : Nat) (a b : ColumnKey) :
    Prop :=
  ∃ c ∈ conjuncts, c.origin = .on source ∧
    ∃ q, equalityOf scope c.expr = .ok (some q) ∧ q.Equates a b

/-- The `on` of a source equates a column with one of an earlier source. -/
def MatchedBy (scope : Scope) (conjuncts : List Conjunct) (j : Nat) (key : ColumnKey) : Prop :=
  ∃ other : ColumnKey, other.source < j ∧ EquatedIn scope conjuncts j other key

/-- A filter that the `on` of a source puts on its rows: a conjunct that refers to that source
alone, or a constant for a column that it is matched by. -/
def OwnFilter (scope : Scope) (conjuncts : List Conjunct) (j : Nat) (f : Expr) : Prop :=
  (∃ c ∈ conjuncts, c.origin = .on j ∧ c.expr = f ∧ scope.sourcesIn f = .ok [j]) ∨
  ∃ ref q constant, f = .equality (.column ref q) constant ∧ constant.isConstant = true ∧
    scope.LeadsTo ref j ∧ MatchedBy scope conjuncts j (.ofRef j ref)

/-- A filter of an inner source gives a column a constant, and recorded equalities lead from
there to the given column. -/
def Carried (scope : Scope) (kinds : JoinKinds) (conjuncts : List Conjunct) (key : ColumnKey)
    (constant : Expr) : Prop :=
  ∃ c ∈ conjuncts, ∃ s column, destination scope kinds c = .ok (.filter s) ∧
    constantOf? c.expr = some (column, constant) ∧
    ReflTransGen (Recorded scope kinds conjuncts) (.ofRef s column) key

theorem source_of_spells {q : Equality} {a b : ColumnKey} (h : q.Spells a b) :
    q.leftSource = a.source ∧ q.rightSource = b.source := by
  obtain ⟨ha, hb⟩ := h
  obtain ⟨l, -, rfl⟩ := Option.map_eq_some_iff.mp ha
  obtain ⟨r, -, rfl⟩ := Option.map_eq_some_iff.mp hb
  exact ⟨rfl, rfl⟩

/-- The source of a column is the partner of that of the column it is equated with. -/
theorem sources_of_equates {e : Expr} {q : Equality} {a b : ColumnKey}
    (hq : equalityOf scope e = .ok (some q)) (h : q.Equates a b) :
    q.partnerOf a.source = b.source ∧
      ∀ s, q.touches s = true ↔ s = a.source ∨ s = b.source := by
  obtain ⟨-, -, -, -, -, -, -, -, -, -, hne⟩ := equalityOf_eq_some hq
  rcases h with h | h
  · obtain ⟨ha, hb⟩ := source_of_spells h
    refine ⟨by rw [← ha, Equality.partnerOf_left, hb], fun s => ?_⟩
    rw [Equality.touches_iff, ha, hb, eq_comm (b := s), eq_comm (b := s)]
  · obtain ⟨hb, ha⟩ := source_of_spells h
    refine ⟨by rw [← ha, Equality.partnerOf_right hne, hb], fun s => ?_⟩
    rw [Equality.touches_iff, ha, hb, eq_comm (b := s), eq_comm (b := s), or_comm]

/-- A column of a fixed source is equated by its own `on`, with a column of an earlier one, or
by the `on` of a source declared later. -/
theorem equatedIn_of_recorded {a b : ColumnKey} (hb : kinds.isFixed b.source = true)
    (h : Recorded scope kinds conjuncts a b) :
    (a.source < b.source ∧ EquatedIn scope conjuncts b.source a b) ∨
      ∃ i, b.source < i ∧ EquatedIn scope conjuncts i a b := by
  obtain ⟨c, hc, q, hq, hlinks, hequates⟩ := h
  obtain ⟨hpartner, htouches⟩ := sources_of_equates hq hequates
  obtain ⟨hpartner', -⟩ := sources_of_equates hq hequates.symm
  rcases hlinks with ⟨-, hl, hr⟩ | ⟨i, horigin, -, ht, hp⟩
  · -- Only the `on` of a later source may relate a fixed one.
    have hmay : mayRelate kinds c.origin b.source = true := by
      rcases Equality.touches_iff.mp ((htouches b.source).mpr (Or.inr rfl)) with hside | hside
      · exact hside ▸ hl
      · exact hside ▸ hr
    cases horigin : c.origin with
    | whereClause => simp [mayRelate, hb, horigin] at hmay
    | on i =>
      have hlt : b.source < i := by simpa [mayRelate, hb, horigin] using hmay
      exact Or.inr ⟨i, hlt, c, hc, horigin, q, hq, hequates⟩
  · rcases (htouches i).mp ht with rfl | rfl
    · exact Or.inr ⟨a.source, hpartner ▸ hp, c, hc, horigin, q, hq, hequates⟩
    · exact Or.inl ⟨hpartner' ▸ hp, c, hc, horigin, q, hq, hequates⟩

/-- The columns of a fixed source that constants come to are matched by its own `on` or are
equated in the `on` of a source declared later. -/
theorem matchedBy_or_later {key : ColumnKey} {constant : Expr}
    (hkey : kinds.isFixed key.source = true) (h : Carried scope kinds conjuncts key constant) :
    MatchedBy scope conjuncts key.source key ∨
      ∃ i, key.source < i ∧ ∃ other, EquatedIn scope conjuncts i other key := by
  obtain ⟨c, -, s, column, hd, -, hchain⟩ := h
  rcases ReflTransGen.cases_tail hchain with rfl | ⟨other, -, hlast⟩
  · obtain ⟨-, -, -, hfree, -⟩ := destination_suits hd
    have hfixed : kinds.isFixed s = true := hkey
    rw [hfree] at hfixed
    cases hfixed
  · rcases equatedIn_of_recorded hkey hlast with ⟨hlt, hequated⟩ | ⟨i, hlt, hequated⟩
    · exact Or.inl ⟨other, hlt, hequated⟩
    · exact Or.inr ⟨i, hlt, other, hequated⟩

/-- A filter of a fixed source is a conjunct of its `on` that refers to it alone or an
equality with a constant that is carried there. -/
theorem ownConjunct_or_carried (h : place scope kinds conjuncts = .ok p)
    (hj : kinds.isFixed j = true) {f : Expr} (hf : f ∈ p.filters.getD j []) :
    (∃ c ∈ conjuncts, c.origin = .on j ∧ c.expr = f ∧ scope.sourcesIn f = .ok [j]) ∨
    ∃ ref q constant, f = .equality (.column ref q) constant ∧ constant.isConstant = true ∧
      scope.LeadsTo ref j ∧ Carried scope kinds conjuncts (.ofRef j ref) constant := by
  obtain ⟨placed, hplaced, rfl⟩ := place_ok h
  rcases mem_of_mem_sourceFilters (mem_bySource.mp hf).2 with hown | hcarried
  · left
    rcases mem_ownFilters.mp hown with hmem | hmem
    · obtain ⟨c, hc, rfl, hd⟩ := (mem_destinations hplaced).mp hmem
      obtain ⟨sources, hs, horigin, -, rfl⟩ := destination_suits hd
      exact ⟨c, hc, horigin, rfl, hs⟩
    · obtain ⟨c, -, -, hd⟩ := (mem_destinations hplaced).mp hmem
      obtain ⟨-, -, -, hfree, -⟩ := destination_suits hd
      rw [hj] at hfree
      cases hfree
  · right
    obtain ⟨c, hc, s, column, constant, ref, q, hd, hconstant, rfl, hlead, -, hchain⟩ :=
      propagated_chain hplaced hcarried
    obtain ⟨-, text, kp, -, rfl, -⟩ := constantOf?_eq_some hconstant
    exact ⟨ref, q, _, rfl, rfl, hlead, c, hc, s, column, hd, hconstant, hchain⟩

/-- A constant that comes to a column of a fixed source is a filter of it, up to its
spelling. -/
theorem exists_filter_of_carried (h : place scope kinds conjuncts = .ok p) (key : ColumnKey)
    (hkey : kinds.isFixed key.source = true) {constant : Expr}
    (hcarried : Carried scope kinds conjuncts key constant) :
    ∃ f ∈ p.filters.getD key.source [], ∃ ref q, key = .ofRef key.source ref ∧
      f.text = (Expr.equality (.column ref q) constant).text := by
  obtain ⟨placed, hplaced, rfl⟩ := place_ok h
  obtain ⟨c, hc, s, column, hd, hconstant, hchain⟩ := hcarried
  have hne : key.source ≠ s := by
    rintro rfl
    obtain ⟨-, -, -, hfree, -⟩ := destination_suits hd
    rw [hkey] at hfree
    cases hfree
  obtain ⟨ref, q, href, -, hmem⟩ := exists_propagated hplaced hc hd hconstant hne hchain
  obtain ⟨f, hf, htext⟩ := exists_text_eq_mem_sourceFilters hmem
  exact ⟨f, mem_bySource.mpr ⟨JoinKinds.lt_length_of_isFixed hkey, hf⟩, ref, q, href, htext⟩

theorem isFixed_of_time (hj : kinds.getD j none = some .asof ∨ kinds.getD j none = some .splice) :
    kinds.isFixed j = true := by
  rcases hj with hj | hj
  · rw [JoinKinds.isFixed, hj]
    rfl
  · rw [JoinKinds.isFixed, hj]
    rfl

/-- **What cuts down the rows offered to a join by time.** The filters of a source that is
joined by asof or splice are those of its own `on` if every constant that comes to one of its
columns comes to one it is matched by. A constant that comes to another one does so through
the `on` of a source declared later, and is a filter nevertheless. -/
theorem timeFilters_own (h : place scope kinds conjuncts = .ok p)
    (hj : kinds.getD j none = some .asof ∨ kinds.getD j none = some .splice) :
    ((∀ key constant, key.source = j → Carried scope kinds conjuncts key constant →
        MatchedBy scope conjuncts j key) →
      ∀ f ∈ p.filters.getD j [], OwnFilter scope conjuncts j f) ∧
    ∀ key constant, key.source = j → Carried scope kinds conjuncts key constant →
      ¬ MatchedBy scope conjuncts j key →
        (∃ i, j < i ∧ ∃ other, EquatedIn scope conjuncts i other key) ∧
        ∃ f ∈ p.filters.getD j [], ∃ ref q, key = .ofRef j ref ∧
          f.text = (Expr.equality (.column ref q) constant).text := by
  have hfixed := isFixed_of_time hj
  constructor
  · intro hmatched f hf
    rcases ownConjunct_or_carried h hfixed hf with
      hown | ⟨ref, q, constant, rfl, hc, hlead, hcarried⟩
    · exact Or.inl hown
    · exact Or.inr ⟨ref, q, constant, rfl, hc, hlead, hmatched _ constant rfl hcarried⟩
  · rintro key constant rfl hcarried hstray
    exact ⟨(matchedBy_or_later hfixed hcarried).resolve_left hstray,
      exists_filter_of_carried h key hfixed hcarried⟩

/-! ### An asof join beside an inner one -/

/-- An inner join of `b` and an asof join of `c`, both on an equality with `a`, and a constant
for `b`. -/
def besideAsofJoin : List Conjunct :=
  [⟨.equality (columnOf "a" "x") (columnOf "b" "y"), .on 1⟩,
    ⟨.equality (columnOf "a" "x") (columnOf "c" "z"), .on 2⟩,
    ⟨.equality (columnOf "b" "y") (.constant "5" 0), .whereClause⟩]

/-- An asof join of `b` without a condition, an inner join of `c` on its equality with `b`, and
a constant for `c`. -/
def behindAsofJoin : List Conjunct :=
  [⟨.equality (columnOf "b" "y") (columnOf "c" "z"), .on 2⟩,
    ⟨.equality (columnOf "c" "z") (.constant "5" 0), .whereClause⟩]

/-- The constant of `b` comes to `c` along what the asof join is matched by. -/
theorem timeFilters_own_beside_asof_join :
    ∃ p, place threeSources [none, some .inner, some .asof] besideAsofJoin = .ok p ∧
      p.filters.getD 2 [] ≠ [] ∧
      ∀ f ∈ p.filters.getD 2 [], OwnFilter threeSources besideAsofJoin 2 f := by
  obtain ⟨p, h⟩ : ∃ p,
      place threeSources [none, some .inner, some .asof] besideAsofJoin = .ok p := ⟨_, rfl⟩
  refine ⟨p, h, ?_, (timeFilters_own h (Or.inl rfl)).1 ?_⟩
  · have hchain : ReflTransGen (Recorded threeSources [none, some .inner, some .asof]
        besideAsofJoin) ⟨1, "y"⟩ ⟨2, "z"⟩ :=
      .tail (b := ⟨0, "x"⟩)
        (.single ⟨_, List.mem_cons_self, _, rfl, Or.inl ⟨rfl, rfl, rfl⟩, Or.inr ⟨rfl, rfl⟩⟩)
        ⟨_, List.mem_cons_of_mem _ List.mem_cons_self, _, rfl,
          Or.inr ⟨2, rfl, rfl, rfl, by decide⟩, Or.inl ⟨rfl, rfl⟩⟩
    obtain ⟨f, hf, -⟩ := exists_filter_of_carried h ⟨2, "z"⟩ rfl
      ⟨⟨.equality (columnOf "b" "y") (.constant "5" 0), .whereClause⟩, by simp [besideAsofJoin],
        1, _, rfl, rfl, hchain⟩
    exact List.ne_nil_of_mem hf
  · -- No source is declared behind `c`.
    rintro key constant hkey hcarried
    rcases matchedBy_or_later (by rw [hkey]; rfl) hcarried with
      hmatched | ⟨i, hlt, -, c, hc, horigin, -⟩
    · exact hkey ▸ hmatched
    · simp only [besideAsofJoin, List.mem_cons, List.not_mem_nil, or_false] at hc
      rcases hc with rfl | rfl | rfl
      · obtain rfl : 1 = i := Origin.on.inj horigin
        omega
      · obtain rfl : 2 = i := Origin.on.inj horigin
        omega
      · cases horigin

/-- The constant of `c` comes to `b` along the `on` of `c`, and is a filter of the rows that
the asof join of `b` takes its matches from. -/
theorem later_equality_filters_asof_join :
    ∃ p, place threeSources [none, some .asof, some .inner] behindAsofJoin = .ok p ∧
      ∃ f ∈ p.filters.getD 1 [], ¬ OwnFilter threeSources behindAsofJoin 1 f := by
  obtain ⟨p, h⟩ : ∃ p,
      place threeSources [none, some .asof, some .inner] behindAsofJoin = .ok p := ⟨_, rfl⟩
  have hchain : ReflTransGen (Recorded threeSources [none, some .asof, some .inner]
      behindAsofJoin) ⟨2, "z"⟩ ⟨1, "y"⟩ :=
    .single ⟨_, List.mem_cons_self, _, rfl, Or.inl ⟨rfl, rfl, rfl⟩, Or.inr ⟨rfl, rfl⟩⟩
  obtain ⟨f, hf, -⟩ := exists_filter_of_carried h ⟨1, "y"⟩ rfl
    ⟨⟨.equality (columnOf "c" "z") (.constant "5" 0), .whereClause⟩, by simp [behindAsofJoin],
      2, _, rfl, rfl, hchain⟩
  -- Nothing is written in the `on` of `b`.
  have hnothing : ∀ c ∈ behindAsofJoin, c.origin ≠ .on 1 := by decide
  refine ⟨p, h, f, hf, ?_⟩
  rintro (⟨c, hc, horigin, -⟩ | ⟨-, -, -, -, -, -, -, -, c, hc, horigin, -⟩)
  · exact hnothing c hc horigin
  · exact hnothing c hc horigin

end SeriesQuery.Placement
