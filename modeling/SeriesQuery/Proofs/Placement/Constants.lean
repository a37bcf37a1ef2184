import SeriesQuery.Proofs.Join.EqualColumns
import SeriesQuery.Proofs.Placement.Account
import SeriesQuery.Proofs.Placement.Criteria

/-!
Equal columns and the constants that reach them.

A column of another source that a chain of equalities leads to from a column with a constant is
equated with that constant by one filter of its source, unless its own conjuncts say so already
(`countP_filters_of_chained`). With what the search for equal columns answers this is
`equal_columns_found_and_filtered`.
-/

namespace SeriesQuery.Placement

open SeriesQuery.Equivalence (Chained Spelled firstSpelling? ofEqualities)

variable {scope : Scope} {kinds : JoinKinds} {conjuncts : List Conjunct} {p : Placement}
  {placed : List (Expr × Destination)}

/-- A constant reaches every column of another source that a chain of equalities leads to, as
that column was first spelled. -/
theorem exists_spelling_mem_propagated {s : Nat} {column : ColumnRef} {constant : Expr}
    {key : ColumnKey} (hconstant : (s, column, constant) ∈ constants placed)
    (hne : key.source ≠ s) (hchain : Chained (equalities placed) (.ofRef s column) key) :
    ∃ e, firstSpelling? (equalities placed) key = some e ∧
      (key.source, .equality e constant) ∈ propagated placed := by
  have hknown : (firstSpelling? (equalities placed) key).isSome := by
    refine Equivalence.isSome_firstSpelling?_of_chained hchain ?_
    rintro rfl
    exact hne rfl
  obtain ⟨e, he⟩ := Option.isSome_iff_exists.mp hknown
  have hequal : (key.source, e) ∈ (equivalence placed).equalColumns s column :=
    Equivalence.mem_equalColumns.mpr
      ⟨hne, key, rfl, (Equivalence.lookup_ofEqualities_eq _ key).trans he, hchain⟩
  exact ⟨e, he, mem_propagated.mpr ⟨s, column, constant, e, hconstant, hequal, rfl⟩⟩

/-- What is brought to a source stands among its filters as often as among its own conjuncts,
or once if it is none of them. -/
theorem countP_filters_of_mem_propagated (hlen : kinds.length = scope.entries.length)
    (h : destinations scope kinds conjuncts = .ok placed) (names : List String) {t : Nat} {f : Expr}
    (hf : (t, f) ∈ propagated placed) :
    ((ofDestinations names kinds placed).filters.getD t []).countP (·.sameText f) =
      max 1 ((ownFilters placed t).countP (·.sameText f)) := by
  have hbrought : f ∈ ((propagated placed).filter fun f => f.1 = t).map Prod.snd :=
    List.mem_map.mpr ⟨(t, f), List.mem_filter.mpr ⟨hf, decide_eq_true rfl⟩, rfl⟩
  rw [getD_filters hlen h, sourceFilters, Expr.countP_extendDistinct hbrought]

/-- **Equal columns are found once, and constants reach them once.** However equalities are
recorded, the columns found equal to a column are those of other sources that a chain of recorded
equalities leads to: each once, in the order of the sources, as it was first spelled.

So in a placement every column that is equal to one with a constant is equated with that constant
by exactly one filter of its source, or by the conjuncts of that source that do so already. -/
theorem equal_columns_found_and_filtered :
    (∀ (es : List Equality) (source : Nat) (ref : ColumnRef), ∃ keys : List ColumnKey,
      keys.Nodup ∧
      (∀ key, key ∈ keys ↔ key.source ≠ source ∧ Chained es (.ofRef source ref) key) ∧
      keys.Pairwise (fun a b => a.source ≤ b.source) ∧
      Spelled es keys ((ofEqualities es).equalColumns source ref)) ∧
    ∀ (scope : Scope) (kinds : JoinKinds) (conjuncts : List Conjunct) (p : Placement),
      kinds.length = scope.entries.length → place scope kinds conjuncts = .ok p →
      ∃ placed, destinations scope kinds conjuncts = .ok placed ∧
        ∀ s column constant, (s, column, constant) ∈ constants placed →
        ∀ key : ColumnKey, key.source ≠ s → Chained (equalities placed) (.ofRef s column) key →
          ∃ e, firstSpelling? (equalities placed) key = some e ∧
            (p.filters.getD key.source []).countP (·.sameText (.equality e constant)) =
              max 1 ((ownFilters placed key.source).countP
                (·.sameText (.equality e constant))) := by
  refine ⟨Equivalence.exists_keys_equalColumns, ?_⟩
  intro scope kinds conjuncts p hlen h
  obtain ⟨placed, hplaced, rfl⟩ := place_ok h
  refine ⟨placed, hplaced, fun s column constant hconstant key hne hchain => ?_⟩
  obtain ⟨e, he, hbrought⟩ := exists_spelling_mem_propagated hconstant hne hchain
  exact ⟨e, he, countP_filters_of_mem_propagated hlen hplaced _ hbrought⟩

/-- The equalities of the columns of three sources, in a circle and in different spellings, and
a constant for the first one. -/
def circle : List Conjunct :=
  [⟨.equality (columnOf "A" "X") (columnOf "b" "y"), .whereClause⟩,
    ⟨.equality (columnOf "B" "Y") (columnOf "C" "Z"), .whereClause⟩,
    ⟨.equality (columnOf "c" "z") (columnOf "a" "x"), .whereClause⟩,
    ⟨.equality (columnOf "a" "x") (.constant "1" 0), .whereClause⟩]

/-- The destinations of the circle between inner joins. -/
def circleDestinations : List (Expr × Destination) :=
  [(.equality (columnOf "A" "X") (columnOf "b" "y"),
      .edge ⟨columnOf "A" "X", 0, columnOf "b" "y", 1⟩),
    (.equality (columnOf "B" "Y") (columnOf "C" "Z"),
      .edge ⟨columnOf "B" "Y", 1, columnOf "C" "Z", 2⟩),
    (.equality (columnOf "c" "z") (columnOf "a" "x"),
      .edge ⟨columnOf "c" "z", 2, columnOf "a" "x", 0⟩),
    (.equality (columnOf "a" "x") (.constant "1" 0), .filter 0)]

/-- Around the circle the constant reaches the last source once. -/
theorem constant_goes_around_once :
    ∃ p, place threeSources [none, some .inner, some .inner] circle = .ok p ∧
      (p.filters.getD 2 []).countP
        (·.sameText (.equality (columnOf "C" "Z") (.constant "1" 0))) = 1 := by
  obtain ⟨p, h⟩ :
    ∃ p, place threeSources [none, some .inner, some .inner] circle = .ok p := ⟨_, rfl⟩
  obtain ⟨placed, hplaced, hconstants⟩ :=
    equal_columns_found_and_filtered.2 threeSources _ circle p rfl h
  have hcircle : destinations threeSources [none, some .inner, some .inner] circle =
      .ok circleDestinations := rfl
  obtain rfl : circleDestinations = placed := Except.ok.inj (hcircle.symm.trans hplaced)
  have hconstant : (0, .qualified "a" "x", .constant "1" 0) ∈ constants circleDestinations :=
    List.mem_cons_self
  have hchain : Chained (equalities circleDestinations) (.ofRef 0 (.qualified "a" "x"))
      ⟨2, "z"⟩ :=
    .head (b := ⟨1, "y"⟩) ⟨_, List.mem_cons_self, .inl ⟨rfl, rfl⟩⟩
      (.single ⟨_, List.mem_cons_of_mem _ List.mem_cons_self, .inl ⟨rfl, rfl⟩⟩)
  obtain ⟨e, he, hcount⟩ := hconstants _ _ _ hconstant ⟨2, "z"⟩ (by decide) hchain
  cases he
  exact ⟨p, h, hcount⟩

end SeriesQuery.Placement
