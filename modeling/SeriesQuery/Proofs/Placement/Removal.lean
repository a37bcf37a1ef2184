import SeriesQuery.Proofs.Placement.Evaluable

/-!
A `where` conjunct that reads a source which keeps its place does nothing before the join.

Such a conjunct waits for the last of its sources, whatever its shape
(`destination_of_where_fixed`). What waits is in no list but the one after a join
(`ofDestinations_waiting`), so a level without the conjunct is placed alike but for that
list (`place_without`).
-/

namespace SeriesQuery.Placement

variable {scope : Scope} {kinds : JoinKinds} {p : Placement}

/-! ### What waits for its sources -/

/-- A `where` conjunct with a source that keeps its place waits for all of its sources. An
equality is no exception: in `where` it may not relate a source that keeps its place. -/
theorem destination_of_where_fixed {c : Conjunct} {sources : List Nat} {s : Nat} {d : Destination}
    (hwhere : c.origin = .whereClause) (hsources : scope.sourcesIn c.expr = .ok sources)
    (hmem : s ∈ sources) (hfixed : kinds.isFixed s = true)
    (h : destination scope kinds c = .ok d) : d = .afterAll sources := by
  have hne := List.ne_nil_of_mem hmem
  have hfilters : c.origin.Filters kinds := by
    rw [hwhere]
    trivial
  have hsingle : innerDestination kinds c.origin sources none = .afterAll sources := by
    match sources with
    | [] => cases hmem
    | [source] =>
      obtain rfl := List.mem_singleton.mp hmem
      simp [innerDestination, hfixed]
    | _ :: _ :: _ => rfl
  cases hq : equalityOf scope c.expr with
  | error err =>
    obtain ⟨e, origin⟩ := c
    obtain rfl : origin = .whereClause := hwhere
    simp [destination, hsources, hq, hne, bind, Except.bind] at h
  | ok q =>
    rw [destination_of_filters hfilters hsources hne hq] at h
    cases h
    cases q with
    | none => exact hsingle
    | some q =>
      have hnot : mayRelate kinds c.origin s = false := by
        simp [mayRelate, hwhere, hfixed]
      have hrel : (mayRelate kinds c.origin q.leftSource &&
          mayRelate kinds c.origin q.rightSource) = false := by
        rcases Equality.touches_iff.mp ((mem_sources_of_equality hsources hq).mp hmem) with hs | hs
        · rw [hs, hnot, Bool.false_and]
        · rw [hs, hnot, Bool.and_false]
      simp only [innerDestination, hrel]
      exact hsingle

variable {front back : List (Expr × Destination)} {e : Expr} {sources : List Nat}

theorem postJoinFilters_append (order : List Nat) (s : Nat) :
    postJoinFilters (front ++ back) order s =
      postJoinFilters front order s ++ postJoinFilters back order s :=
  List.filterMap_append

theorem postJoinFilters_waiting (order : List Nat) (s : Nat) :
    postJoinFilters (front ++ (e, .afterAll sources) :: back) order s =
      if lastOf order sources = s then
        postJoinFilters front order s ++ e :: postJoinFilters back order s
      else postJoinFilters (front ++ back) order s := by
  rw [postJoinFilters_append, postJoinFilters_append]
  by_cases h : lastOf order sources = s
  · simp [postJoinFilters, h]
  · simp [postJoinFilters, h]

/-- What waits for its sources is in the list after the last of them and in no other. -/
theorem postJoin_waiting (order : List Nat) (n : Nat) :
    (List.range n).map (postJoinFilters (front ++ (e, .afterAll sources) :: back) order) =
      ((List.range n).map (postJoinFilters (front ++ back) order)).set (lastOf order sources)
        (postJoinFilters front order (lastOf order sources) ++
          e :: postJoinFilters back order (lastOf order sources)) := by
  apply List.ext_getElem?
  intro s
  by_cases hlt : s < n
  · rw [List.getElem?_set, List.getElem?_map, List.getElem?_map, List.getElem?_range hlt,
      List.length_map, List.length_range, Option.map_some, postJoinFilters_waiting]
    by_cases hs : lastOf order sources = s
    · rw [if_pos hs, if_pos hs, hs, if_pos hlt]
    · rw [if_neg hs, if_neg hs, Option.map_some]
  · rw [List.getElem?_eq_none (by simpa using hlt), List.getElem?_eq_none (by simpa using hlt)]

/-- Nothing else hangs on what waits for its sources. -/
theorem ofDestinations_waiting (names : List String) (kinds : JoinKinds) (order : List Nat)
    (horder : (ofDestinations names kinds (front ++ back)).order = order) :
    ofDestinations names kinds (front ++ (e, .afterAll sources) :: back) =
      { ofDestinations names kinds (front ++ back) with
        postJoin := (ofDestinations names kinds (front ++ back)).postJoin.set
          (lastOf order sources)
          (postJoinFilters front order (lastOf order sources) ++
            e :: postJoinFilters back order (lastOf order sources)) } := by
  subst horder
  have hedges : edges (front ++ (e, .afterAll sources) :: back) = edges (front ++ back) := by
    simp [edges]
  have hown : ownCriteria (front ++ (e, .afterAll sources) :: back) =
      ownCriteria (front ++ back) := by
    funext s
    simp [ownCriteria]
  have hfilters : sourceFilters (front ++ (e, .afterAll sources) :: back) =
      sourceFilters (front ++ back) := by
    funext s
    simp [sourceFilters, ownFilters, propagated, constants, equivalence, equalities]
  have hconst : constantFilters (front ++ (e, .afterAll sources) :: back) =
      constantFilters (front ++ back) := by
    simp [constantFilters]
  simp only [ofDestinations, hedges, hown, hfilters, hconst, postJoin_waiting]

/-! ### A level without a conjunct -/

/-- **A `where` conjunct that reads a source which keeps its place has no effect before the
join.** Without it the level is placed with the same order, criteria, filters and constant
filters, and everything waits for the same joins; the conjunct itself stands after the last
of the sources it reads. -/
theorem place_without (hlen : kinds.length = scope.entries.length) {before after : List Conjunct}
    {c : Conjunct} {s : Nat} (hwhere : c.origin = .whereClause)
    (hfixed : kinds.isFixed s = true) (hreads : scope.Reads c.expr s)
    (h : place scope kinds (before ++ c :: after) = .ok p) :
    ∃ p' t front back, place scope kinds (before ++ after) = .ok p' ∧
      scope.Reads c.expr t ∧ (∀ u, scope.Reads c.expr u → NoLater p.order t u) ∧
      p'.postJoin[t]? = some (front ++ back) ∧
      p = { p' with postJoin := p'.postJoin.set t (front ++ c.expr :: back) } := by
  obtain ⟨placed, hplaced, rfl⟩ := place_ok h
  obtain ⟨front, rest, hfront, hrest, rfl⟩ := destinations_append.mp hplaced
  obtain ⟨d, back, hd, hback, rfl⟩ := destinations_cons hrest
  obtain ⟨sources, hsources, -⟩ := destination_suits hd
  have hread : ∀ u, scope.Reads c.expr u ↔ u ∈ sources := fun u =>
    (Scope.mem_sourcesOf hsources).symm
  have hmem := (hread s).mp hreads
  obtain rfl := destination_of_where_fixed hwhere hsources hmem hfixed hd
  have hplaced' : destinations scope kinds (before ++ after) = .ok (front ++ back) :=
    destinations_append.mpr ⟨front, back, hfront, hback, rfl⟩
  let names := scope.entries.map fun e => e.name.getD ""
  let p' := ofDestinations names kinds (front ++ back)
  have hp' : place scope kinds (before ++ after) = .ok p' := by
    simp only [place, hplaced']
    rfl
  have hp : ofDestinations names kinds (front ++ (c.expr, .afterAll sources) :: back) = _ :=
    ofDestinations_waiting names kinds p'.order rfl
  have hlast := lastOf_mem p'.order (List.ne_nil_of_mem hmem)
  have hlt : ∀ t ∈ sources, t < kinds.length := fun t ht =>
    lt_length_of_mem_sources hlen hsources ht
  refine ⟨p', lastOf p'.order sources, _, _, hp', (hread _).mpr hlast, ?_, ?_, hp⟩
  · intro u hu
    rw [hp]
    exact noLater_lastOf (orderOf_nodup scope kinds (front ++ back))
      (fun t ht => mem_orderOf_of_lt (hlt t ht)) ((hread u).mp hu)
  · have hpost : p'.postJoin =
        (List.range kinds.length).map (postJoinFilters (front ++ back) p'.order) := rfl
    rw [hpost, List.getElem?_map, List.getElem?_range (hlt _ hlast), Option.map_some,
      postJoinFilters_append]

/-! ### A comparison after an outer join -/

/-- A comparison of the column of `b` with the one of `c`. -/
def comparison : Expr :=
  .binary .lt (columnOf "b" "y") (columnOf "c" "z") 0

/-- The comparison waits for `c`, and without it everything else is placed alike. -/
theorem place_without_comparison :
    ∃ p p' front back, place threeSources outerThenInner chainedJoins = .ok p ∧
      place threeSources outerThenInner (chainedJoins.take 2) = .ok p' ∧
      p'.postJoin[2]? = some (front ++ back) ∧
      p = { p' with postJoin := p'.postJoin.set 2 (front ++ comparison :: back) } := by
  obtain ⟨p, h⟩ : ∃ p, place threeSources outerThenInner
      (chainedJoins.take 2 ++ ⟨comparison, .whereClause⟩ :: []) = .ok p := ⟨_, rfl⟩
  have hb : threeSources.Reads comparison 1 :=
    ⟨(.qualified "b" "y", 0), by simp [comparison, columnOf, Expr.columns], fun _ => ⟨_, rfl⟩⟩
  have hc : threeSources.Reads comparison 2 :=
    ⟨(.qualified "c" "z", 0), by simp [comparison, columnOf, Expr.columns], fun _ => ⟨_, rfl⟩⟩
  have hsources : threeSources.sourcesIn comparison = .ok [1, 2] := rfl
  have hfixed : outerThenInner.isFixed 1 = true := rfl
  obtain ⟨p', t, front, back, hp', ht, hlast, hpost, heq⟩ := place_without rfl rfl hfixed hb h
  -- The last source of the comparison is `c`: the outer join of `b` keeps its place before it.
  obtain rfl : t = 2 := by
    have htwo : t = 1 ∨ t = 2 := by
      simpa using (Scope.mem_sourcesOf hsources).mpr ht
    rcases htwo with rfl | rfl
    · obtain ⟨placed, -, rfl⟩ := place_ok h
      have hle := (noLater_fixed_iff hfixed).mp (hlast 2 hc)
      omega
    · rfl
  exact ⟨p, p', front, back, h, hp', hpost, heq⟩

end SeriesQuery.Placement
