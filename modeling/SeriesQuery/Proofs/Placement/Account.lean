import SeriesQuery.Compile
import SeriesQuery.Proofs.Placement.Evaluable
import Mathlib.Data.List.Forall2

/-!
No conjunct is lost and none is used twice.

A placement is accounted for when every conjunct has one `Site` and each list of the
placement is made up of the conjuncts whose site it is, as they are written and in the order
in which they are written (`Accounted`). Criteria may be turned, and of those that decide the
join order one is left of several that are written alike. Behind the filters of a source
stand those that constants bring. `place_accounted` says that every placement is accounted
for.
-/

namespace SeriesQuery.Placement

open JoinGraph (laterSource)
open Relation (ReflTransGen)

/-! ### Sites -/

/-- A list of a placement. -/
inductive Site where
  | constant
  | criterion (source : Nat)
  | filter (source : Nat)
  | postJoin (source : Nat)
deriving DecidableEq, Repr

/-- The source whose list it is, if it is one of a source. -/
def Site.source? : Site → Option Nat
  | .constant => none
  | .criterion s | .filter s | .postJoin s => some s

/-- The conjuncts at a site, in the order in which they are written. -/
def standing (site : Conjunct → Site) (conjuncts : List Conjunct) (x : Site) : List Expr :=
  (conjuncts.filter fun c => site c = x).map Conjunct.expr

/-- An equality of two columns, as it is written or with its sides swapped. -/
inductive Turned : Expr → Expr → Prop where
  | same (l r : ColumnRef) (lp rp p : Nat) :
      Turned (.binary .eq (.column l lp) (.column r rp) p)
        (.equality (.column l lp) (.column r rp))
  | swapped (l r : ColumnRef) (lp rp p : Nat) :
      Turned (.binary .eq (.column l lp) (.column r rp) p)
        (.equality (.column r rp) (.column l lp))

/-- A conjunct stands in the `on` of a source, and the source keeps its place. -/
def inFixedOn (kinds : JoinKinds) (s : Nat) (c : Conjunct) : Bool :=
  c.origin = .on s && kinds.isFixed s

/-- A filter `column = constant` of a source: a conjunct at the filters of another source
equates its column with the constant, and recorded equalities link the two columns. -/
def Brought (scope : Scope) (kinds : JoinKinds) (conjuncts : List Conjunct)
    (site : Conjunct → Site) (s : Nat) (f : Expr) : Prop :=
  ∃ c ∈ conjuncts, ∃ s' column constant ref p, site c = .filter s' ∧ s ≠ s' ∧
    constantOf? c.expr = some (column, constant) ∧ f = .equality (.column ref p) constant ∧
    scope.LeadsTo ref s ∧
    ReflTransGen (Recorded scope kinds conjuncts) (.ofRef s' column) (.ofRef s ref)

/-- Every conjunct is in the list of a placement that `site` says, and in no other. -/
structure Accounted (scope : Scope) (kinds : JoinKinds) (conjuncts : List Conjunct)
    (p : Placement) (site : Conjunct → Site) : Prop where
  constFilters : p.constFilters = standing site conjuncts .constant
  /-- The filters that constants bring stand last, and none is written like another filter. -/
  filters : ∀ s, ∃ brought,
    p.filters.getD s [] = standing site conjuncts (.filter s) ++ brought ∧
    (∀ f ∈ brought, Brought scope kinds conjuncts site s f) ∧
    (∀ f ∈ brought, ∀ e ∈ standing site conjuncts (.filter s), e.text ≠ f.text) ∧
    brought.Pairwise fun f f' => f.text ≠ f'.text
  postJoin : ∀ s, p.postJoin.getD s [] = standing site conjuncts (.postJoin s)
  /-- The equalities of the `on` of a source that keeps its place stand first. Only of the
  others that are written alike the first one is left. -/
  criteria : ∀ s, ∃ own edges,
    p.criteria.getD s [] = own ++ edges.eraseDupsBy Expr.sameText ∧
    List.Forall₂ Turned
      (standing site (conjuncts.filter (inFixedOn kinds s)) (.criterion s)) own ∧
    List.Forall₂ Turned
      (standing site (conjuncts.filter fun c => !inFixedOn kinds s c) (.criterion s)) edges
  /-- The master has no criteria. -/
  master : p.criteria.getD 0 [] = []
  /-- The joins have all criteria among them. -/
  attached : ∀ pending : List Compile.UnplacedJoin, pending.length + 1 = kinds.length →
    ((Compile.placedJoins p pending).flatMap JoinClause.criteria).Perm p.criteria.flatten

/-! ### The destinations of all conjuncts -/

variable {scope : Scope} {kinds : JoinKinds} {conjuncts : List Conjunct} {p : Placement}
  {placed : List (Expr × Destination)} {order : List Nat}

/-- Where a conjunct goes that can go somewhere. -/
def goesTo (scope : Scope) (kinds : JoinKinds) (c : Conjunct) : Destination :=
  match destination scope kinds c with
  | .ok d => d
  | .error _ => .constant

theorem goesTo_eq {c : Conjunct} {d : Destination} (h : destination scope kinds c = .ok d) :
    goesTo scope kinds c = d := by
  simp [goesTo, h]

theorem destination_goesTo (h : destinations scope kinds conjuncts = .ok placed) {c : Conjunct}
    (hc : c ∈ conjuncts) : destination scope kinds c = .ok (goesTo scope kinds c) := by
  obtain ⟨d, hd, -⟩ := exists_destination h hc
  rw [hd, goesTo_eq hd]

theorem destinations_eq_map (h : destinations scope kinds conjuncts = .ok placed) :
    placed = conjuncts.map fun c => (c.expr, goesTo scope kinds c) := by
  induction conjuncts generalizing placed with
  | nil =>
    cases h
    rfl
  | cons c conjuncts ih =>
    obtain ⟨d, rest, hd, hrest, rfl⟩ := destinations_cons h
    rw [List.map_cons, goesTo_eq hd, ← ih hrest]

/-- The list that a conjunct is in that goes to a destination. -/
def siteOf (order : List Nat) : Destination → Site
  | .constant => .constant
  | .ownCriterion s _ => .criterion s
  | .ownFilter s => .filter s
  | .edge q => .criterion (laterSource order q)
  | .filter s => .filter s
  | .afterJoin s => .postJoin s
  | .afterAll sources => .postJoin (lastOf order sources)

/-- The list that a conjunct of a level is in. -/
abbrev siteIn (scope : Scope) (kinds : JoinKinds) (order : List Nat) (c : Conjunct) : Site :=
  siteOf order (goesTo scope kinds c)

theorem lt_length_of_timeJoin? {j : Nat} (h : kinds.timeJoin? = some j) : j < kinds.length :=
  (List.findIdx?_eq_some_iff_getElem.mp h).1

/-- The list of a conjunct is one that the placement has. -/
theorem source_lt_length (hlen : kinds.length = scope.entries.length) {c : Conjunct}
    {d : Destination} (h : destination scope kinds c = .ok d) {s : Nat}
    (hs : (siteOf order d).source? = some s) : s < kinds.length := by
  obtain ⟨sources, hsources, hsuits⟩ := destination_suits h
  have hread : ∀ t ∈ sources, t < kinds.length := fun t ht =>
    lt_length_of_mem_sources hlen hsources ht
  cases d with
  | constant => cases hs
  | ownCriterion j q =>
    cases hs
    obtain ⟨-, hj, -⟩ := hsuits
    exact JoinKinds.lt_length_of_isFixed hj
  | ownFilter j =>
    cases hs
    obtain ⟨-, hj, -⟩ := hsuits
    exact JoinKinds.lt_length_of_isFixed hj
  | edge q =>
    cases hs
    obtain ⟨-, hq, -⟩ := hsuits
    have htouches := JoinGraph.touches_laterSource order q
    exact hread _ ((mem_sources_of_equality hsources hq).mpr htouches)
  | filter t =>
    cases hs
    obtain ⟨-, -, rfl⟩ := hsuits
    exact hread _ List.mem_cons_self
  | afterJoin j =>
    cases hs
    rcases hsuits with ⟨-, hj⟩ | ⟨-, htime, -⟩
    · exact JoinKinds.lt_length_of_isFixed hj
    · exact lt_length_of_timeJoin? htime
  | afterAll ss =>
    cases hs
    obtain ⟨-, rfl, hne⟩ := hsuits
    exact hread _ (lastOf_mem order hne)

/-! ### The lists of conjuncts that stay as they are written -/

/-- What is taken from the destinations by the site alone is what stands there. -/
theorem filterMap_eq_standing {g : Expr × Destination → Option Expr} {x : Site}
    (hg : ∀ e d, g (e, d) = if siteOf order d = x then some e else none) :
    (conjuncts.map fun c => (c.expr, goesTo scope kinds c)).filterMap g =
      standing (siteIn scope kinds order) conjuncts x := by
  induction conjuncts with
  | nil => rfl
  | cons c conjuncts ih =>
    rw [List.map_cons, List.filterMap_cons, hg, ih]
    by_cases hsite : siteOf order (goesTo scope kinds c) = x
    · simp [standing, hsite]
    · simp [standing, hsite]

theorem constantFilters_eq (h : destinations scope kinds conjuncts = .ok placed) :
    constantFilters placed = standing (siteIn scope kinds order) conjuncts .constant := by
  rw [destinations_eq_map h, constantFilters]
  apply filterMap_eq_standing
  intro e d
  cases d <;> simp [siteOf]

theorem ownFilters_eq (h : destinations scope kinds conjuncts = .ok placed) (s : Nat) :
    ownFilters placed s = standing (siteIn scope kinds order) conjuncts (.filter s) := by
  rw [destinations_eq_map h, ownFilters]
  apply filterMap_eq_standing
  intro e d
  cases d <;> simp [siteOf]

theorem postJoinFilters_eq (h : destinations scope kinds conjuncts = .ok placed) (s : Nat) :
    postJoinFilters placed order s =
      standing (siteIn scope kinds order) conjuncts (.postJoin s) := by
  rw [destinations_eq_map h, postJoinFilters]
  apply filterMap_eq_standing
  intro e d
  cases d <;> simp [siteOf]

/-! ### The filters that constants bring -/

/-- The filters of a source are its conjuncts and, behind them, those that are brought. -/
theorem sourceFilters_eq (h : destinations scope kinds conjuncts = .ok placed) (s : Nat) :
    ∃ brought, sourceFilters placed s =
        standing (siteIn scope kinds order) conjuncts (.filter s) ++ brought ∧
      (∀ f ∈ brought, Brought scope kinds conjuncts (siteIn scope kinds order) s f) ∧
      (∀ f ∈ brought, ∀ e ∈ standing (siteIn scope kinds order) conjuncts (.filter s),
        e.text ≠ f.text) ∧
      brought.Pairwise fun f f' => f.text ≠ f'.text := by
  refine ⟨_, by rw [sourceFilters, Expr.extendDistinct_eq_append, ownFilters_eq h], ?_, ?_,
    Expr.pairwise_eraseDupsBy _⟩
  · intro f hf
    have hall := (List.mem_filter.mp ((Expr.eraseDupsBy_sublist _).mem hf)).1
    obtain ⟨⟨t, f⟩, hhere, rfl⟩ := List.mem_map.mp hall
    obtain ⟨hmem, ht⟩ := List.mem_filter.mp hhere
    obtain rfl : t = s := of_decide_eq_true ht
    obtain ⟨c, hc, s', column, constant, ref, q, hd, hconstant, hf, hlead, hne, hchain⟩ :=
      propagated_chain h hmem
    have hsite : siteIn scope kinds order c = .filter s' := by
      rw [siteIn, goesTo_eq hd]
      rfl
    exact ⟨c, hc, s', column, constant, ref, q, hsite, hne, hconstant, hf, hlead, hchain⟩
  · intro f hf e he heq
    have hnew := (List.mem_filter.mp ((Expr.eraseDupsBy_sublist _).mem hf)).2
    have hknown : (standing (siteIn scope kinds order) conjuncts (.filter s)).any
        (fun a => a.sameText f) = true :=
      List.any_eq_true.mpr ⟨e, he, Expr.sameText_iff.mpr heq⟩
    simp [hknown] at hnew

/-! ### Criteria -/

theorem turned_startingAt {e : Expr} {q : Equality} (hq : equalityOf scope e = .ok (some q))
    (s : Nat) : Turned e (q.startingAt s) := by
  obtain ⟨l, r, lp, rp, p, rfl, hleft, hright, -⟩ := equalityOf_eq_some hq
  rcases q.startingAt_eq s with h | h
  · rw [h, hleft, hright]
    exact .same l r lp rp p
  · rw [h, hleft, hright]
    exact .swapped l r lp rp p

/-- Conjuncts that stand at a site and what is made of them, one by one. -/
theorem forall₂_standing {site : Conjunct → Site} {x : Site} {keep : Conjunct → Bool}
    {k : Conjunct → Option Expr}
    (hsome : ∀ c ∈ conjuncts, keep c = true → site c = x → ∃ e, k c = some e ∧ Turned c.expr e)
    (hnone : ∀ c ∈ conjuncts, ¬ (keep c = true ∧ site c = x) → k c = none) :
    List.Forall₂ Turned (standing site (conjuncts.filter keep) x) (conjuncts.filterMap k) := by
  induction conjuncts with
  | nil => exact .nil
  | cons c conjuncts ih =>
    have hrest := ih (fun c hc => hsome c (List.mem_cons_of_mem _ hc))
      (fun c hc => hnone c (List.mem_cons_of_mem _ hc))
    by_cases hc : keep c = true ∧ site c = x
    · obtain ⟨e, hk, hturned⟩ := hsome c List.mem_cons_self hc.1 hc.2
      have hstanding : standing site ((c :: conjuncts).filter keep) x =
          c.expr :: standing site (conjuncts.filter keep) x := by
        simp [standing, hc.1, hc.2]
      rw [hstanding, List.filterMap_cons_some hk]
      exact .cons hturned hrest
    · have hstanding : standing site ((c :: conjuncts).filter keep) x =
          standing site (conjuncts.filter keep) x := by
        cases hkeep : keep c with
        | false => simp [standing, hkeep]
        | true =>
          have hsite : site c ≠ x := fun hsite => hc ⟨hkeep, hsite⟩
          simp [standing, hkeep, hsite]
      rw [hstanding, List.filterMap_cons_none (hnone c List.mem_cons_self hc)]
      exact hrest

theorem not_inFixedOn {c : Conjunct} {s : Nat} (h : c.origin.Filters kinds) :
    inFixedOn kinds s c = false := by
  cases hwritten : c.origin with
  | whereClause => simp [inFixedOn, hwritten]
  | on j =>
    rw [hwritten] at h
    by_cases hj : j = s
    · subst hj
      have hfree : kinds.isFixed j = false := h
      simp [inFixedOn, hwritten, hfree]
    · simp [inFixedOn, hwritten, hj]

/-- A conjunct at the criteria of a source is an equality. It went there on its own account
if it stands in the `on` of that source and the source keeps its place, and otherwise as one
that decides the join order. -/
theorem criterion_cases (h : destinations scope kinds conjuncts = .ok placed) {c : Conjunct}
    (hc : c ∈ conjuncts) {s : Nat} (hsite : siteIn scope kinds order c = .criterion s) :
    ∃ q, equalityOf scope c.expr = .ok (some q) ∧
      ((inFixedOn kinds s c = true ∧ goesTo scope kinds c = .ownCriterion s q) ∨
        (inFixedOn kinds s c = false ∧ goesTo scope kinds c = .edge q ∧
          laterSource order q = s)) := by
  obtain ⟨sources, -, hsuits⟩ := destination_suits (destination_goesTo h hc)
  cases hd : goesTo scope kinds c with
  | ownCriterion j q =>
    rw [hd] at hsuits
    obtain ⟨horigin, hj, hq, -⟩ := hsuits
    obtain rfl : j = s := by simpa [siteIn, hd, siteOf] using hsite
    exact ⟨q, hq, Or.inl ⟨by simp [inFixedOn, horigin, hj], rfl⟩⟩
  | edge q =>
    rw [hd] at hsuits
    obtain ⟨horigin, hq, -⟩ := hsuits
    have hlater : laterSource order q = s := by simpa [siteIn, hd, siteOf] using hsite
    exact ⟨q, hq, Or.inr ⟨not_inFixedOn horigin, rfl, hlater⟩⟩
  | constant | ownFilter _ | filter _ | afterJoin _ | afterAll _ =>
    simp [siteIn, hd, siteOf] at hsite

/-- The equalities of the `on` of a source that keeps its place. -/
theorem ownCriteria_turned (h : destinations scope kinds conjuncts = .ok placed) (s : Nat) :
    List.Forall₂ Turned
      (standing (siteIn scope kinds order) (conjuncts.filter (inFixedOn kinds s))
        (.criterion s)) (ownCriteria placed s) := by
  rw [destinations_eq_map h, ownCriteria, List.filterMap_map]
  apply forall₂_standing
  · intro c hc hkeep hsite
    obtain ⟨q, hq, ⟨-, hd⟩ | ⟨hfree, -⟩⟩ := criterion_cases h hc hsite
    · exact ⟨q.startingAt s, by simp [hd], turned_startingAt hq s⟩
    · rw [hkeep] at hfree
      cases hfree
  · intro c hc hnot
    cases hd : goesTo scope kinds c with
    | ownCriterion j q =>
      have hne : j ≠ s := by
        rintro rfl
        have hsite : siteIn scope kinds order c = .criterion j := by
          rw [siteIn, hd]
          rfl
        obtain ⟨q', -, ⟨hown, -⟩ | ⟨-, hd', -⟩⟩ := criterion_cases h hc hsite
        · exact hnot ⟨hown, hsite⟩
        · rw [hd] at hd'
          cases hd'
      simp [hd, hne]
    | constant | ownFilter _ | edge _ | filter _ | afterJoin _ | afterAll _ => simp [hd]

/-- The criteria of a source that equalities of other clauses are, as they are recorded. -/
def edgeCriteria (placed : List (Expr × Destination)) (order : List Nat) (s : Nat) : List Expr :=
  placed.filterMap fun
    | (_, .edge q) => if laterSource order q = s then some (q.startingAt s) else none
    | _ => none

theorem graph_criteria_eq (names : List String) (s : Nat) :
    JoinGraph.criteria ⟨names, edges placed⟩ order s =
      (edgeCriteria placed order s).eraseDupsBy Expr.sameText := by
  rw [JoinGraph.criteria, Expr.extendDistinct_nil, edges, List.filter_filterMap,
    List.map_filterMap, edgeCriteria]
  congr 1
  apply List.filterMap_congr
  rintro ⟨e, d⟩ -
  cases d with
  | edge q => by_cases hs : laterSource order q = s <;> simp [hs]
  | constant | ownCriterion _ _ | ownFilter _ | filter _ | afterJoin _ | afterAll _ => rfl

/-- The equalities of the other clauses. -/
theorem edgeCriteria_turned (h : destinations scope kinds conjuncts = .ok placed) (s : Nat) :
    List.Forall₂ Turned
      (standing (siteIn scope kinds order) (conjuncts.filter fun c => !inFixedOn kinds s c)
        (.criterion s)) (edgeCriteria placed order s) := by
  rw [destinations_eq_map h, edgeCriteria, List.filterMap_map]
  apply forall₂_standing
  · intro c hc hkeep hsite
    obtain ⟨q, hq, ⟨hown, -⟩ | ⟨-, hd, hlater⟩⟩ := criterion_cases h hc hsite
    · rw [hown] at hkeep
      cases hkeep
    · exact ⟨q.startingAt s, by simp [hd, hlater], turned_startingAt hq s⟩
  · intro c hc hnot
    cases hd : goesTo scope kinds c with
    | edge q =>
      have hne : laterSource order q ≠ s := by
        rintro rfl
        have hsite : siteIn scope kinds order c = .criterion (laterSource order q) := by
          rw [siteIn, hd]
          rfl
        obtain ⟨q', -, ⟨-, hd'⟩ | ⟨hfree, -⟩⟩ := criterion_cases h hc hsite
        · rw [hd] at hd'
          cases hd'
        · exact hnot ⟨by simp [hfree], hsite⟩
      simp [hd, hne]
    | constant | ownCriterion _ _ | ownFilter _ | filter _ | afterJoin _ | afterAll _ => simp [hd]

/-! ### The lists of a placement -/

/-- A list by source holds all of `f` if `f` has nothing for a source that is not there. -/
theorem getD_bySource_eq {f : Nat → List Expr} {n : Nat} (h : ∀ s, ¬ s < n → f s = [])
    (s : Nat) : ((List.range n).map f).getD s [] = f s := by
  rw [getD_bySource]
  by_cases hs : s < n
  · exact if_pos hs
  · rw [if_neg hs, h s hs]

/-- Of the conjuncts nothing goes to a source that is not there. -/
theorem filterMap_eq_nil (order : List Nat) (hlen : kinds.length = scope.entries.length)
    (h : destinations scope kinds conjuncts = .ok placed) {g : Expr × Destination → Option Expr}
    {s : Nat} (hg : ∀ e d, (siteOf order d).source? ≠ some s → g (e, d) = none)
    (hs : ¬ s < kinds.length) : placed.filterMap g = [] := by
  apply List.filterMap_eq_nil_iff.mpr
  rintro ⟨e, d⟩ hmem
  apply hg
  intro hsource
  obtain ⟨c, -, -, hd⟩ := (mem_destinations h).mp hmem
  exact hs (source_lt_length hlen hd hsource)

theorem ownFilters_eq_nil (hlen : kinds.length = scope.entries.length)
    (h : destinations scope kinds conjuncts = .ok placed) {s : Nat} (hs : ¬ s < kinds.length) :
    ownFilters placed s = [] := by
  apply filterMap_eq_nil [] hlen h _ hs
  intro e d hd
  cases d <;> simp_all [siteOf, Site.source?]

theorem postJoinFilters_eq_nil (hlen : kinds.length = scope.entries.length)
    (h : destinations scope kinds conjuncts = .ok placed) {s : Nat} (hs : ¬ s < kinds.length) :
    postJoinFilters placed order s = [] := by
  apply filterMap_eq_nil order hlen h _ hs
  intro e d hd
  cases d <;> simp_all [siteOf, Site.source?]

theorem ownCriteria_eq_nil (hlen : kinds.length = scope.entries.length)
    (h : destinations scope kinds conjuncts = .ok placed) {s : Nat} (hs : ¬ s < kinds.length) :
    ownCriteria placed s = [] := by
  apply filterMap_eq_nil [] hlen h _ hs
  intro e d hd
  cases d <;> simp_all [siteOf, Site.source?]

theorem edgeCriteria_eq_nil (hlen : kinds.length = scope.entries.length)
    (h : destinations scope kinds conjuncts = .ok placed) {s : Nat} (hs : ¬ s < kinds.length) :
    edgeCriteria placed order s = [] := by
  apply filterMap_eq_nil order hlen h _ hs
  intro e d hd
  cases d <;> simp_all [siteOf, Site.source?]

theorem getD_filters (hlen : kinds.length = scope.entries.length)
    (h : destinations scope kinds conjuncts = .ok placed) (names : List String) (s : Nat) :
    (ofDestinations names kinds placed).filters.getD s [] = sourceFilters placed s := by
  apply getD_bySource_eq
  intro s hs
  apply List.eq_nil_iff_forall_not_mem.mpr
  intro e he
  rcases mem_of_mem_sourceFilters he with he | he
  · rw [ownFilters_eq_nil hlen h hs] at he
    cases he
  · obtain ⟨-, -, -, -, -, ref, -, -, -, -, hlead, -⟩ := propagated_chain h he
    exact hs (hlen ▸ hlead.lt_length)

theorem getD_postJoin (hlen : kinds.length = scope.entries.length)
    (h : destinations scope kinds conjuncts = .ok placed) (names : List String) (s : Nat) :
    (ofDestinations names kinds placed).postJoin.getD s [] =
      postJoinFilters placed (ofDestinations names kinds placed).order s := by
  apply getD_bySource_eq
  intro s hs
  exact postJoinFilters_eq_nil hlen h hs

theorem getD_criteria (hlen : kinds.length = scope.entries.length)
    (h : destinations scope kinds conjuncts = .ok placed) (names : List String) (s : Nat) :
    (ofDestinations names kinds placed).criteria.getD s [] = ownCriteria placed s ++
      (edgeCriteria placed (ofDestinations names kinds placed).order s).eraseDupsBy
        Expr.sameText := by
  rw [← graph_criteria_eq (names.map Ascii.lower)]
  apply getD_bySource_eq
  intro s hs
  rw [ownCriteria_eq_nil hlen h hs, graph_criteria_eq, edgeCriteria_eq_nil hlen h hs]
  rfl

theorem criteria_master (hlen : kinds.length = scope.entries.length)
    (h : place scope kinds conjuncts = .ok p) : p.criteria.getD 0 [] = [] := by
  apply List.eq_nil_iff_forall_not_mem.mpr
  intro e he
  obtain ⟨c, -, q, -, -, -, hbefore, -⟩ := criterion_conjunct hlen h he
  obtain ⟨placed, -, rfl⟩ := place_ok h
  exact JoinGraph.not_before_zero _ _ _ hbefore

/-! ### The joins -/

theorem flatMap_getD (lists : List (List Expr)) :
    ((List.range lists.length).flatMap fun s => lists.getD s []) = lists.flatten := by
  have hmap : (List.range lists.length).map (fun s => lists.getD s []) = lists := by
    apply List.ext_getElem
    · simp
    · intro s hs hlt
      simp [hlt]
  rw [List.flatMap_def, hmap]

/-- The joins of some sources have the criteria of these sources. -/
theorem criteria_of_joins {pending : List Compile.UnplacedJoin} {sources : List Nat}
    (h : ∀ s ∈ sources, 0 < s ∧ s < pending.length + 1) :
    (sources.filterMap fun s => pending[s - 1]?.map (Compile.placedJoin p s)).flatMap
      JoinClause.criteria = sources.flatMap fun s => p.criteria.getD s [] := by
  induction sources with
  | nil => rfl
  | cons s sources ih =>
    have hlt : s - 1 < pending.length := by
      have := h s List.mem_cons_self
      omega
    have hjoin : pending[s - 1]?.map (Compile.placedJoin p s) =
        some (Compile.placedJoin p s pending[s - 1]) := by
      rw [List.getElem?_eq_getElem hlt]
      rfl
    have hrest := ih fun t ht => h t (List.mem_cons_of_mem _ ht)
    simp only [List.filterMap_cons, hjoin, List.flatMap_cons, hrest]
    rfl

/-- The joins of a level have all its criteria: the master, which is not joined, has none. -/
theorem placedJoins_criteria (hlen : kinds.length = scope.entries.length)
    (h : place scope kinds conjuncts = .ok p) {pending : List Compile.UnplacedJoin}
    (hpending : pending.length + 1 = kinds.length) :
    ((Compile.placedJoins p pending).flatMap JoinClause.criteria).Perm p.criteria.flatten := by
  have hmaster := criteria_master hlen h
  obtain ⟨placed, -, rfl⟩ := place_ok h
  obtain ⟨rest, horder, hperm⟩ := JoinGraph.order_eq_cons
    ⟨(scope.entries.map fun e => e.name.getD "").map Ascii.lower, edges placed⟩ kinds.fixed
  have hfixed : kinds.fixed.tail.length = pending.length := by
    simp [JoinKinds.fixed, ← hpending]
  rw [hfixed] at hperm
  generalize hp : ofDestinations (scope.entries.map fun e => e.name.getD "") kinds placed = p
    at hmaster ⊢
  have hplaced : Compile.placedJoins p pending =
      rest.filterMap fun s => pending[s - 1]?.map (Compile.placedJoin p s) := by
    rw [Compile.placedJoins, ← hp]
    simp only [ofDestinations, horder, List.tail_cons]
  have hjoined : ∀ s ∈ rest, 0 < s ∧ s < pending.length + 1 := by
    intro s hs
    have := List.mem_range'_1.mp (hperm.mem_iff.mp hs)
    omega
  have hlength : p.criteria.length = pending.length + 1 := by
    rw [hpending, ← hp]
    simp [ofDestinations]
  have hall : p.criteria.flatten =
      (List.range' 1 pending.length).flatMap fun s => p.criteria.getD s [] := by
    rw [← flatMap_getD, hlength, List.range_eq_range', List.range'_succ, List.flatMap_cons, hmaster,
      List.nil_append]
  rw [hplaced, criteria_of_joins hjoined, hall]
  exact hperm.flatMap_right _

/-! ### All conjuncts of a level -/

/-- **No conjunct is lost and none is used twice.** Every placement has each conjunct of its
level in one list: as it is written, or turned if it is a column equality. Only equalities
that decide the join order and are written alike are listed once. All else in the placement
are filters that constants bring, each behind the conjuncts of its source and unlike them,
and no criterion is left out of the joins. -/
theorem place_accounted (hlen : kinds.length = scope.entries.length)
    (h : place scope kinds conjuncts = .ok p) :
    ∃ site, Accounted scope kinds conjuncts p site := by
  obtain ⟨placed, hplaced, rfl⟩ := place_ok h
  exact ⟨siteIn scope kinds (orderOf scope kinds placed), {
    constFilters := constantFilters_eq hplaced
    filters := by
      intro s
      rw [getD_filters hlen hplaced]
      exact sourceFilters_eq hplaced s
    postJoin := by
      intro s
      rw [getD_postJoin hlen hplaced]
      exact postJoinFilters_eq hplaced s
    criteria := by
      intro s
      rw [getD_criteria hlen hplaced]
      exact ⟨_, _, rfl, ownCriteria_turned hplaced s, edgeCriteria_turned hplaced s⟩
    master := criteria_master hlen h
    attached := fun pending hpending => placedJoins_criteria hlen h hpending }⟩

/-! ### Conditions of many kinds -/

/-- A condition without columns, an equality of the `on` of the outer join of `b`, one of `a`
and `c` that is written both ways round, a constant of `a` that it brings to the others, and
a comparison that waits for `c`. -/
def mixedConditions : List Conjunct :=
  [⟨.equality (.constant "1" 0) (.constant "1" 0), .whereClause⟩,
    ⟨.equality (columnOf "a" "x") (columnOf "b" "y"), .on 1⟩,
    ⟨.equality (columnOf "a" "x") (columnOf "c" "z"), .on 2⟩,
    ⟨.equality (columnOf "c" "z") (columnOf "a" "x"), .whereClause⟩,
    ⟨.equality (columnOf "a" "x") (.constant "100" 0), .whereClause⟩,
    ⟨.binary .lt (columnOf "b" "y") (columnOf "c" "z") 0, .whereClause⟩]

theorem place_accounted_mixed_conditions :
    ∃ p, place threeSources outerThenInner mixedConditions = .ok p ∧
      ∃ site, Accounted threeSources outerThenInner mixedConditions p site := by
  obtain ⟨p, h⟩ : ∃ p, place threeSources outerThenInner mixedConditions = .ok p := ⟨_, rfl⟩
  exact ⟨p, h, place_accounted rfl h⟩

end SeriesQuery.Placement
