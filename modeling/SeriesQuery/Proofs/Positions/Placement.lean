import SeriesQuery.Placement
import SeriesQuery.Proofs.Positions.Statement

/-!
Conditions that are placed without positions.

Where a reference leads does not hang on its position, nor does the place of a conjunct or the
order of the joins, so the conjuncts without positions are placed as they are with them
(`Placement.place_forgets`).
-/

namespace SeriesQuery

open Forgetful

/-! ### References -/

namespace Scope

theorem declare_forgets (s : Scope) (name : Option String) (given : Option Ident)
    (columns : List ShownColumn) :
    Forgets id (s.declare name given columns) (s.declare name (given.map Ident.erase) columns) := by
  cases given with
  | none => rfl
  | some a => exact Forgets.ite (Forgets.fail _ _) rfl

theorem resolve_forgets (s : Scope) (ref : ColumnRef) (position : Nat) :
    Forgets id (s.resolve ref position) (s.resolve ref 0) := by
  unfold resolve
  cases ref.qualifier with
  | none =>
    dsimp only
    rcases s.holders ref.name with _ | ⟨r, _ | ⟨r', rs⟩⟩ <;> rfl
  | some qualifier =>
    dsimp only
    rcases s.named qualifier with _ | ⟨⟨entry, source⟩, _ | ⟨e, es⟩⟩
    · rfl
    · cases hcolumn : entry.column? ref.name <;> simp only [hcolumn] <;> rfl
    · rfl

theorem sourcesOf_forgets (s : Scope) (refs : List (ColumnRef × Nat)) :
    Forgets id (s.sourcesOf refs) (s.sourcesOf (refs.map Expr.unplaced)) := by
  induction refs with
  | nil => rfl
  | cons ref refs ih =>
    simp only [List.map_cons, Expr.unplaced, sourcesOf, (s.resolve_forgets ref.1 ref.2).eq, ih.eq]
    cases s.resolve ref.1 ref.2 with
    | error e => rfl
    | ok resolved => cases s.sourcesOf refs <;> rfl

theorem sourcesIn_forgets (s : Scope) (e : Expr) :
    Forgets id (s.sourcesIn e) (s.sourcesIn e.erase) := by
  rw [sourcesIn, sourcesIn, Expr.columns_erase]
  exact s.sourcesOf_forgets e.columns

end Scope

/-! ### Equalities -/

namespace Expr

theorem addDistinct_erase (es : List Expr) (e : Expr) :
    addDistinct (es.map erase) e.erase = (addDistinct es e).map erase := by
  simp only [addDistinct, List.any_map, Function.comp_def, sameText_erase]
  split <;> simp

theorem extendDistinct_erase (es more : List Expr) :
    extendDistinct (es.map erase) (more.map erase) = (extendDistinct es more).map erase := by
  induction more generalizing es with
  | nil => rfl
  | cons e more ih =>
    simp only [extendDistinct, List.map_cons, List.foldl_cons, addDistinct_erase] at ih ⊢
    exact ih _

end Expr

namespace Equality

/-- An equality without positions. -/
def erase (e : Equality) : Equality :=
  ⟨e.left.erase, e.leftSource, e.right.erase, e.rightSource⟩

theorem startingAt_erase (e : Equality) (source : Nat) :
    e.erase.startingAt source = (e.startingAt source).erase := by
  by_cases h : e.leftSource = source <;> simp [startingAt, erase, h]

theorem relates_erase (e : Equality) (a b : Nat) : e.erase.relates a b = e.relates a b := rfl

theorem touches_erase (e : Equality) (source : Nat) : e.erase.touches source = e.touches source :=
  rfl

end Equality

namespace Equivalence

/-- What is known about equal columns, spelled without positions. -/
def erase (q : Equivalence) : Equivalence :=
  ⟨q.columns.map (Prod.map id Expr.erase), q.links⟩

theorem lookup_map_erase (columns : List (ColumnKey × Expr)) (key : ColumnKey) :
    (columns.map (Prod.map id Expr.erase)).lookup key = (columns.lookup key).map Expr.erase := by
  induction columns with
  | nil => rfl
  | cons c columns ih =>
    obtain ⟨k, e⟩ := c
    simp only [List.map_cons, Prod.map_apply, id_eq, List.lookup_cons, ih]
    split <;> rfl

theorem mentionExpr_erase (q : Equivalence) (source : Nat) (e : Expr) :
    q.erase.mentionExpr source e.erase = (q.mentionExpr source e).erase := by
  simp only [mentionExpr, ColumnKey.ofExpr?, Expr.column?_erase]
  cases e.column?.map (ColumnKey.ofRef source) with
  | none => rfl
  | some key =>
    simp only [mention, erase, lookup_map_erase, Option.isSome_map]
    split <;> simp

theorem link_erase (q : Equivalence) (a b : ColumnKey) :
    q.erase.link a b = (q.link a b).erase := by
  by_cases h : q.linked a b = true
  · rw [link, link, if_pos h, if_pos (show q.erase.linked a b = true from h)]
  · rw [link, link, if_neg h, if_neg (show ¬ q.erase.linked a b = true from h)]
    rfl

theorem add_erase (q : Equivalence) (e : Equality) : q.erase.add e.erase = (q.add e).erase := by
  simp only [add, Equality.erase, mentionExpr_erase, ColumnKey.ofExpr?, Expr.column?_erase]
  split
  · exact link_erase _ _ _
  · rfl

theorem neighbours_erase (q : Equivalence) (key : ColumnKey) :
    q.erase.neighbours key = q.neighbours key := rfl

theorem spread_erase (q : Equivalence) (unvisited queue : List ColumnKey) :
    q.erase.spread unvisited queue = q.spread unvisited queue := by
  fun_induction spread q unvisited queue with
  | case1 => rw [spread]
  | case2 unvisited key queue ih => rw [spread, neighbours_erase, ih]

theorem reachable_erase (q : Equivalence) (key : ColumnKey) :
    q.erase.reachable key = q.reachable key := by
  rw [reachable, spread_erase, reachable]
  simp [erase, Function.comp_def]

theorem equalColumns_erase (q : Equivalence) (source : Nat) (ref : ColumnRef) :
    q.erase.equalColumns source ref =
      (q.equalColumns source ref).map (Prod.map id Expr.erase) := by
  have hlookup : ∀ key, q.erase.columns.lookup key = (q.columns.lookup key).map Expr.erase :=
    lookup_map_erase q.columns
  simp only [equalColumns, hlookup, reachable_erase, Option.isSome_map]
  split
  · rw [List.map_mergeSort (f := Prod.map id Expr.erase) (r := fun a b : Nat × Expr => a.1 ≤ b.1)
      (s := fun a b : Nat × Expr => a.1 ≤ b.1) fun _ _ _ _ => rfl]
    simp [List.map_filterMap, Function.comp_def]
  · rfl

end Equivalence

/-! ### The order of the joins -/

namespace JoinGraph

/-- Sources with the same names and the same equalities between them are taken in the same
order. -/
theorem arrange_congr {g h : JoinGraph} (hnames : g.names = h.names)
    (hconnected : g.connected = h.connected) (hrelated : g.isRelated = h.isRelated)
    (queue segment : List Nat) : g.arrange queue segment = h.arrange queue segment := by
  have hbyName : g.byName = h.byName := by
    obtain ⟨names, edges⟩ := g
    obtain ⟨names', edges'⟩ := h
    obtain rfl : names = names' := hnames
    rfl
  have hreached : g.reached = h.reached := by
    funext source segment
    simp only [reached, hbyName, hconnected]
  have hunreached : g.unreached = h.unreached := by
    funext source segment
    simp only [unreached, hconnected]
  have hstart : g.start? = h.start? := by
    funext sources
    simp only [start?, hbyName, hrelated]
  fun_induction arrange g queue segment with
  | case1 segment source queue reached ih =>
    rw [arrange, ih, hunreached, ← hreached]
  | case2 segment s hs ih =>
    rw [hstart] at hs
    rw [ih]
    conv_rhs => rw [arrange]
    split
    · rename_i s' hs'
      rw [hs] at hs'
      cases hs'
      rfl
    · rename_i hs'
      rw [hs] at hs'
      cases hs'
  | case3 segment hs =>
    rw [hstart] at hs
    conv_rhs => rw [arrange]
    split
    · rename_i s' hs'
      rw [hs] at hs'
      cases hs'
    · rfl

theorem order_congr {g h : JoinGraph} (hnames : g.names = h.names)
    (hconnected : g.connected = h.connected) (hrelated : g.isRelated = h.isRelated)
    (fixed : List Bool) : g.order fixed = h.order fixed := by
  have hfrom : ∀ (fixed : List Bool) (placed segment : List Nat) (source : Nat),
      g.orderFrom placed segment source fixed = h.orderFrom placed segment source fixed := by
    intro fixed
    induction fixed with
    | nil => simp only [orderFrom, arrange_congr hnames hconnected hrelated, implies_true]
    | cons b fixed ih =>
      cases b <;> simp only [orderFrom, arrange_congr hnames hconnected hrelated, ih, implies_true]
  exact hfrom _ _ _ _

/-- Equalities between sources without positions. -/
def erase (g : JoinGraph) : JoinGraph :=
  ⟨g.names, g.edges.map Equality.erase⟩

theorem order_erase (g : JoinGraph) (fixed : List Bool) : g.erase.order fixed = g.order fixed := by
  refine order_congr (g := g.erase) (h := g) rfl ?_ ?_ fixed
  · funext a b
    simp [connected, erase, Function.comp_def, Equality.relates_erase]
  · funext a
    simp [isRelated, erase, Function.comp_def, Equality.touches_erase]

theorem criteria_erase (g : JoinGraph) (order : List Nat) (source : Nat) :
    g.erase.criteria order source = (g.criteria order source).map Expr.erase := by
  rw [criteria, criteria, ← Expr.extendDistinct_erase, erase, List.filter_map, List.map_map,
    List.map_map]
  congr 1
  exact List.map_congr_left fun e _ => e.startingAt_erase source

end JoinGraph

/-! ### Where conjuncts go -/

/-- A conjunct without positions. -/
def Conjunct.erase (c : Conjunct) : Conjunct :=
  ⟨c.expr.erase, c.origin⟩

theorem Conjunct.ofCondition_erase (origin : Origin) (condition : Expr) :
    ofCondition origin condition.erase = (ofCondition origin condition).map Conjunct.erase := by
  simp [ofCondition, ← Expr.erase_pushNegations, ← Expr.map_erase_conjuncts, Conjunct.erase,
    Function.comp_def]

/-- A destination without positions. -/
def Destination.erase : Destination → Destination
  | ownCriterion source equality => ownCriterion source equality.erase
  | edge equality => edge equality.erase
  | d => d

namespace Placement

theorem equalityOf_forgets (scope : Scope) (e : Expr) :
    Forgets (Option.map Equality.erase) (equalityOf scope e) (equalityOf scope e.erase) := by
  cases e with
  | binary op left right p =>
    cases op with
    | eq =>
      simp only [Expr.erase, equalityOf, Expr.column?_erase, Expr.position_erase]
      cases left.column? with
      | none => rfl
      | some l =>
        cases right.column? with
        | none => rfl
        | some r =>
          refine bind (scope.resolve_forgets l _) fun a => ?_
          refine bind (scope.resolve_forgets r _) fun b => ?_
          exact Forgets.ite rfl rfl
    | _ => rfl
  | _ => rfl

theorem constantOf?_erase (e : Expr) :
    constantOf? e.erase = (constantOf? e).map (Prod.map id Expr.erase) := by
  cases e with
  | binary op left right p =>
    cases op with
    | eq =>
      simp only [Expr.erase, constantOf?, Expr.column?_erase, Expr.isConstant_erase]
      cases left.column? <;> cases right.column? <;> try rfl
      · dsimp only
        split <;> rfl
      · dsimp only
        split <;> rfl
    | _ => rfl
  | _ => rfl

theorem onDestination_erase (join : Nat) (sources : List Nat) (equality : Option Equality) :
    onDestination join sources (equality.map Equality.erase) =
      (onDestination join sources equality).erase := by
  cases equality with
  | none =>
    simp only [Option.map_none, onDestination]
    split <;> rfl
  | some e =>
    by_cases hown : e.partnerOf join < join ∧ join ∈ sources
    · have herased : e.erase.partnerOf join < join ∧ join ∈ sources := hown
      simp only [Option.map_some, onDestination, if_pos hown, if_pos herased]
      rfl
    · have herased : ¬(e.erase.partnerOf join < join ∧ join ∈ sources) := hown
      simp only [Option.map_some, onDestination, if_neg hown, if_neg herased]
      split <;> rfl

theorem innerDestination_erase (kinds : JoinKinds) (origin : Origin) (sources : List Nat)
    (equality : Option Equality) :
    innerDestination kinds origin sources (equality.map Equality.erase) =
      (innerDestination kinds origin sources equality).erase := by
  have hnone : (innerDestination kinds origin sources none).erase =
      innerDestination kinds origin sources none := by
    unfold innerDestination
    dsimp only
    split
    · split
      · rfl
      · split
        · split <;> rfl
        · rfl
    · rfl
  cases equality with
  | none => exact hnone.symm
  | some e =>
    unfold innerDestination at hnone ⊢
    dsimp only [Option.map_some, Equality.erase] at hnone ⊢
    split
    · rfl
    · exact hnone.symm

theorem destination_forgets (scope : Scope) (kinds : JoinKinds) (c : Conjunct) :
    Forgets Destination.erase (destination scope kinds c) (destination scope kinds c.erase) := by
  refine bind (scope.sourcesIn_forgets c.expr) fun sources => ?_
  refine Forgets.ite rfl ?_
  refine bind (equalityOf_forgets scope c.expr) fun equality => ?_
  obtain ⟨e, origin⟩ := c
  cases origin with
  | whereClause =>
    dsimp only [Conjunct.erase]
    rw [innerDestination_erase]
    exact pure _ _
  | on join =>
    dsimp only [Conjunct.erase]
    rw [onDestination_erase, innerDestination_erase]
    exact Forgets.ite (pure _ _) (pure _ _)

/-- A conjunct and where it goes, without positions. -/
def erasePlaced (c : Expr × Destination) : Expr × Destination :=
  (c.1.erase, c.2.erase)

theorem destinations_forgets (scope : Scope) (kinds : JoinKinds) (cs : List Conjunct) :
    Forgets (List.map erasePlaced) (destinations scope kinds cs)
      (destinations scope kinds (cs.map Conjunct.erase)) := by
  induction cs with
  | nil => rfl
  | cons c cs ih =>
    simp only [List.map_cons, destinations, (destination_forgets scope kinds c).eq, ih.eq]
    cases destination scope kinds c with
    | error e => rfl
    | ok d => cases destinations scope kinds cs <;> rfl

/-! ### What follows from the destinations -/

section Destinations

variable (placed : List (Expr × Destination))

theorem edges_erase : edges (placed.map erasePlaced) = (edges placed).map Equality.erase := by
  simp only [edges, List.filterMap_map, List.map_filterMap]
  refine List.filterMap_congr fun c _ => ?_
  rcases c with ⟨e, _ | _ | _ | _ | _ | _ | _⟩ <;> rfl

theorem equalities_erase :
    equalities (placed.map erasePlaced) = (equalities placed).map Equality.erase := by
  simp only [equalities, List.filterMap_map, List.map_filterMap]
  refine List.filterMap_congr fun c _ => ?_
  rcases c with ⟨e, _ | _ | _ | _ | _ | _ | _⟩ <;> rfl

theorem ownCriteria_erase (source : Nat) :
    ownCriteria (placed.map erasePlaced) source = (ownCriteria placed source).map Expr.erase := by
  simp only [ownCriteria, List.filterMap_map, List.map_filterMap]
  refine List.filterMap_congr fun c _ => ?_
  rcases c with ⟨e, _ | ⟨s, q⟩ | _ | _ | _ | _ | _⟩ <;> try rfl
  by_cases h : s = source <;> simp [erasePlaced, Destination.erase, h, q.startingAt_erase]

theorem ownFilters_erase (source : Nat) :
    ownFilters (placed.map erasePlaced) source = (ownFilters placed source).map Expr.erase := by
  simp only [ownFilters, List.filterMap_map, List.map_filterMap]
  refine List.filterMap_congr fun c _ => ?_
  rcases c with ⟨e, _ | _ | s | _ | s | _ | _⟩ <;> try rfl
  all_goals by_cases h : s = source <;> simp [erasePlaced, Destination.erase, h]

theorem constants_erase :
    constants (placed.map erasePlaced) =
      (constants placed).map fun c => (c.1, c.2.1, c.2.2.erase) := by
  simp only [constants, List.filterMap_map, List.map_filterMap]
  refine List.filterMap_congr fun c _ => ?_
  rcases c with ⟨e, _ | _ | _ | _ | s | _ | _⟩ <;> try rfl
  change (constantOf? e.erase).map (fun c => (s, c.1, c.2)) =
    ((constantOf? e).map fun c => (s, c.1, c.2)).map fun c => (c.1, c.2.1, c.2.2.erase)
  rw [constantOf?_erase, Option.map_map, Option.map_map]
  rfl

theorem constantFilters_erase :
    constantFilters (placed.map erasePlaced) = (constantFilters placed).map Expr.erase := by
  simp only [constantFilters, List.filterMap_map, List.map_filterMap]
  refine List.filterMap_congr fun c _ => ?_
  rcases c with ⟨e, _ | _ | _ | _ | _ | _ | _⟩ <;> rfl

theorem postJoinFilters_erase (order : List Nat) (source : Nat) :
    postJoinFilters (placed.map erasePlaced) order source =
      (postJoinFilters placed order source).map Expr.erase := by
  simp only [postJoinFilters, List.filterMap_map, List.map_filterMap]
  refine List.filterMap_congr fun c _ => ?_
  rcases c with ⟨e, _ | _ | _ | _ | _ | s | sources⟩ <;> try rfl
  · by_cases h : s = source <;> simp [erasePlaced, Destination.erase, h]
  · by_cases h : lastOf order sources = source <;> simp [erasePlaced, Destination.erase, h]

theorem equivalence_erase :
    equivalence (placed.map erasePlaced) = (equivalence placed).erase := by
  have hadd : ∀ (es : List Equality) (q : Equivalence),
      (es.map Equality.erase).foldl Equivalence.add q.erase = (es.foldl Equivalence.add q).erase := by
    intro es
    induction es with
    | nil => exact fun _ => rfl
    | cons e es ih => exact fun q => by simp only [List.map_cons, List.foldl_cons, q.add_erase, ih]
  rw [equivalence, equivalence, equalities_erase, ← hadd]
  rfl

theorem propagated_erase :
    propagated (placed.map erasePlaced) = (propagated placed).map (Prod.map id Expr.erase) := by
  simp only [propagated, constants_erase, equivalence_erase, List.flatMap_map, List.map_flatMap,
    Equivalence.equalColumns_erase, List.map_map]
  congr 1
  funext c
  refine List.map_congr_left fun equal _ => ?_
  simp

theorem sourceFilters_erase (source : Nat) :
    sourceFilters (placed.map erasePlaced) source =
      (sourceFilters placed source).map Expr.erase := by
  rw [sourceFilters, sourceFilters, ← Expr.extendDistinct_erase, ownFilters_erase,
    propagated_erase, List.filter_map, List.map_map, List.map_map]
  rfl

end Destinations

/-- A placement without positions. -/
def erase (p : Placement) : Placement where
  order := p.order
  criteria := p.criteria.map (List.map Expr.erase)
  filters := p.filters.map (List.map Expr.erase)
  postJoin := p.postJoin.map (List.map Expr.erase)
  constFilters := p.constFilters.map Expr.erase

theorem ofDestinations_erase (names : List String) (kinds : JoinKinds)
    (placed : List (Expr × Destination)) :
    ofDestinations names kinds (placed.map erasePlaced) =
      (ofDestinations names kinds placed).erase := by
  have hgraph : (⟨names.map Ascii.lower, edges (placed.map erasePlaced)⟩ : JoinGraph) =
      JoinGraph.erase ⟨names.map Ascii.lower, edges placed⟩ := by
    rw [edges_erase, JoinGraph.erase]
  have hfilters : sourceFilters (placed.map erasePlaced) =
      List.map Expr.erase ∘ sourceFilters placed := funext (sourceFilters_erase placed)
  have hpost : ∀ order, postJoinFilters (placed.map erasePlaced) order =
      List.map Expr.erase ∘ postJoinFilters placed order :=
    fun order => funext (postJoinFilters_erase placed order)
  simp only [ofDestinations, hgraph, erase, JoinGraph.order_erase, JoinGraph.criteria_erase,
    ownCriteria_erase, hfilters, hpost, constantFilters_erase, List.map_map, ← List.map_append]
  rfl

/-- **Conjuncts are placed without a look at positions.** -/
theorem place_forgets (scope : Scope) (kinds : JoinKinds) (conjuncts : List Conjunct) :
    Forgets erase (place scope kinds conjuncts)
      (place scope kinds (conjuncts.map Conjunct.erase)) := by
  simp only [place, (destinations_forgets scope kinds conjuncts).eq]
  cases destinations scope kinds conjuncts with
  | error e => rfl
  | ok placed => exact congrArg Except.ok (ofDestinations_erase _ kinds placed)

end Placement

end SeriesQuery
