import SeriesQuery.Expr.Negation
import SeriesQuery.Join.Equivalence
import SeriesQuery.Join.Order
import SeriesQuery.Scope

/-!
Where the conditions of a query level are evaluated.

The `where` and `on` conditions of a level are split into conjuncts, and each goes
to the innermost place that can evaluate it:

    no column at all                          constant filter of the level
    a.x = b.y between inner or cross joins    join criterion
    one such source alone                     filter of that source
    equality in the `on` of an outer, asof    criterion of that join
      or splice join with an earlier source
    `on` condition of such a join about       filter of the joined source
      the joined source alone
    anything else                             after the last join it needs
    master alone, with an asof or splice      after the first such join
      join in the level

Where a conjunct goes depends on the scope and the kinds of the joins alone
(`destination`); the order of the joins and everything else follow from the list of
destinations. A filter `column = constant` of an inner source is copied to every
column that is known to be equal to that column.
-/

namespace SeriesQuery

/-- The clause a conjunct is written in. -/
inductive Origin where
  /-- The `on` of the source with this number. -/
  | on (source : Nat)
  | whereClause
deriving DecidableEq, Repr, Inhabited

/-- A conjunct and the clause it is written in. -/
structure Conjunct where
  expr : Expr
  origin : Origin
deriving BEq, Repr, Inhabited

/-- The conjuncts of a condition, with its negations at the leaves. -/
def Conjunct.ofCondition (origin : Origin) (condition : Expr) : List Conjunct :=
  condition.pushNegations.conjuncts.map fun e => ⟨e, origin⟩

/-- The kinds of the joins of a scope, by source; the master has none. -/
abbrev JoinKinds := List (Option JoinKind)

namespace JoinKinds

/-- Whether a source must stay where it is declared. -/
def isFixed (kinds : JoinKinds) (source : Nat) : Bool :=
  (kinds.getD source none).any JoinKind.keepsPlace

/-- For each source whether it must stay where it is declared. -/
def fixed (kinds : JoinKinds) : List Bool :=
  kinds.map fun kind => kind.any JoinKind.keepsPlace

/-- The first source that is joined by time. -/
def timeJoin? (kinds : JoinKinds) : Option Nat :=
  kinds.findIdx? fun kind => kind.any JoinKind.matchesByTime

end JoinKinds

/-- Where a conjunct goes. -/
inductive Destination where
  /-- The constant filter. -/
  | constant
  /-- The criteria of the order-sensitive join of `source`, in whose `on` it stands. -/
  | ownCriterion (source : Nat) (equality : Equality)
  /-- The filter of the order-sensitive join of `source`, in whose `on` it stands. -/
  | ownFilter (source : Nat)
  /-- The criteria of whichever side is joined later. -/
  | edge (equality : Equality)
  /-- The filter of an inner source. -/
  | filter (source : Nat)
  /-- After the join of `source`. -/
  | afterJoin (source : Nat)
  /-- After the last join of the given sources. -/
  | afterAll (sources : List Nat)
deriving BEq, Repr, Inhabited

namespace Placement

/-- The two columns that a condition equates, if they belong to different sources. -/
def equalityOf (scope : Scope) : Expr → Except SqlError (Option Equality)
  | .binary .eq left right _ =>
    match left.column?, right.column? with
    | some l, some r => do
      let leftSource := (← scope.resolve l left.position).source
      let rightSource := (← scope.resolve r right.position).source
      if leftSource = rightSource then return none
      else return some ⟨left, leftSource, right, rightSource⟩
    | _, _ => return none
  | _ => return none

/-- The column and the constant that a condition equates, on either side. -/
def constantOf? : Expr → Option (ColumnRef × Expr)
  | .binary .eq left right _ =>
    match left.column?, right.column? with
    | some c, none => if right.isConstant then some (c, right) else none
    | none, some c => if left.isConstant then some (c, left) else none
    | _, _ => none
  | _ => none

/-- Whether a conjunct may decide which rows a source is joined to: always if the
source may be moved, and from the `on` of a later join if it is fixed. -/
def mayRelate (kinds : JoinKinds) (origin : Origin) (source : Nat) : Bool :=
  !kinds.isFixed source || match origin with
    | .on join => source < join
    | .whereClause => false

/-- Where a conjunct of the `on` of an order-sensitive join goes. -/
def onDestination (join : Nat) (sources : List Nat) (equality : Option Equality) :
    Destination :=
  let own := if sources = [join] then .ownFilter join else .afterJoin join
  match equality with
  | some e =>
    if e.partnerOf join < join ∧ join ∈ sources then .ownCriterion join e else own
  | none => own

/-- Where any other conjunct that refers to columns goes. -/
def innerDestination (kinds : JoinKinds) (origin : Origin) (sources : List Nat)
    (equality : Option Equality) : Destination :=
  let single := match sources with
    | [source] => if kinds.isFixed source then .afterAll sources
        else match kinds.timeJoin? with
          | some join =>
              if source = 0 ∧ origin = .whereClause then .afterJoin join else .filter source
          | none => .filter source
    | _ => .afterAll sources
  match equality with
  | some e =>
    if mayRelate kinds origin e.leftSource && mayRelate kinds origin e.rightSource then .edge e
    else single
  | none => single

/-- Where a conjunct goes. -/
def destination (scope : Scope) (kinds : JoinKinds) (c : Conjunct) :
    Except SqlError Destination := do
  let sources ← scope.sourcesIn c.expr
  if sources = [] then
    return .constant
  else
    let equality ← equalityOf scope c.expr
    match c.origin with
    | .on join =>
      if kinds.isFixed join then return onDestination join sources equality
      else return innerDestination kinds c.origin sources equality
    | .whereClause => return innerDestination kinds c.origin sources equality

/-- Every conjunct with where it goes. -/
def destinations (scope : Scope) (kinds : JoinKinds) :
    List Conjunct → Except SqlError (List (Expr × Destination))
  | [] => .ok []
  | c :: cs =>
    match destination scope kinds c with
    | .error e => .error e
    | .ok d =>
      match destinations scope kinds cs with
      | .error e => .error e
      | .ok ds => .ok ((c.expr, d) :: ds)

/-! ### What follows from the destinations -/

section Destinations

variable (placed : List (Expr × Destination))

/-- The equalities that decide the join order. -/
def edges : List Equality :=
  placed.filterMap fun
    | (_, .edge e) => some e
    | _ => none

/-- The equalities that make columns equal, in the order in which they are written. -/
def equalities : List Equality :=
  placed.filterMap fun
    | (_, .edge e) => some e
    | (_, .ownCriterion _ e) => some e
    | _ => none

/-- The criteria that an order-sensitive join has of its own. -/
def ownCriteria (source : Nat) : List Expr :=
  placed.filterMap fun
    | (_, .ownCriterion s e) => if s = source then some (e.startingAt source) else none
    | _ => none

/-- The conjuncts that filter a source. -/
def ownFilters (source : Nat) : List Expr :=
  placed.filterMap fun
    | (e, .ownFilter s) => if s = source then some e else none
    | (e, .filter s) => if s = source then some e else none
    | _ => none

/-- The columns of inner sources that are filtered to be constants, and the constants. -/
def constants : List (Nat × ColumnRef × Expr) :=
  placed.filterMap fun
    | (e, .filter s) => (constantOf? e).map fun (column, constant) => (s, column, constant)
    | _ => none

/-- The conjuncts without columns. -/
def constantFilters : List Expr :=
  placed.filterMap fun
    | (e, .constant) => some e
    | _ => none

/-- The last of the sources in an order. -/
def lastOf (order : List Nat) : List Nat → Nat
  | [] => 0
  | source :: sources =>
    let later (last s : Nat) :=
      if JoinGraph.rank order last ≤ JoinGraph.rank order s then s else last
    sources.foldl later source

/-- The conjuncts that are evaluated after the join of a source. -/
def postJoinFilters (order : List Nat) (source : Nat) : List Expr :=
  placed.filterMap fun
    | (e, .afterJoin s) => if s = source then some e else none
    | (e, .afterAll sources) => if lastOf order sources = source then some e else none
    | _ => none

/-- What is known about equal columns. -/
def equivalence : Equivalence :=
  (equalities placed).foldl Equivalence.add .empty

/-- The filters that constants bring to equal columns, each with its source. -/
def propagated : List (Nat × Expr) :=
  (constants placed).flatMap fun (source, column, constant) =>
    ((equivalence placed).equalColumns source column).map fun (target, equal) =>
      (target, Expr.equality equal constant)

/-- All filters of a source: its own conjuncts and the constants brought to it. -/
def sourceFilters (source : Nat) : List Expr :=
  Expr.extendDistinct (ownFilters placed source)
    (((propagated placed).filter fun f => f.1 = source).map Prod.snd)

end Destinations

end Placement

/-- Where every conjunct of a level ended up; the lists of lists go by source. -/
structure Placement where
  /-- The order in which the sources are joined, the master first. -/
  order : List Nat
  /-- The join criteria. -/
  criteria : List (List Expr)
  /-- The filters on a source before it is joined. -/
  filters : List (List Expr)
  /-- The filters on the rows after a source is joined. -/
  postJoin : List (List Expr)
  constFilters : List Expr
deriving BEq, Repr, Inhabited

namespace Placement

/-- The placement that follows from the destinations of the conjuncts. -/
def ofDestinations (names : List String) (kinds : JoinKinds)
    (placed : List (Expr × Destination)) : Placement :=
  let graph : JoinGraph := ⟨names.map Ascii.lower, edges placed⟩
  let order := graph.order kinds.fixed
  let bySource (f : Nat → List Expr) := (List.range kinds.length).map f
  { order
    criteria := bySource fun s => ownCriteria placed s ++ graph.criteria order s
    filters := bySource (sourceFilters placed)
    postJoin := bySource (postJoinFilters placed order)
    constFilters := constantFilters placed }

/-- Places the conjuncts of a level with the given sources and kinds of joins. -/
def place (scope : Scope) (kinds : JoinKinds) (conjuncts : List Conjunct) :
    Except SqlError Placement :=
  match destinations scope kinds conjuncts with
  | .error e => .error e
  | .ok placed =>
    .ok (ofDestinations (scope.entries.map fun e => e.name.getD "") kinds placed)

end Placement

end SeriesQuery
