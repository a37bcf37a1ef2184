import SeriesQuery.Join.Equality

/-!
Columns known to be equal.

Every recorded equality links two columns. A column is identified by its source
and its name in lower case, and keeps the spelling it was first seen with. What
is known to be equal to a column is everything a chain of links leads to.

Chains are followed breadth first. From a column its links are taken newest
first: those it was the left side of, then those it was the right side of.
-/

namespace SeriesQuery

/-- What identifies a column in a scope: its source and its name in lower case. -/
structure ColumnKey where
  source : Nat
  name : String
deriving DecidableEq, Repr, Inhabited

namespace ColumnKey

/-- The key of a column reference in a source. -/
def ofRef (source : Nat) (ref : ColumnRef) : ColumnKey :=
  ⟨source, Ascii.lower ref.name⟩

/-- The key of an expression that is a column of a source. -/
def ofExpr? (source : Nat) (e : Expr) : Option ColumnKey :=
  e.column?.map (ofRef source)

end ColumnKey

/-- The columns that equalities mention, and the links between them. -/
structure Equivalence where
  /-- Each column as it was first spelled, in the order of first mention. -/
  columns : List (ColumnKey × Expr)
  /-- The left and the right side of each link, the newest first. -/
  links : List (ColumnKey × ColumnKey)
deriving BEq, Repr, Inhabited

namespace Equivalence

/-- Nothing is known. -/
def empty : Equivalence :=
  ⟨[], []⟩

/-- Notes the spelling of a column that is not known yet. -/
def mention (q : Equivalence) (key : ColumnKey) (spelling : Expr) : Equivalence :=
  if (q.columns.lookup key).isSome then q
  else { q with columns := q.columns ++ [(key, spelling)] }

/-- Notes the spelling of an expression, if it is a column. -/
def mentionExpr (q : Equivalence) (source : Nat) (e : Expr) : Equivalence :=
  match ColumnKey.ofExpr? source e with
  | some key => q.mention key e
  | none => q

/-- Whether two columns are linked, in either direction. -/
def linked (q : Equivalence) (a b : ColumnKey) : Bool :=
  q.links.any fun link => link = (a, b) || link = (b, a)

/-- Links two columns unless they are linked already. -/
def link (q : Equivalence) (a b : ColumnKey) : Equivalence :=
  if q.linked a b then q else { q with links := (a, b) :: q.links }

/-- Records an equality between two columns; a side that is no column links
nothing. -/
def add (q : Equivalence) (e : Equality) : Equivalence :=
  let q := (q.mentionExpr e.leftSource e.left).mentionExpr e.rightSource e.right
  match ColumnKey.ofExpr? e.leftSource e.left, ColumnKey.ofExpr? e.rightSource e.right with
  | some a, some b => q.link a b
  | _, _ => q

/-- The columns linked to a column, in the order in which they are visited. -/
def neighbours (q : Equivalence) (key : ColumnKey) : List ColumnKey :=
  q.links.filterMap (fun (a, b) => if a = key then some b else none) ++
    q.links.filterMap (fun (a, b) => if b = key ∧ a ≠ key then some a else none)

/-- Moves those of the given columns that are still unvisited to the end of the
queue. -/
def discover : List ColumnKey → List ColumnKey → List ColumnKey → List ColumnKey × List ColumnKey
  | unvisited, queue, [] => (unvisited, queue)
  | unvisited, queue, key :: keys =>
    if key ∈ unvisited then discover (unvisited.erase key) (queue ++ [key]) keys
    else discover unvisited queue keys

theorem length_discover (unvisited queue keys : List ColumnKey) :
    (discover unvisited queue keys).1.length + (discover unvisited queue keys).2.length =
      unvisited.length + queue.length := by
  fun_induction discover unvisited queue keys with
  | case1 => rfl
  | case2 unvisited queue key keys h ih =>
    have := List.length_pos_of_mem h
    simp only [ih, List.length_erase_of_mem h, List.length_append, List.length_singleton]
    omega
  | case3 _ _ _ _ _ ih => exact ih

/-- The columns of the queue and the unvisited ones that chains of links lead to from
it, in the order in which they are reached. -/
def spread (q : Equivalence) (unvisited queue : List ColumnKey) : List ColumnKey :=
  match queue with
  | [] => []
  | key :: queue =>
    key :: q.spread (discover unvisited queue (q.neighbours key)).1
      (discover unvisited queue (q.neighbours key)).2
termination_by unvisited.length + queue.length
decreasing_by
  rw [length_discover]
  simp

/-- The columns that chains of links lead to from a known column, itself first. -/
def reachable (q : Equivalence) (key : ColumnKey) : List ColumnKey :=
  q.spread ((q.columns.map Prod.fst).erase key) [key]

/-- The columns of other sources known to be equal to a column of `source`, as first
spelled, in the order of their sources. -/
def equalColumns (q : Equivalence) (source : Nat) (ref : ColumnRef) : List (Nat × Expr) :=
  let start := ColumnKey.ofRef source ref
  if (q.columns.lookup start).isSome then
    let others := (q.reachable start).filter fun key => key.source ≠ source
    let spelled := others.filterMap fun key => (q.columns.lookup key).map fun e => (key.source, e)
    spelled.mergeSort fun a b => a.1 ≤ b.1
  else
    []

end Equivalence

end SeriesQuery
