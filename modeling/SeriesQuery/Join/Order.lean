import SeriesQuery.Join.Equality

/-!
The order in which the sources of a scope are joined.

Source 0 is the master and comes first. Fixed sources stay where they are
declared and split the others into segments. Within a segment the sources that an
equality relates to a placed one follow breadth first; when none is left, a
source with an equality elsewhere starts anew; sources without any equality come
last as they are declared. Sources that could come next at the same step are
taken by name, so the order does not hang on the way the joins are written down.
-/

namespace SeriesQuery

/-- The sources of a scope and the equalities between them. -/
structure JoinGraph where
  /-- The names of the sources in lower case; empty for a source without one. -/
  names : List String
  /-- The equalities in the order in which they are first seen. -/
  edges : List Equality
deriving BEq, Repr, Inhabited

namespace JoinGraph

/-- A graph without equalities over sources with the given names. -/
def ofNames (names : List String) : JoinGraph :=
  ⟨names.map Ascii.lower, []⟩

/-- The graph with one more equality. -/
def addEdge (g : JoinGraph) (e : Equality) : JoinGraph :=
  { g with edges := g.edges ++ [e] }

/-- Whether an equality relates two sources. -/
def connected (g : JoinGraph) (a b : Nat) : Bool :=
  g.edges.any fun e => e.relates a b

/-- Whether an equality relates a source to any other. -/
def isRelated (g : JoinGraph) (source : Nat) : Bool :=
  g.edges.any fun e => e.touches source

/-- The name of a source in lower case. -/
def name (g : JoinGraph) (source : Nat) : String :=
  g.names.getD source ""

/-- Whether `a` is taken before `b` or is `b`: by name, then as declared. -/
def precedes (g : JoinGraph) (a b : Nat) : Bool :=
  g.name a < g.name b || (g.name a = g.name b && a ≤ b)

/-- The sources in the order in which they are taken. -/
def byName (g : JoinGraph) (sources : List Nat) : List Nat :=
  sources.mergeSort g.precedes

/-- The source that starts anew among those that no placed source leads to. -/
def start? (g : JoinGraph) (sources : List Nat) : Option Nat :=
  (g.byName (sources.filter g.isRelated)).head?

theorem mem_of_start? {g : JoinGraph} {sources : List Nat} {s : Nat}
    (h : g.start? sources = some s) : s ∈ sources := by
  have := List.mem_of_mem_head? h
  simp only [byName, List.mem_mergeSort, List.mem_filter] at this
  exact this.1

/-- The sources of a segment that an equality relates to `source`, in the order in
which they are taken. -/
def reached (g : JoinGraph) (source : Nat) (segment : List Nat) : List Nat :=
  g.byName (segment.filter fun s => g.connected source s)

/-- The sources of a segment that no equality relates to `source`. -/
def unreached (g : JoinGraph) (source : Nat) (segment : List Nat) : List Nat :=
  segment.filter fun s => !g.connected source s

theorem length_reached_add_length_unreached (g : JoinGraph) (source : Nat)
    (segment : List Nat) :
    (g.reached source segment).length + (g.unreached source segment).length =
      segment.length := by
  simp only [reached, unreached, byName, List.length_mergeSort]
  induction segment with
  | nil => rfl
  | cons s segment ih =>
    by_cases h : g.connected source s <;> simp only [List.filter_cons, h] <;> simp <;> omega

/-- The sources of a segment in the order in which they are joined, when those of the
queue have been placed and not been looked at yet. -/
def arrange (g : JoinGraph) (queue segment : List Nat) : List Nat :=
  match queue with
  | source :: queue =>
    let reached := g.reached source segment
    reached ++ g.arrange (queue ++ reached) (g.unreached source segment)
  | [] =>
    match _h : g.start? segment with
    | some s => s :: g.arrange [s] (segment.erase s)
    | none => segment
termination_by 2 * segment.length + queue.length
decreasing_by
  · have := g.length_reached_add_length_unreached source segment
    simp only [List.length_append, List.length_cons]
    omega
  · have hmem := mem_of_start? _h
    have := List.length_pos_of_mem hmem
    simp only [List.length_erase_of_mem hmem, List.length_singleton, List.length_nil]
    omega

/-- The sources from number `source` on, of which `fixed` says which are fixed, behind
the placed ones and the segment before them. -/
def orderFrom (g : JoinGraph) (placed segment : List Nat) (source : Nat) :
    List Bool → List Nat
  | [] => placed ++ g.arrange placed segment
  | true :: fixed =>
      g.orderFrom (placed ++ g.arrange placed segment ++ [source]) [] (source + 1) fixed
  | false :: fixed => g.orderFrom placed (segment ++ [source]) (source + 1) fixed

/-- The order in which all sources are joined, when `fixed` says which stay in their
place. -/
def order (g : JoinGraph) (fixed : List Bool) : List Nat :=
  g.orderFrom [0] [] 1 fixed.tail

/-- The place of a source in an order: the last one, if it has several. -/
def rank (order : List Nat) (source : Nat) : Nat :=
  match order.reverse.idxOf? source with
  | some back => order.length - 1 - back
  | none => 0

/-- The side of an equality that comes later in an order. -/
def laterSource (order : List Nat) (e : Equality) : Nat :=
  if rank order e.leftSource > rank order e.rightSource then e.leftSource else e.rightSource

/-- The join criteria of a source in an order: the equalities whose later side it is,
with its column on the left. -/
def criteria (g : JoinGraph) (order : List Nat) (source : Nat) : List Expr :=
  Expr.extendDistinct []
    ((g.edges.filter fun e => laterSource order e = source).map fun e => e.startingAt source)

end JoinGraph

end SeriesQuery
