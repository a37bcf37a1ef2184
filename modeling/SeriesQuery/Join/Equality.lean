import SeriesQuery.Expr.Printer

/-!
Equalities between columns of two sources.
-/

namespace SeriesQuery

/-- An equality `left = right`, with the source that each side is a column of. -/
structure Equality where
  left : Expr
  leftSource : Nat
  right : Expr
  rightSource : Nat
deriving BEq, Repr, Inhabited

namespace Equality

/-- The equality with the column of the given source on the left. -/
def startingAt (e : Equality) (source : Nat) : Expr :=
  if e.leftSource = source then Expr.equality e.left e.right else Expr.equality e.right e.left

/-- The source on the other side of the given one. -/
def partnerOf (e : Equality) (source : Nat) : Nat :=
  if e.leftSource = source then e.rightSource else e.leftSource

/-- Whether the equality relates two sources, in either direction. -/
def relates (e : Equality) (a b : Nat) : Bool :=
  (e.leftSource = a && e.rightSource = b) || (e.leftSource = b && e.rightSource = a)

/-- Whether a source is on one of the two sides. -/
def touches (e : Equality) (source : Nat) : Bool :=
  e.leftSource = source || e.rightSource = source

end Equality

namespace Expr

/-- The list with one more expression, unless one that is written alike is there. -/
def addDistinct (es : List Expr) (e : Expr) : List Expr :=
  if es.any fun other => other.sameText e then es else es ++ [e]

/-- The list `es` followed by the expressions of `more`, but of those written alike only the
first. -/
def extendDistinct (es more : List Expr) : List Expr :=
  more.foldl addDistinct es

end Expr

end SeriesQuery
