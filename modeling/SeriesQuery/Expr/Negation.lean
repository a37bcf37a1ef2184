import SeriesQuery.Expr

/-!
Negations pushed to the leaves of a condition.

`not` is moved through `and` and `or`, folded into the comparisons that have an
opposite, and cancelled against another `not`; what remains is a `not` in front
of something that has no opposite of its own. So a condition reaches placement
as the conjunction it stands for.
-/

namespace SeriesQuery.Expr

/-- The opposite of an expression whose negations are at its leaves already. A
remaining `not` takes the position of the one being moved. -/
def opposite (notPosition : Nat) : Expr → Expr
  | unary .not operand _ => operand
  | binary .and left right p =>
      binary .or (left.opposite notPosition) (right.opposite notPosition) p
  | binary .or left right p =>
      binary .and (left.opposite notPosition) (right.opposite notPosition) p
  | binary op left right p =>
      match op.opposite? with
      | some negated => binary negated left right p
      | none => notOf (binary op left right p) notPosition
  | e => notOf e notPosition

mutual

/-- The expression with its negations at the leaves. -/
def pushNegations : Expr → Expr
  | unary .not operand p => operand.pushNegations.opposite p
  | unary .neg operand p => unary .neg operand.pushNegations p
  | binary op left right p => binary op left.pushNegations right.pushNegations p
  | call name args p => call name (pushNegationsList args) p
  | inList operand list p => inList operand.pushNegations (pushNegationsList list) p
  | column ref p => column ref p
  | constant text p => constant text p
  | queryRef text p => queryRef text p

/-- Each expression with its negations at the leaves. -/
def pushNegationsList : List Expr → List Expr
  | [] => []
  | e :: es => e.pushNegations :: pushNegationsList es

end

theorem pushNegationsList_eq_map (es : List Expr) :
    pushNegationsList es = es.map pushNegations := by
  induction es with
  | nil => rfl
  | cons e es ih => simp [pushNegationsList, ih]

end SeriesQuery.Expr
