import SeriesQuery.Expr

/-!
The canonical text of an expression.

Operators stand between single spaces and operands are put in parentheses only
where the binding strengths ask for it. A `not` is written as a call, and so is
a list test, with its list backwards and the tested operand last.
-/

namespace SeriesQuery.Expr

/-- How tightly the text of the expression holds together. -/
def strength : Expr → Nat
  | binary op _ _ _ => op.strength
  | unary .neg _ _ => 7
  | _ => 8

/-- A text, in parentheses if `needed`. -/
def parenthesized (needed : Bool) (text : String) : String :=
  if needed then "(" ++ text ++ ")" else text

mutual

/-- The canonical text. -/
def text : Expr → String
  | column ref _ => ref.text
  | constant text _ => text
  | queryRef text _ => text
  | unary .not operand _ => "not(" ++ operand.text ++ ")"
  | unary .neg operand _ => "-" ++ parenthesized (operand.strength ≤ 7) operand.text
  | binary op left right _ =>
      parenthesized (left.strength < op.strength) left.text ++ " " ++ op.symbol ++ " " ++
        parenthesized (right.strength ≤ op.strength) right.text
  | call name args _ => name ++ "(" ++ ",".intercalate (textList args) ++ ")"
  | inList operand list _ =>
      "in(" ++ ",".intercalate ((textList list).reverse ++ [operand.text]) ++ ")"

/-- The canonical texts of the expressions. -/
def textList : List Expr → List String
  | [] => []
  | e :: es => e.text :: textList es

end

theorem textList_eq_map (es : List Expr) : textList es = es.map text := by
  induction es with
  | nil => rfl
  | cons e es ih => simp [textList, ih]

/-- Whether two expressions are written alike; positions do not count. -/
def sameText (a b : Expr) : Bool :=
  a.text == b.text

/-- The name a column is published under when none is given. -/
def defaultName : Expr → String
  | column ref _ => ref.name
  | call name _ _ => name
  | _ => "column"

end SeriesQuery.Expr
