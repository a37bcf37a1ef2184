import SeriesQuery.Expr
import SeriesQuery.Json

/-!
Expressions as JSON values.
-/

namespace SeriesQuery

/-- The name of an operator in front of its operand. -/
def UnaryOp.label : UnaryOp → String
  | neg => "Neg"
  | not => "Not"

/-- The name of an operator between its operands. -/
def BinaryOp.label : BinaryOp → String
  | or => "Or"
  | and => "And"
  | eq => "Eq"
  | notEq => "NotEq"
  | lt => "Lt"
  | ltEq => "LtEq"
  | gt => "Gt"
  | gtEq => "GtEq"
  | matching => "Match"
  | add => "Add"
  | sub => "Sub"
  | mul => "Mul"
  | div => "Div"
  | mod => "Mod"
  | pow => "Pow"

/-- A column reference as a value. -/
def ColumnRef.toJson (ref : ColumnRef) : Json :=
  .object [("qualifier", .ofOption .string ref.qualifier), ("name", .string ref.name)]

namespace Expr

/-- An expression of the given kind at a position. -/
def jsonNode (kind : String) (value : Json) (position : Nat) : Json :=
  .object [("kind", .variant kind value), ("position", .number position)]

mutual

/-- An expression as a value. -/
def toJson : Expr → Json
  | column ref p => jsonNode "Column" ref.toJson p
  | constant text p => jsonNode "Constant" (.string text) p
  | queryRef text p => jsonNode "QueryRef" (.string text) p
  | unary op operand p =>
      jsonNode "Unary" (.object [("op", .string op.label), ("operand", operand.toJson)]) p
  | binary op left right p =>
      jsonNode "Binary"
        (.object [("op", .string op.label), ("left", left.toJson), ("right", right.toJson)]) p
  | call name args p =>
      jsonNode "Function" (.object [("name", .string name), ("args", .array (listToJson args))]) p
  | inList operand list p =>
      jsonNode "InList"
        (.object [("operand", operand.toJson), ("list", .array (listToJson list))]) p

/-- Expressions as values. -/
def listToJson : List Expr → List Json
  | [] => []
  | e :: es => e.toJson :: listToJson es

end

end Expr

end SeriesQuery
