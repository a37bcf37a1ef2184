/-!
Compilation errors.

Whatever stops a statement is a `SqlError`: a cause and the byte position it
is reported at. The first error ends the compilation.
-/

namespace SeriesQuery

/-- What is wrong with a statement. -/
inductive Fault where
  | unexpectedToken (token : String)
  | unexpectedEndOfInput
  | expectedToken (what : String)
  | expressionExpected
  | unbalancedExpression
  | missingColumns
  | invalidColumn (name : String)
  | invalidTableName (name : String)
  | tableDoesNotExist (name : String)
  | ambiguousColumn (name : String)
  | duplicateAlias (name : String)
  | duplicateColumn (name : String)
  | dotNotAllowed
  | invalidAlias (name : String)
  | joinConditionRequired
  | crossJoinCondition
  | notATimestamp (name : String)
  | timestampNotDefined
  | atLeastOneAggregateRequired
  | latestByNotAllowedOnSubquery
  | tooManyColumns (limit : Nat)
  | analyticFunctionNotAllowed
  | analyticFunctionExpected
  | unsupportedCreateTarget
  | invalidColumnType (name : String)
  | nestingTooDeep (limit : Nat)
  | invalidPartition (name : String)
  | invalidNumber (text : String)
deriving DecidableEq, Repr, Inhabited

/-- The text a fault is reported with. -/
def Fault.message : Fault → String
  | unexpectedToken token => "Unexpected token: " ++ token
  | unexpectedEndOfInput => "Unexpected end of input"
  | expectedToken what => what ++ " expected"
  | expressionExpected => "Expression expected"
  | unbalancedExpression => "Unbalanced expression: missing ')'"
  | missingColumns => "missing column list"
  | invalidColumn name => "Invalid column: " ++ name
  | invalidTableName name => "Invalid table name or alias: " ++ name
  | tableDoesNotExist name => "table does not exist: " ++ name
  | ambiguousColumn name => "Ambiguous column name: " ++ name
  | duplicateAlias name => "Duplicate table or alias: " ++ name
  | duplicateColumn name => "Duplicate column: " ++ name
  | dotNotAllowed => "'.' is not allowed in column alias"
  | invalidAlias name => "Invalid alias: " ++ name
  | joinConditionRequired => "'on' expected"
  | crossJoinCondition => "cross join cannot have join clauses"
  | notATimestamp name => "not a TIMESTAMP column: " ++ name
  | timestampNotDefined => "TIMESTAMP column is not defined"
  | atLeastOneAggregateRequired =>
      "at least one aggregation function must be present in 'select' clause"
  | latestByNotAllowedOnSubquery => "latest by is not allowed on a sub-query"
  | tooManyColumns limit => "Too many columns in order by, maximum is " ++ toString limit
  | analyticFunctionNotAllowed =>
      "Analytic function is not allowed in context of aggregation. Use sub-query."
  | analyticFunctionExpected => "Analytic function expected"
  | unsupportedCreateTarget => "'table' expected"
  | invalidColumnType name => "Unsupported column type: " ++ name
  | nestingTooDeep limit => "Too deeply nested, maximum depth is " ++ toString limit
  | invalidPartition name => "Invalid partition type: " ++ name
  | invalidNumber text => "Integer expected: " ++ text

/-- A fault and the byte position in the statement text it is reported at. -/
structure SqlError where
  position : Nat
  fault : Fault
deriving DecidableEq, Repr, Inhabited

/-- The text of an error without its position. -/
def SqlError.message (e : SqlError) : String :=
  e.fault.message

/-- A check after another succeeds when both do. -/
theorem Except.bind_eq_ok {ε α β : Type} {x : Except ε α} {f : α → Except ε β} {b : β} :
    x >>= f = .ok b ↔ ∃ a, x = .ok a ∧ f a = .ok b := by
  cases x <;> simp [Bind.bind, Except.bind]

/-- A test of the result holds if there is one that passes it. -/
theorem Except.any_toOption {ε α : Type} {x : Except ε α} {p : α → Bool} :
    x.toOption.any p = true ↔ ∃ a, x = .ok a ∧ p a = true := by
  cases x <;> simp [Except.toOption]

end SeriesQuery
