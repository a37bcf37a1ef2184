import SeriesQuery.Text.Ascii

/-!
Expressions.

Every node carries the byte position of the token that introduced it: the name
of a column or a call, the sign of an operator, the word `in` of a list test.
Errors about an expression are reported there. `Expr.erase` forgets the
positions.
-/

namespace SeriesQuery

/-- A column reference, perhaps qualified by the name of a source. -/
structure ColumnRef where
  qualifier : Option String
  name : String
deriving DecidableEq, Repr, Inhabited

namespace ColumnRef

/-- A column without a qualifier. -/
def plain (name : String) : ColumnRef :=
  ⟨none, name⟩

/-- A column of the source with the given name. -/
def qualified (qualifier name : String) : ColumnRef :=
  ⟨some qualifier, name⟩

/-- Splits a written name at its first dot, if it has one. -/
def ofText (text : String) : ColumnRef :=
  let cs := text.toList
  match cs.dropWhile (· != '.') with
  | [] => plain text
  | _ :: name => qualified (String.ofList (cs.takeWhile (· != '.'))) (String.ofList name)

/-- The reference as it is written. -/
def text (c : ColumnRef) : String :=
  match c.qualifier with
  | some q => q ++ "." ++ c.name
  | none => c.name

end ColumnRef

/-- The operators in front of one operand. -/
inductive UnaryOp where
  | neg
  | not
deriving DecidableEq, Repr, Inhabited

/-- The operators between two operands. -/
inductive BinaryOp where
  | or
  | and
  | eq
  | notEq
  | lt
  | ltEq
  | gt
  | gtEq
  | matching
  | add
  | sub
  | mul
  | div
  | mod
  | pow
deriving DecidableEq, Repr, Inhabited

namespace BinaryOp

/-- The sign or word the operator is printed as. -/
def symbol : BinaryOp → String
  | or => "or"
  | and => "and"
  | eq => "="
  | notEq => "!="
  | lt => "<"
  | ltEq => "<="
  | gt => ">"
  | gtEq => ">="
  | matching => "~"
  | add => "+"
  | sub => "-"
  | mul => "*"
  | div => "/"
  | mod => "%"
  | pow => "^"

/-- The operator that a sign, or a word in any case, stands for. -/
def ofText? (text : String) : Option BinaryOp :=
  match text with
  | "=" => some eq
  | "!=" => some notEq
  | "<>" => some notEq
  | "<" => some lt
  | "<=" => some ltEq
  | ">" => some gt
  | ">=" => some gtEq
  | "~" => some matching
  | "+" => some add
  | "-" => some sub
  | "*" => some mul
  | "/" => some div
  | "%" => some mod
  | "^" => some pow
  | _ =>
    if Ascii.same text "and" then some and
    else if Ascii.same text "or" then some or
    else none

/-- How tightly the operator binds its operands. -/
def strength : BinaryOp → Nat
  | or => 1
  | and => 2
  | eq | notEq | lt | ltEq | gt | gtEq | matching => 4
  | add | sub => 5
  | mul | div | mod | pow => 6

/-- The comparison that holds exactly when the given one does not. -/
def opposite? : BinaryOp → Option BinaryOp
  | eq => some notEq
  | notEq => some eq
  | gt => some ltEq
  | gtEq => some lt
  | lt => some gtEq
  | ltEq => some gt
  | _ => none

end BinaryOp

/-- An expression. -/
inductive Expr where
  | column (ref : ColumnRef) (position : Nat)
  /-- A number, a string or one of the words for a constant, as written. -/
  | constant (text : String) (position : Nat)
  /-- A reference to a query between back quotes, as written. -/
  | queryRef (text : String) (position : Nat)
  | unary (op : UnaryOp) (operand : Expr) (position : Nat)
  | binary (op : BinaryOp) (left right : Expr) (position : Nat)
  | call (name : String) (args : List Expr) (position : Nat)
  /-- The test that `operand` is one of `list`. -/
  | inList (operand : Expr) (list : List Expr) (position : Nat)
deriving BEq, Repr, Inhabited

namespace Expr

/-- Where the token that introduced the expression starts. -/
def position : Expr → Nat
  | column _ p | constant _ p | queryRef _ p | unary _ _ p | binary _ _ _ p | call _ _ p
  | inList _ _ p => p

/-- Immediate parts in the order they are evaluated. -/
def parts : Expr → List Expr
  | column .. | constant .. | queryRef .. => []
  | unary _ operand _ => [operand]
  | binary _ left right _ => [left, right]
  | call _ args _ => args
  | inList operand list _ => operand :: list

/-- The column reference that the whole expression is, if it is one. -/
def column? : Expr → Option ColumnRef
  | column ref _ => some ref
  | _ => none

theorem column?_eq_some {e : Expr} {ref : ColumnRef} :
    e.column? = some ref ↔ ∃ position, e = column ref position := by
  cases e <;> simp [column?]

/-- Whether the whole expression is a constant. -/
def isConstant : Expr → Bool
  | constant .. => true
  | _ => false

/-- The expression `not operand`. -/
def notOf (operand : Expr) (position : Nat) : Expr :=
  unary .not operand position

/-- The equality `left = right`, at the position of the left side. -/
def equality (left right : Expr) : Expr :=
  binary .eq left right left.position

/-- The conjunction `left and right`, at the position of the left side. -/
def conj (left right : Expr) : Expr :=
  binary .and left right left.position

/-- The conjuncts joined by `and` from left to right; none if there are none. -/
def conjunction : List Expr → Option Expr
  | [] => none
  | first :: others => some (others.foldl conj first)

/-- A filter, which may be absent, with one more conjunct. -/
def narrow (filter : Option Expr) (conjunct : Expr) : Expr :=
  match filter with
  | none => conjunct
  | some existing => conj existing conjunct

/-- The conjuncts of a condition: its parts between top-level `and`s, from left to
right. -/
def conjuncts : Expr → List Expr
  | binary .and left right _ => left.conjuncts ++ right.conjuncts
  | e => [e]

/-! ### Aggregate functions -/

/-- The functions that fold the rows of a group into one value. -/
def aggregateFunctions : List String :=
  ["sum", "count", "avg", "min", "max", "first", "last", "ksum", "nsum", "stddev", "variance"]

/-- Whether `name`, in any case, is an aggregate function. -/
def namesAggregate (name : String) : Bool :=
  aggregateFunctions.contains (Ascii.lower name)

/-- Whether the whole expression is a call of an aggregate function. -/
def isAggregate : Expr → Bool
  | call name _ _ => namesAggregate name
  | _ => false

mutual

/-- Whether an aggregate function is called anywhere in the expression. -/
def hasAggregate : Expr → Bool
  | column .. | constant .. | queryRef .. => false
  | unary _ operand _ => operand.hasAggregate
  | binary _ left right _ => left.hasAggregate || right.hasAggregate
  | call name args _ => namesAggregate name || anyHasAggregate args
  | inList operand list _ => operand.hasAggregate || anyHasAggregate list

/-- Whether an aggregate function is called in one of the expressions. -/
def anyHasAggregate : List Expr → Bool
  | [] => false
  | e :: es => e.hasAggregate || anyHasAggregate es

end

/-! ### Columns -/

mutual

/-- The column references of the expression with their positions, from left to
right. -/
def columns : Expr → List (ColumnRef × Nat)
  | column ref p => [(ref, p)]
  | constant .. | queryRef .. => []
  | unary _ operand _ => operand.columns
  | binary _ left right _ => left.columns ++ right.columns
  | call _ args _ => columnsOfList args
  | inList operand list _ => operand.columns ++ columnsOfList list

/-- The column references of the expressions, from left to right. -/
def columnsOfList : List Expr → List (ColumnRef × Nat)
  | [] => []
  | e :: es => e.columns ++ columnsOfList es

end

theorem columnsOfList_eq_flatMap (es : List Expr) : columnsOfList es = es.flatMap columns := by
  induction es with
  | nil => rfl
  | cons e es ih => rw [columnsOfList, List.flatMap_cons, ih]

/-! ### Replacing parts -/

section Replace

variable {m : Type → Type} [Monad m]

mutual

/-- Replaces the topmost parts that `pick` has a replacement for, from left to
right, and keeps the rest. -/
def replaceM (pick : Expr → Option (m Expr)) (e : Expr) : m Expr :=
  match pick e with
  | some replacement => replacement
  | none =>
    match e with
    | column ref p => return column ref p
    | constant text p => return constant text p
    | queryRef text p => return queryRef text p
    | unary op operand p => return unary op (← operand.replaceM pick) p
    | binary op left right p => do
        let left ← left.replaceM pick
        let right ← right.replaceM pick
        return binary op left right p
    | call name args p => return call name (← replaceListM pick args) p
    | inList operand list p => do
        let operand ← operand.replaceM pick
        let list ← replaceListM pick list
        return inList operand list p

/-- Applies `replaceM` in each of the expressions, from left to right. -/
def replaceListM (pick : Expr → Option (m Expr)) : List Expr → m (List Expr)
  | [] => return []
  | e :: es => do
      let e ← e.replaceM pick
      let es ← replaceListM pick es
      return e :: es

end

/-- Replaces every column reference through `f`, which is also told its
position. -/
def replaceColumnsM (f : ColumnRef → Nat → m Expr) (e : Expr) : m Expr :=
  e.replaceM fun
    | column ref p => some (f ref p)
    | _ => none

end Replace

/-- Replaces every column reference through `f`. -/
def replaceColumns (f : ColumnRef → Nat → Expr) (e : Expr) : Expr :=
  Id.run (e.replaceColumnsM fun ref p => pure (f ref p))

/-! ### Positions forgotten -/

mutual

/-- The expression with every position set to zero: two expressions are written
alike when their erased forms are equal. -/
def erase : Expr → Expr
  | column ref _ => column ref 0
  | constant text _ => constant text 0
  | queryRef text _ => queryRef text 0
  | unary op operand _ => unary op operand.erase 0
  | binary op left right _ => binary op left.erase right.erase 0
  | call name args _ => call name (eraseList args) 0
  | inList operand list _ => inList operand.erase (eraseList list) 0

/-- The expressions with every position set to zero. -/
def eraseList : List Expr → List Expr
  | [] => []
  | e :: es => e.erase :: eraseList es

end

theorem eraseList_eq_map (es : List Expr) : eraseList es = es.map erase := by
  induction es with
  | nil => rfl
  | cons e es ih => simp [eraseList, ih]

/-! ### Induction -/

mutual

/-- Induction on expressions, with the hypothesis for each argument of a call and
each item of a list. -/
theorem induct {P : Expr → Prop}
    (column : ∀ ref p, P (column ref p))
    (constant : ∀ text p, P (constant text p))
    (queryRef : ∀ text p, P (queryRef text p))
    (unary : ∀ op operand p, P operand → P (unary op operand p))
    (binary : ∀ op left right p, P left → P right → P (binary op left right p))
    (call : ∀ name args p, (∀ a ∈ args, P a) → P (call name args p))
    (inList : ∀ operand list p, P operand → (∀ a ∈ list, P a) → P (inList operand list p)) :
    ∀ e, P e
  | .column ref p => column ref p
  | .constant text p => constant text p
  | .queryRef text p => queryRef text p
  | .unary op operand p =>
      unary op operand p (induct column constant queryRef unary binary call inList operand)
  | .binary op left right p =>
      binary op left right p (induct column constant queryRef unary binary call inList left)
        (induct column constant queryRef unary binary call inList right)
  | .call name args p =>
      call name args p (inductList column constant queryRef unary binary call inList args)
  | .inList operand list p =>
      inList operand list p (induct column constant queryRef unary binary call inList operand)
        (inductList column constant queryRef unary binary call inList list)

theorem inductList {P : Expr → Prop}
    (column : ∀ ref p, P (column ref p))
    (constant : ∀ text p, P (constant text p))
    (queryRef : ∀ text p, P (queryRef text p))
    (unary : ∀ op operand p, P operand → P (unary op operand p))
    (binary : ∀ op left right p, P left → P right → P (binary op left right p))
    (call : ∀ name args p, (∀ a ∈ args, P a) → P (call name args p))
    (inList : ∀ operand list p, P operand → (∀ a ∈ list, P a) → P (inList operand list p)) :
    ∀ es : List Expr, ∀ a ∈ es, P a
  | [] => List.forall_mem_nil P
  | e :: es =>
      List.forall_mem_cons.mpr
        ⟨induct column constant queryRef unary binary call inList e,
          inductList column constant queryRef unary binary call inList es⟩

end

end Expr

end SeriesQuery
