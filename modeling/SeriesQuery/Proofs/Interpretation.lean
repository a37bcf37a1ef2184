import SeriesQuery.Join.Equivalence
import SeriesQuery.Proofs.Scope
import SeriesQuery.Text.Digits

/-!
What conditions mean.

An interpretation says what the constants, signs and functions of expressions stand for,
and which values hold when they are taken as conditions. A row gives a value to every
column of every source of a scope, and the references of a condition are read through the
scope. Nothing is assumed of the signs; `Lawful` and `Strict` name what is asked of them
where it matters.
-/

namespace SeriesQuery

/-- The signs that compare two values. -/
def BinaryOp.compares : BinaryOp → Bool
  | eq | notEq | lt | ltEq | gt | gtEq | matching => true
  | or | and | add | sub | mul | div | mod | pow => false

/-- What the parts of expressions stand for. -/
structure Operations (Value : Type) where
  /-- The value where there is none. -/
  null : Value
  constant : String → Value
  queryRef : String → Value
  unary : UnaryOp → Value → Value
  binary : BinaryOp → Value → Value → Value
  call : String → List Value → Value
  inList : Value → List Value → Value

/-- Operations, and the values that hold as conditions. -/
structure Interpretation (Value : Type) extends Operations Value where
  Holds : Value → Prop

/-! ### Values -/

namespace Operations

variable {Value : Type} (ops : Operations Value)

mutual

/-- The value of an expression whose references are read by `read`. -/
def value (read : ColumnRef → Value) : Expr → Value
  | .column ref _ => read ref
  | .constant text _ => ops.constant text
  | .queryRef text _ => ops.queryRef text
  | .unary op operand _ => ops.unary op (value read operand)
  | .binary op left right _ => ops.binary op (value read left) (value read right)
  | .call name args _ => ops.call name (values read args)
  | .inList operand list _ => ops.inList (value read operand) (values read list)

/-- The values of expressions. -/
def values (read : ColumnRef → Value) : List Expr → List Value
  | [] => []
  | e :: es => value read e :: values read es

end

/-- What a reference reads in a row of the columns of a scope. -/
def read (scope : Scope) (row : ColumnKey → Value) (ref : ColumnRef) : Value :=
  match scope.resolve ref 0 with
  | .ok r => row (.ofRef r.source ref)
  | .error _ => ops.null

/-- The value of an expression in a row of the columns of a scope. -/
def valueIn (scope : Scope) (row : ColumnKey → Value) (e : Expr) : Value :=
  ops.value (ops.read scope row) e

variable {ops} {scope : Scope} {row : ColumnKey → Value}

/-- Positions do not count. -/
theorem value_erase (read : ColumnRef → Value) (e : Expr) :
    ops.value read e.erase = ops.value read e := by
  have hlist : ∀ es : List Expr, (∀ e ∈ es, ops.value read e.erase = ops.value read e) →
      ops.values read (Expr.eraseList es) = ops.values read es := by
    intro es h
    induction es with
    | nil => rfl
    | cons e es ih =>
      simp only [Expr.eraseList, values, h e List.mem_cons_self]
      rw [ih fun a ha => h a (List.mem_cons_of_mem _ ha)]
  induction e using Expr.induct with
  | column ref p => rfl
  | constant text p => rfl
  | queryRef text p => rfl
  | unary op operand p ih => simp only [Expr.erase, value, ih]
  | binary op left right p ihl ihr => simp only [Expr.erase, value, ihl, ihr]
  | call name args p ih => simp only [Expr.erase, value, hlist args ih]
  | inList operand list p ih ihs => simp only [Expr.erase, value, ih, hlist list ihs]

theorem valueIn_eq_of_erase_eq {e e' : Expr} (h : e.erase = e'.erase) :
    ops.valueIn scope row e = ops.valueIn scope row e' := by
  rw [valueIn, valueIn, ← value_erase _ e, h, value_erase]

theorem valueIn_column {ref : ColumnRef} {p source : Nat} (h : scope.LeadsTo ref source) :
    ops.valueIn scope row (.column ref p) = row (.ofRef source ref) := by
  obtain ⟨type, hresolve⟩ := h 0
  simp only [valueIn, value, read, hresolve]

end Operations

/-! ### Conditions -/

namespace Interpretation

variable {Value : Type} (I : Interpretation Value)

/-- A row of the columns of a scope satisfies a condition. -/
def Satisfies (scope : Scope) (row : ColumnKey → Value) (e : Expr) : Prop :=
  I.Holds (I.valueIn scope row e)

/-- Two values are equal by the sign `=`. -/
def Equal (a b : Value) : Prop :=
  I.Holds (I.binary .eq a b)

/-- The sign `=` is symmetric and transitive; a value need not equal itself. -/
structure Lawful : Prop where
  symm : ∀ {a b}, I.Equal a b → I.Equal b a
  trans : ∀ {a b c}, I.Equal a b → I.Equal b c → I.Equal a c

/-- A comparison with null never holds, and the word `null` stands for null. -/
structure Strict : Prop where
  left_ne_null : ∀ {op a b}, op.compares = true → I.Holds (I.binary op a b) → a ≠ I.null
  right_ne_null : ∀ {op a b}, op.compares = true → I.Holds (I.binary op a b) → b ≠ I.null
  constant_null : ∀ {text}, Ascii.same text "null" = true → I.constant text = I.null

variable {I} {scope : Scope} {row : ColumnKey → Value}

/-- An equality compares the values of its sides. -/
theorem satisfies_eq_iff {l r : Expr} {p : Nat} :
    I.Satisfies scope row (.binary .eq l r p) ↔
      I.Equal (I.valueIn scope row l) (I.valueIn scope row r) :=
  Iff.rfl

/-! ### Numbers -/

/-- Natural numbers with the equality of those that are not zero, and zero as null. -/
def numbers : Interpretation Nat where
  null := 0
  constant text := if Ascii.same text "null" then 0 else Text.digitsValue text.toList
  queryRef _ := 0
  unary _ _ := 0
  binary op a b := if op = .eq ∧ a = b ∧ a ≠ 0 then 1 else 0
  call _ _ := 0
  inList _ _ := 0
  Holds v := v ≠ 0

theorem numbers_holds_iff {op : BinaryOp} {a b : Nat} :
    numbers.Holds (numbers.binary op a b) ↔ op = .eq ∧ a = b ∧ a ≠ 0 := by
  simp [numbers]

theorem numbers_lawful : numbers.Lawful where
  symm h := by
    obtain ⟨hop, rfl, hne⟩ := numbers_holds_iff.mp h
    exact numbers_holds_iff.mpr ⟨hop, rfl, hne⟩
  trans hab hbc := by
    obtain ⟨hop, rfl, hne⟩ := numbers_holds_iff.mp hab
    exact hbc

theorem numbers_strict : numbers.Strict where
  left_ne_null _ h := (numbers_holds_iff.mp h).2.2
  right_ne_null _ h := by
    obtain ⟨-, rfl, hne⟩ := numbers_holds_iff.mp h
    exact hne
  constant_null h := if_pos h

end Interpretation

end SeriesQuery
