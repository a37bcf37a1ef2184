import Mathlib.Logic.Relation
import SeriesQuery.Proofs.Expr.Normal
import SeriesQuery.Proofs.Interpretation

/-!
What a condition means once its negations are at the leaves.

Nothing is assumed of the operations of an interpretation but the laws that negations are pushed by
(`Operations.Negates`). Under these a condition keeps its value, whatever it is made of; that no
negation is left in front of something that has an opposite is said of every part of the condition,
inside calls and lists too (`Expr.pushNegations_keeps`).
-/

namespace SeriesQuery

/-! ### Values -/

/-- What `not` does to values: it undoes itself, it turns `and` and `or` into each other and a
comparison into the one that holds exactly when the first does not. -/
structure Operations.Negates {Value : Type} (ops : Operations Value) : Prop where
  not_not : ∀ a, ops.unary .not (ops.unary .not a) = a
  not_and : ∀ a b, ops.unary .not (ops.binary .and a b) =
    ops.binary .or (ops.unary .not a) (ops.unary .not b)
  not_or : ∀ a b, ops.unary .not (ops.binary .or a b) =
    ops.binary .and (ops.unary .not a) (ops.unary .not b)
  not_eq : ∀ a b, ops.unary .not (ops.binary .eq a b) = ops.binary .notEq a b
  not_lt : ∀ a b, ops.unary .not (ops.binary .lt a b) = ops.binary .gtEq a b
  not_gt : ∀ a b, ops.unary .not (ops.binary .gt a b) = ops.binary .ltEq a b

namespace Operations

variable {Value : Type} {ops : Operations Value}

/-- The opposite of a comparison is its negation, whichever of the two is negated. -/
theorem Negates.binary_opposite (h : ops.Negates) {op negated : BinaryOp}
    (hop : op.opposite? = some negated) (a b : Value) :
    ops.binary negated a b = ops.unary .not (ops.binary op a b) := by
  cases op <;> cases hop
  case eq => exact (h.not_eq a b).symm
  case lt => exact (h.not_lt a b).symm
  case gt => exact (h.not_gt a b).symm
  case notEq => rw [← h.not_eq, h.not_not]
  case ltEq => rw [← h.not_gt, h.not_not]
  case gtEq => rw [← h.not_lt, h.not_not]

/-- The opposite of an expression is its negation. -/
theorem Negates.value_opposite (h : ops.Negates) (read : ColumnRef → Value) (e : Expr) (p : Nat) :
    ops.value read (e.opposite p) = ops.unary .not (ops.value read e) := by
  fun_induction Expr.opposite p e with
  | case1 operand q => exact (h.not_not _).symm
  | case2 left right q ihl ihr =>
    rw [value, value, ihl, ihr]
    exact (h.not_and _ _).symm
  | case3 left right q ihl ihr =>
    rw [value, value, ihl, ihr]
    exact (h.not_or _ _).symm
  | case4 op left right q _ _ negated hop => exact h.binary_opposite hop _ _
  | case5 => rfl
  | case6 => rfl

/-- A condition keeps its value when its negations are pushed. -/
theorem Negates.value_pushNegations (h : ops.Negates) (read : ColumnRef → Value) (e : Expr) :
    ops.value read e.pushNegations = ops.value read e := by
  have hlist : ∀ es : List Expr, (∀ e ∈ es, ops.value read e.pushNegations = ops.value read e) →
      ops.values read (Expr.pushNegationsList es) = ops.values read es := by
    intro es hes
    induction es with
    | nil => rfl
    | cons e es ih =>
      rw [Expr.pushNegationsList, values, values, hes e List.mem_cons_self,
        ih fun a ha => hes a (List.mem_cons_of_mem _ ha)]
  induction e using Expr.induct with
  | column ref p => rfl
  | constant text p => rfl
  | queryRef text p => rfl
  | unary op operand p ih =>
    cases op with
    | neg => rw [Expr.pushNegations, value, value, ih]
    | not => rw [Expr.pushNegations, h.value_opposite, ih, value]
  | binary op left right p ihl ihr => rw [Expr.pushNegations, value, value, ihl, ihr]
  | call name args p ih => rw [Expr.pushNegations, value, value, hlist args ih]
  | inList operand list p ih ihs => rw [Expr.pushNegations, value, value, ih, hlist list ihs]

end Operations

/-! ### Parts at any depth -/

namespace Expr

/-- `part` is the expression or stands in it, at any depth. -/
def Contains : Expr → Expr → Prop :=
  Relation.ReflTransGen fun whole part => part ∈ whole.parts

/-- The parts of a normal expression are normal. -/
theorem isNormal_of_mem_parts {e part : Expr} (h : e.isNormal = true) (hpart : part ∈ e.parts) :
    part.isNormal = true := by
  cases e with
  | column | constant | queryRef => cases hpart
  | unary op operand p =>
    obtain rfl := List.mem_singleton.mp hpart
    cases op with
    | neg => exact h
    | not => exact (Bool.and_eq_true_iff.mp h).2
  | binary op left right p =>
    obtain ⟨hleft, hright⟩ := Bool.and_eq_true_iff.mp h
    rcases List.mem_cons.mp hpart with rfl | hpart
    · exact hleft
    · obtain rfl := List.mem_singleton.mp hpart
      exact hright
  | call name args p => exact isNormalList_iff.mp h part hpart
  | inList operand list p =>
    obtain ⟨hoperand, hlist⟩ := Bool.and_eq_true_iff.mp h
    rcases List.mem_cons.mp hpart with rfl | hpart
    · exact hoperand
    · exact isNormalList_iff.mp hlist part hpart

/-- Everything in a normal expression is normal. -/
theorem Contains.isNormal {e part : Expr} (h : e.Contains part) (he : e.isNormal = true) :
    part.isNormal = true := by
  induction h with
  | refl => exact he
  | tail _ hpart ih => exact isNormal_of_mem_parts ih hpart

/-- The operators that a negation is pushed through or folded into. -/
def negatedOps : List BinaryOp :=
  [.and, .or, .eq, .notEq, .lt, .ltEq, .gt, .gtEq]

theorem lacksOpposite_binary_iff {op : BinaryOp} {left right : Expr} {p : Nat} :
    (binary op left right p).lacksOpposite = true ↔ op ∉ negatedOps := by
  cases op <;> simp [lacksOpposite, BinaryOp.opposite?, negatedOps]

/-- An expression without an opposite is no negation and has none of the listed operators. -/
theorem lacksOpposite_iff {e : Expr} :
    e.lacksOpposite = true ↔ (∀ operand p, e ≠ unary .not operand p) ∧
      ∀ op left right p, e = binary op left right p → op ∉ negatedOps := by
  cases e with
  | unary op operand p => cases op <;> simp [lacksOpposite]
  | binary op left right p =>
    rw [lacksOpposite_binary_iff]
    refine ⟨fun h => ⟨?_, ?_⟩, fun h => h.2 op left right p rfl⟩
    · intro operand q heq
      cases heq
    · rintro _ _ _ _ ⟨⟩
      exact h
  | _ => simp [lacksOpposite]

/-- **Pushing negations is sound, complete and done at once.** A condition keeps its value under
all operations that negate as the laws say; no `not` is left, however deep, in front of a `not`, an
`and`, an `or` or one of the six comparisons with an opposite; the columns are those that were
there, with their positions; and pushing negations again changes nothing at all. -/
theorem pushNegations_keeps (e : Expr) :
    (∀ (Value : Type) (ops : Operations Value) (read : ColumnRef → Value), ops.Negates →
        ops.value read e.pushNegations = ops.value read e) ∧
      (∀ operand p, e.pushNegations.Contains (unary .not operand p) →
        (∀ inner q, operand ≠ unary .not inner q) ∧
          ∀ op left right q, operand = binary op left right q → op ∉ negatedOps) ∧
      e.pushNegations.columns = e.columns ∧
      e.pushNegations.pushNegations = e.pushNegations := by
  have hnormal := isNormal_pushNegations e
  refine ⟨fun _ _ read h => h.value_pushNegations read e, fun operand p hcontains => ?_,
    columns_pushNegations e, pushNegations_eq_self hnormal⟩
  have hnot := hcontains.isNormal hnormal
  exact lacksOpposite_iff.mp (Bool.and_eq_true_iff.mp hnot).1

/-- Truth values, ordered with false before true. -/
def truthValues : Operations Bool where
  null := false
  constant text := text == "true"
  queryRef _ := false
  unary op a := match op with
    | .not => !a
    | .neg => a
  binary op a b := match op with
    | .or => a || b
    | .and => a && b
    | .eq => a == b
    | .notEq => a != b
    | .lt => !a && b
    | .ltEq => !a || b
    | .gt => a && !b
    | .gtEq => a || !b
    | _ => false
  call name args := name == "any" && args.any id
  inList a list := list.contains a

theorem truthValues_negates : truthValues.Negates := by
  constructor <;> decide

/-- `not (any(not (a < b)) and not not (c in (not (d or e))))`. -/
def negatedCall : Expr :=
  let column (name : String) (p : Nat) := Expr.column (.plain name) p
  unary .not (binary .and
    (call "any" [unary .not (binary .lt (column "a" 14) (column "b" 18) 16) 9] 5)
    (unary .not (unary .not (inList (column "c" 34)
      [unary .not (binary .or (column "d" 46) (column "e" 51) 48) 41] 36) 29) 25) 21) 0

/-- Of the six negations two are left, in front of the call and of the list; the sequence of the
columns and the value, wherever it is taken, are the same. -/
theorem pushNegations_keeps_negatedCall :
    negatedCall.pushNegations.text = "not(any(a >= b)) or not(in(not(d) and not(e),c))" ∧
      (∀ read, truthValues.value read negatedCall.pushNegations =
        truthValues.value read negatedCall) ∧
      (∀ inner q, column (.plain "d") 46 ≠ unary .not inner q) ∧
      negatedCall.pushNegations.columns = negatedCall.columns ∧
      negatedCall.pushNegations.pushNegations = negatedCall.pushNegations := by
  obtain ⟨hvalue, hleaf, hcolumns, hagain⟩ := pushNegations_keeps negatedCall
  have hcontains : negatedCall.pushNegations.Contains
      (unary .not (column (.plain "d") 46) 41) := by
    refine .head (List.mem_cons_of_mem _ List.mem_cons_self) (.head List.mem_cons_self ?_)
    exact .head (List.mem_cons_of_mem _ List.mem_cons_self) (.head List.mem_cons_self .refl)
  exact ⟨by decide +kernel, fun read => hvalue Bool truthValues read truthValues_negates,
    (hleaf _ _ hcontains).1, hcolumns, hagain⟩

end Expr

end SeriesQuery
