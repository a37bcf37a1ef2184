import SeriesQuery.Proofs.Expr.Canonical
import SeriesQuery.Proofs.Expr.Spelling

/-!
Conditions with their negations at the leaves.

Pushing negations makes a condition normal (`isNormal_pushNegations`) and leaves a normal one
as it is (`pushNegations_eq_self`). What the canonical text of a normal condition stands for is
normal too, and its conjuncts are those of the condition.
-/

namespace SeriesQuery.Expr

/-! ### Normal conditions -/

/-- Whether the opposite of the expression is a `not` in front of it. -/
def lacksOpposite : Expr → Bool
  | unary .not _ _ => false
  | binary .and _ _ _ => false
  | binary .or _ _ _ => false
  | binary op _ _ _ => op.opposite?.isNone
  | _ => true

mutual

/-- Whether every `not` stands in front of an expression without an opposite of its own. -/
def isNormal : Expr → Bool
  | column .. | constant .. | queryRef .. => true
  | unary .not operand _ => operand.lacksOpposite && operand.isNormal
  | unary .neg operand _ => operand.isNormal
  | binary _ left right _ => left.isNormal && right.isNormal
  | call _ args _ => isNormalList args
  | inList operand list _ => operand.isNormal && isNormalList list

/-- Whether all of the expressions are normal. -/
def isNormalList : List Expr → Bool
  | [] => true
  | e :: es => e.isNormal && isNormalList es

end

theorem isNormalList_iff {es : List Expr} :
    isNormalList es = true ↔ ∀ e ∈ es, e.isNormal = true := by
  induction es with
  | nil => simp [isNormalList]
  | cons e es ih => simp [isNormalList, ih]

theorem opposite_eq_notOf {e : Expr} (h : e.lacksOpposite = true) (p : Nat) :
    e.opposite p = notOf e p := by
  fun_cases opposite p e with
  | case1 => cases h
  | case2 => cases h
  | case3 => cases h
  | case4 => simp_all [lacksOpposite]
  | case5 => rfl
  | case6 => rfl

theorem isNormal_opposite {e : Expr} (h : e.isNormal = true) (p : Nat) :
    (e.opposite p).isNormal = true := by
  fun_induction opposite p e with
  | case1 => simp_all [isNormal]
  | case2 => simp_all [isNormal]
  | case3 => simp_all [isNormal]
  | case4 => simp_all [isNormal]
  | case5 => simp_all [isNormal, notOf, lacksOpposite]
  | case6 => simp_all [isNormal, notOf, lacksOpposite]

/-- **Pushed negations stand at the leaves.** -/
theorem isNormal_pushNegations (e : Expr) : e.pushNegations.isNormal = true := by
  induction e using Expr.induct with
  | column => rfl
  | constant => rfl
  | queryRef => rfl
  | unary op operand p ih =>
    cases op with
    | neg => exact ih
    | not => exact isNormal_opposite ih p
  | binary op left right p ihl ihr => simp [pushNegations, isNormal, ihl, ihr]
  | call name args p ih =>
    simpa [pushNegations, isNormal, isNormalList_iff, pushNegationsList_eq_map] using ih
  | inList operand list p ih ihs =>
    simpa [pushNegations, isNormal, isNormalList_iff, pushNegationsList_eq_map, ih] using ihs

/-- A condition with its negations at the leaves stays as it is. -/
theorem pushNegations_eq_self {e : Expr} (h : e.isNormal = true) : e.pushNegations = e := by
  induction e using Expr.induct with
  | column => rfl
  | constant => rfl
  | queryRef => rfl
  | unary op operand p ih =>
    cases op with
    | neg => rw [pushNegations, ih h]
    | not =>
      obtain ⟨hlacks, hoperand⟩ := by simpa [isNormal] using h
      rw [pushNegations, ih hoperand, opposite_eq_notOf hlacks, notOf]
  | binary op left right p ihl ihr =>
    obtain ⟨hl, hr⟩ := by simpa [isNormal] using h
    rw [pushNegations, ihl hl, ihr hr]
  | call name args p ih =>
    have hargs := isNormalList_iff.mp h
    rw [pushNegations, pushNegationsList_eq_map, List.map_congr_left fun a ha => ih a ha (hargs a ha),
      List.map_id']
  | inList operand list p ih ihs =>
    obtain ⟨hoperand, hitems⟩ := by simpa [isNormal] using h
    have hitems := isNormalList_iff.mp hitems
    rw [pushNegations, pushNegationsList_eq_map, ih hoperand,
      List.map_congr_left fun a ha => ihs a ha (hitems a ha), List.map_id']

end SeriesQuery.Expr
