import SeriesQuery.Expr.Parser
import SeriesQuery.Expr.Printer

/-!
What the canonical text of an expression is read as.

A list test is printed as a call of `in`, and a `not` right after a sign is read as a call, so
the text of an expression is read as `Expr.called`. Elsewhere a `not` takes in every operator
after it that binds at least as tightly as it does; an expression is printed without such an
operator if its nots stand apart (`Expr.notsApart`). `Expr.depth` counts the nesting levels that
reading the text takes.
-/

namespace SeriesQuery.Expr

/-! ### The expression that the text stands for -/

mutual

/-- The expression that the canonical text is read as. -/
def called : Expr → Expr
  | column ref p => column ref p
  | constant text p => constant text p
  | queryRef text p => queryRef text p
  | unary .neg (unary .not operand p) q => unary .neg (call "not" [operand.called] p) q
  | unary op operand p => unary op operand.called p
  | binary op left right p => binary op left.called right.called p
  | call name args p => call name (calledList args) p
  | inList operand list p => call "in" ((calledList list).reverse ++ [operand.called]) p

/-- The expressions that the canonical texts are read as. -/
def calledList : List Expr → List Expr
  | [] => []
  | e :: es => e.called :: calledList es

end

/-- The expression that the canonical text is read as right after a sign. -/
def afterSign : Expr → Expr
  | unary .not operand p => call "not" [operand.called] p
  | e => e.called

theorem called_neg (operand : Expr) (p : Nat) :
    (unary .neg operand p).called = unary .neg operand.afterSign p := by
  cases operand with
  | unary op operand q => cases op <;> rfl
  | _ => rfl

@[simp] theorem called_not (operand : Expr) (p : Nat) :
    (unary .not operand p).called = unary .not operand.called p := by
  simp [called]

/-- Only a `not` is read differently right after a sign. -/
theorem afterSign_of_strength_le {e : Expr} (h : e.strength ≤ 7) : e.afterSign = e.called := by
  cases e with
  | unary op operand p =>
    cases op with
    | neg => rfl
    | not => simp [strength] at h
  | _ => rfl

theorem calledList_eq_map (es : List Expr) : calledList es = es.map called := by
  induction es with
  | nil => rfl
  | cons e es ih => simp [calledList, ih]

/-! ### Operators after a `not` -/

/-- Whether the text ends in a `not` that no parenthesis closes off. -/
def endsInNot : Expr → Bool
  | unary .not _ _ => true
  | binary op _ right _ => op.strength < right.strength && right.endsInNot
  | _ => false

mutual

/-- Whether no operator that binds at least as tightly as `not` follows a `not` in the text. -/
def notsApart : Expr → Bool
  | column .. | constant .. | queryRef .. => true
  | unary _ operand _ => operand.notsApart
  | binary op left right _ =>
      (!left.endsInNot || left.strength < op.strength || op.strength < Grammar.notStrength) &&
        left.notsApart && right.notsApart
  | call _ args _ => notsApartList args
  | inList operand list _ => operand.notsApart && notsApartList list

/-- Whether none of the texts has such an operator. -/
def notsApartList : List Expr → Bool
  | [] => true
  | e :: es => e.notsApart && notsApartList es

end

theorem notsApartList_iff {es : List Expr} :
    notsApartList es = true ↔ ∀ e ∈ es, e.notsApart = true := by
  induction es with
  | nil => simp [notsApartList]
  | cons e es ih => simp [notsApartList, ih]

/-- How tightly an operator after an expression has to bind to be read into its right side; no
operator binds as tightly as an expression without sides. -/
def sideReach : Expr → Nat
  | binary op _ _ _ => op.strength + 1
  | _ => 7

/-- How tightly an operator after the text has to bind to be read into it. -/
def reach (e : Expr) : Nat :=
  min (if e.endsInNot then Grammar.notStrength else 7) e.sideReach

theorem reach_le (e : Expr) : e.reach ≤ 7 :=
  Nat.le_trans (Nat.min_le_left _ _) (by split <;> decide)

theorem strength_binary (op : BinaryOp) : 1 ≤ op.strength ∧ op.strength ≤ Grammar.maxStrength := by
  cases op <;> decide

theorem one_le_strength (e : Expr) : 1 ≤ e.strength := by
  cases e with
  | binary op => exact (strength_binary op).1
  | unary op => cases op <;> simp [strength]
  | _ => simp [strength]

section Reach

variable {op : BinaryOp} {left right : Expr} {p : Nat}

theorem lt_sideReach {e : Expr} {n : Nat} (hn : n ≤ Grammar.maxStrength) (h : n ≤ e.strength) :
    n < e.sideReach := by
  cases e with
  | binary op => exact Nat.lt_succ_of_le h
  | _ => exact Nat.lt_succ_of_le hn

/-- No operator is read into the operand on its left. -/
theorem lt_reach_left (h : (binary op left right p).notsApart = true)
    (hstrength : op.strength ≤ left.strength) : op.strength < left.reach := by
  have hop := (strength_binary op).2
  refine Nat.lt_min.mpr ⟨?_, lt_sideReach hop hstrength⟩
  split
  · rename_i hnot
    simp only [notsApart, hnot, Nat.not_lt.mpr hstrength, Bool.not_true, decide_false,
      Bool.false_or, Bool.and_eq_true, decide_eq_true_eq] at h
    exact h.1.1
  · exact Nat.lt_succ_of_le hop

/-- What is read into the operand on the right is read into the whole. -/
theorem reach_le_right (h : op.strength < right.strength) :
    (binary op left right p).reach ≤ right.reach := by
  have hnot : (binary op left right p).endsInNot = right.endsInNot := by simp [endsInNot, h]
  unfold reach
  rw [hnot]
  refine Nat.le_min.mpr ⟨Nat.min_le_left _ _, Nat.le_trans (Nat.min_le_right _ _) ?_⟩
  exact lt_sideReach (strength_binary op).2 (Nat.le_of_lt h)

theorem reach_le_strength : (binary op left right p).reach ≤ op.strength + 1 :=
  Nat.min_le_right _ _

end Reach

/-! ### Nesting -/

/-- The nesting levels of a text, in parentheses if `needed`. -/
def enclosedDepth (needed : Bool) (depth : Nat) : Nat :=
  if needed then depth + 1 else depth

mutual

/-- How many nesting levels reading the canonical text takes. -/
def depth : Expr → Nat
  | column .. | constant .. | queryRef .. => 0
  | unary .not operand _ => operand.depth + 2
  | unary .neg operand _ => enclosedDepth (operand.strength ≤ 7) operand.depth + 1
  | binary op left right _ =>
      max (enclosedDepth (left.strength < op.strength) left.depth)
        (enclosedDepth (right.strength ≤ op.strength) right.depth)
  | call _ args _ => depthList args + 1
  | inList operand list _ => max operand.depth (depthList list) + 1

/-- The largest of the depths. -/
def depthList : List Expr → Nat
  | [] => 0
  | e :: es => max e.depth (depthList es)

end

theorem depthList_le_iff {es : List Expr} {n : Nat} :
    depthList es ≤ n ↔ ∀ e ∈ es, e.depth ≤ n := by
  induction es with
  | nil => simp [depthList]
  | cons e es ih => rw [depthList, Nat.max_le, ih, List.forall_mem_cons]

end SeriesQuery.Expr
