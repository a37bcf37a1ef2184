import SeriesQuery.Proofs.Expr.Parts
import SeriesQuery.Proofs.Expr.Spelling

/-!
Expressions whose positions are forgotten.

Positions are carried along and never looked at: what a function on expressions makes of an
erased expression is what it makes of the expression itself, erased (`erase_` lemmas, which move
`erase` towards the leaves), and its answers are the same (`_erase` lemmas).
-/

namespace SeriesQuery.Expr

@[simp] theorem erase_erase (e : Expr) : e.erase.erase = e.erase := by
  induction e using Expr.induct with
  | column => rfl
  | constant => rfl
  | queryRef => rfl
  | unary op operand p ih => simp only [erase, ih]
  | binary op left right p ihl ihr => simp only [erase, ihl, ihr]
  | call name args p ih =>
    simpa [erase, eraseList_eq_map] using ih
  | inList operand list p ih ihs =>
    simpa [erase, eraseList_eq_map, ih] using ihs

/-! ### What is asked of an expression -/

@[simp] theorem position_erase (e : Expr) : e.erase.position = 0 := by
  cases e <;> rfl

@[simp] theorem column?_erase (e : Expr) : e.erase.column? = e.column? := by
  cases e <;> rfl

@[simp] theorem isConstant_erase (e : Expr) : e.erase.isConstant = e.isConstant := by
  cases e <;> rfl

@[simp] theorem isAggregate_erase (e : Expr) : e.erase.isAggregate = e.isAggregate := by
  cases e <;> rfl

@[simp] theorem hasAggregate_erase (e : Expr) : e.erase.hasAggregate = e.hasAggregate := by
  induction e using inductParts with
  | step e ih =>
    have hany : e.erase.parts.any hasAggregate = e.parts.any hasAggregate := by
      have hmap := List.map_congr_left ih
      simpa [parts_erase, List.any_map, Function.comp_def] using congrArg (List.any · id) hmap
    rw [hasAggregate_of_parts, hasAggregate_of_parts e, isAggregate_erase, hany]

@[simp] theorem strength_erase (e : Expr) : e.erase.strength = e.strength := by
  cases e with
  | unary op => cases op <;> rfl
  | _ => rfl

/-- **Positions are not printed.** -/
@[simp] theorem text_erase (e : Expr) : e.erase.text = e.text := by
  have hlist : ∀ es : List Expr, (∀ e ∈ es, e.erase.text = e.text) →
      textList (eraseList es) = textList es := by
    intro es h
    simp only [textList_eq_map, eraseList_eq_map, List.map_map]
    exact List.map_congr_left h
  induction e using Expr.induct with
  | column => rfl
  | constant => rfl
  | queryRef => rfl
  | unary op operand p ih => cases op <;> simp only [erase, text, strength_erase, ih]
  | binary op left right p ihl ihr => simp only [erase, text, strength_erase, ihl, ihr]
  | call name args p ih => simp only [erase, text, hlist args ih]
  | inList operand list p ih ihs => simp only [erase, text, ih, hlist list ihs]

@[simp] theorem sameText_erase (a b : Expr) : a.erase.sameText b.erase = a.sameText b := by
  simp [sameText]

@[simp] theorem defaultName_erase (e : Expr) : e.erase.defaultName = e.defaultName := by
  cases e <;> rfl

/-- A reference and the position it is forgotten to stand at. -/
def unplaced (ref : ColumnRef × Nat) : ColumnRef × Nat :=
  (ref.1, 0)

@[simp] theorem columns_erase (e : Expr) : e.erase.columns = e.columns.map unplaced := by
  induction e using inductColumns with
  | column ref p => rfl
  | other e hcol ih =>
    rw [columns_of_parts (by simpa using hcol), columns_of_parts hcol, parts_erase, List.flatMap_map,
      List.map_flatMap]
    exact List.flatMap_congr ih

/-! ### What is made of an expression -/

@[simp] theorem erase_notOf (e : Expr) (p : Nat) : (e.notOf p).erase = e.erase.notOf 0 := rfl

@[simp] theorem erase_equality (a b : Expr) : (equality a b).erase = equality a.erase b.erase := by
  simp [equality, erase]

@[simp] theorem erase_conj (a b : Expr) : (conj a b).erase = conj a.erase b.erase := by
  simp [conj, erase]

theorem erase_foldl_conj (first : Expr) (es : List Expr) :
    (es.foldl conj first).erase = (es.map erase).foldl conj first.erase := by
  induction es generalizing first with
  | nil => rfl
  | cons e es ih => simp [ih]

@[simp] theorem erase_conjunction (es : List Expr) :
    (conjunction es).map erase = conjunction (es.map erase) := by
  cases es with
  | nil => rfl
  | cons e es => simp [conjunction, erase_foldl_conj]

@[simp] theorem erase_narrow (filter : Option Expr) (e : Expr) :
    (narrow filter e).erase = narrow (filter.map erase) e.erase := by
  cases filter <;> simp [narrow]

theorem map_erase_conjuncts (e : Expr) : e.conjuncts.map erase = e.erase.conjuncts := by
  fun_induction conjuncts e with
  | case1 left right p ihl ihr => simp [erase, conjuncts, ihl, ihr]
  | case2 e hnot =>
    cases e with
    | binary op left right p =>
      cases op with
      | and => exact absurd rfl (hnot left right p)
      | _ => rfl
    | _ => rfl

theorem erase_opposite (e : Expr) (p : Nat) : (e.opposite p).erase = e.erase.opposite 0 := by
  fun_induction opposite p e with
  | case1 => rfl
  | case2 left right q ihl ihr => simp [erase, opposite, ihl, ihr]
  | case3 left right q ihl ihr => simp [erase, opposite, ihl, ihr]
  | case4 op left right q _ _ negated h => simp_all [erase, opposite]
  | case5 op left right q _ _ h => simp_all [erase, opposite]
  | case6 e hnot _ _ hbinary =>
    cases e with
    | unary op operand q =>
      cases op with
      | neg => rfl
      | not => exact absurd rfl (hnot operand q)
    | binary op left right q => exact absurd rfl (hbinary op left right q)
    | _ => rfl

theorem erase_pushNegations (e : Expr) : e.pushNegations.erase = e.erase.pushNegations := by
  have hlist : ∀ es : List Expr, (∀ e ∈ es, e.pushNegations.erase = e.erase.pushNegations) →
      eraseList (pushNegationsList es) = pushNegationsList (eraseList es) := by
    intro es h
    simp only [eraseList_eq_map, pushNegationsList_eq_map, List.map_map]
    exact List.map_congr_left h
  induction e using Expr.induct with
  | column => rfl
  | constant => rfl
  | queryRef => rfl
  | unary op operand p ih =>
    cases op with
    | neg => simp only [erase, pushNegations, ih]
    | not => simp only [erase, pushNegations, erase_opposite, ih]
  | binary op left right p ihl ihr => simp only [erase, pushNegations, ihl, ihr]
  | call name args p ih => simp only [erase, pushNegations, hlist args ih]
  | inList operand list p ih ihs => simp only [erase, pushNegations, ih, hlist list ihs]

end SeriesQuery.Expr
