import Mathlib.Data.List.Forall2
import SeriesQuery.Expr

/-!
An expression and its parts.

`e.withParts es` is `e` with `es` in the place of its immediate parts. A function that works its way
through an expression does to each part what it does to the whole and puts the expression together
again, which is said here once for all kinds of expressions (`replaceM_of_none`, `erase_withParts`,
`columns_of_parts`). What is proved of such a function by induction on the parts (`inductParts`)
has one case then, and not one for each constructor.
-/

namespace SeriesQuery

section List

variable {m : Type → Type} [Monad m] [LawfulMonad m] {α β γ : Type}

theorem mapM_congr {f g : α → m β} {as : List α} (h : ∀ a ∈ as, f a = g a) :
    as.mapM f = as.mapM g := by
  induction as with
  | nil => rfl
  | cons a as ih =>
    rw [List.mapM_cons, List.mapM_cons, h a List.mem_cons_self,
      ih fun b hb => h b (List.mem_cons_of_mem _ hb)]

theorem map_mapM (f : α → m β) (g : β → γ) (as : List α) :
    List.map g <$> as.mapM f = as.mapM fun a => g <$> f a := by
  induction as with
  | nil => simp
  | cons a as ih =>
    simp only [List.mapM_cons, map_bind, ← ih, bind_map_left, map_pure, List.map_cons]

/-- All elements have an answer if each of them has. -/
theorem mapM_eq_some_iff {f : α → Option β} {as : List α} {bs : List β} :
    as.mapM f = some bs ↔ List.Forall₂ (fun a b => f a = some b) as bs := by
  induction as generalizing bs with
  | nil => simp [eq_comm]
  | cons a as ih =>
    simp only [List.mapM_cons, Option.bind_eq_bind, Option.bind_eq_some_iff, Option.pure_def,
      Option.some.injEq, List.forall₂_cons_left_iff, ih]
    constructor
    · rintro ⟨b, hb, bs', hbs, rfl⟩
      exact ⟨b, bs', hb, hbs, rfl⟩
    · rintro ⟨b, bs', hb, hbs, rfl⟩
      exact ⟨b, hb, bs', hbs, rfl⟩

theorem isSome_mapM {f : α → Option β} {as : List α} :
    (as.mapM f).isSome ↔ ∀ a ∈ as, (f a).isSome := by
  induction as with
  | nil => simp
  | cons a as ih =>
    rw [List.mapM_cons, List.forall_mem_cons, ← ih]
    cases f a <;> cases as.mapM f <;> simp

theorem map_eq_map_of_forall₂ {f : α → γ} {g : β → γ} {as : List α} {bs : List β}
    (h : List.Forall₂ (fun a b => g b = f a) as bs) : bs.map g = as.map f := by
  induction h with
  | nil => rfl
  | cons hab _ ih => rw [List.map_cons, List.map_cons, hab, ih]

end List

namespace Expr

/-! ### Parts put in -/

/-- The expression with other parts in the place of its own, as many as it has. -/
def withParts : Expr → List Expr → Expr
  | unary op _ p, [a] => unary op a p
  | binary op _ _ p, [a, b] => binary op a b p
  | call name _ p, es => call name es p
  | inList _ _ p, a :: es => inList a es p
  | e, _ => e

@[simp] theorem withParts_parts (e : Expr) : e.withParts e.parts = e := by
  cases e <;> rfl

@[simp] theorem column?_withParts (e : Expr) (es : List Expr) : (e.withParts es).column? = e.column? := by
  fun_cases withParts e es <;> rfl

@[simp] theorem isAggregate_withParts (e : Expr) (es : List Expr) :
    (e.withParts es).isAggregate = e.isAggregate := by
  fun_cases withParts e es <;> rfl

theorem parts_withParts {e : Expr} {es : List Expr} (h : e.parts.length = es.length) :
    (e.withParts es).parts = es := by
  match e, es with
  | column .., [] | constant .., [] | queryRef .., [] => rfl
  | unary .., [a] => rfl
  | binary .., [a, b] => rfl
  | call .., es => rfl
  | inList .., a :: es => rfl

theorem withParts_withParts {e : Expr} {es fs : List Expr} (h : e.parts.length = es.length)
    (h' : es.length = fs.length) : (e.withParts es).withParts fs = e.withParts fs := by
  match e, es, fs with
  | column .., [], [] | constant .., [], [] | queryRef .., [], [] => rfl
  | unary .., [a], [b] => rfl
  | binary .., [a, b], [c, d] => rfl
  | call .., es, fs => rfl
  | inList .., a :: es, b :: fs => rfl

/-- What holds of an expression if it holds of its parts holds of all expressions. -/
theorem inductParts {P : Expr → Prop} (step : ∀ e, (∀ a ∈ e.parts, P a) → P e) (e : Expr) : P e := by
  induction e using Expr.induct with
  | column | constant | queryRef => exact step _ (List.forall_mem_nil P)
  | unary op a p ih => exact step _ (List.forall_mem_singleton.mpr ih)
  | binary op a b p iha ihb =>
    exact step _ (List.forall_mem_cons.mpr ⟨iha, List.forall_mem_singleton.mpr ihb⟩)
  | call name es p ih => exact step _ ih
  | inList a es p ih ihs => exact step _ (List.forall_mem_cons.mpr ⟨ih, ihs⟩)

/-- A reference is a case of its own. -/
theorem inductColumns {P : Expr → Prop} (column : ∀ ref p, P (.column ref p))
    (other : ∀ e, e.column? = none → (∀ a ∈ e.parts, P a) → P e) (e : Expr) : P e := by
  induction e using inductParts with
  | step e ih =>
    cases hcol : e.column? with
    | some ref =>
      obtain ⟨p, rfl⟩ := column?_eq_some.mp hcol
      exact column ref p
    | none => exact other e hcol ih

/-! ### What is done to the parts -/

theorem parts_erase (e : Expr) : e.erase.parts = e.parts.map erase := by
  cases e <;> simp [erase, parts, eraseList_eq_map]

theorem erase_withParts (e : Expr) (es : List Expr) :
    (e.withParts es).erase = e.erase.withParts (es.map erase) := by
  match e, es with
  | column .., _ | constant .., _ | queryRef .., _ => rfl
  | unary .., [] | unary .., [_] | unary .., _ :: _ :: _ => rfl
  | binary .., [] | binary .., [_] | binary .., [_, _] | binary .., _ :: _ :: _ :: _ => rfl
  | call .., es => simp [erase, withParts, eraseList_eq_map]
  | inList .., [] => rfl
  | inList .., a :: es => simp [erase, withParts, eraseList_eq_map]

theorem columns_of_parts {e : Expr} (h : e.column? = none) : e.columns = e.parts.flatMap columns := by
  cases e with
  | column => cases h
  | _ => simp [columns, parts, columnsOfList_eq_flatMap]

theorem hasAggregate_of_parts (e : Expr) :
    e.hasAggregate = (e.isAggregate || e.parts.any hasAggregate) := by
  have hlist : ∀ es : List Expr, anyHasAggregate es = es.any hasAggregate := by
    intro es
    induction es with
    | nil => rfl
    | cons e es ih => rw [anyHasAggregate, List.any_cons, ih]
  cases e <;> simp [hasAggregate, isAggregate, parts, hlist]

section Replace

variable {m : Type → Type} [Monad m] {pick : Expr → Option (m Expr)} {f : ColumnRef → Nat → m Expr}
  {e : Expr}

theorem replaceM_of_some {r : m Expr} (h : pick e = some r) : e.replaceM pick = r := by
  cases e <;> simp only [replaceM, h]

variable [LawfulMonad m]

theorem replaceListM_eq_mapM (es : List Expr) : replaceListM pick es = es.mapM (replaceM pick) := by
  induction es with
  | nil => rfl
  | cons e es ih => rw [replaceListM, List.mapM_cons, ih]

/-- Where there is no replacement for the whole, the parts are replaced from left to right. -/
theorem replaceM_of_none (h : pick e = none) :
    e.replaceM pick = e.withParts <$> e.parts.mapM (replaceM pick) := by
  cases e with
  | call name args p =>
    simp only [replaceM, h, replaceListM_eq_mapM, bind_pure_comp]
    rfl
  | _ => simp [replaceM, h, parts, withParts, replaceListM_eq_mapM]

theorem replaceColumnsM_of_parts (h : e.column? = none) :
    e.replaceColumnsM f = e.withParts <$> e.parts.mapM (replaceColumnsM f) := by
  refine replaceM_of_none ?_
  cases e with
  | column => cases h
  | _ => rfl

end Replace

end Expr

end SeriesQuery
