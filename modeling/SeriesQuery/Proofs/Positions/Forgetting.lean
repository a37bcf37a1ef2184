import Mathlib.Data.Option.Basic
import SeriesQuery.Error
import SeriesQuery.Proofs.Expr.Replacement
import SeriesQuery.Proofs.Positions.Expr

/-!
Programs that never look at positions.

`Forgets g x x'` says that `x'` does on data without positions what `x` does: where `x` answers
`a` it answers `g a`, and where `x` fails it fails with the same fault. There is a rule for each
way to put programs together, whatever else they do (`Forgetful`), so what a program does without
positions is put together from what its parts do.
-/

namespace SeriesQuery

/-- An error without its position. -/
def SqlError.erase (e : SqlError) : SqlError :=
  ⟨0, e.fault⟩

/-- A state, and what it is without positions. -/
class Erasable (σ : Type) where
  erase : σ → σ

/-- A kind of program that may forget positions. -/
class Forgetful (m : Type → Type) [Monad m] where
  /-- The second program is the first one on data without positions; `g` takes the positions
  from the answer. -/
  Forgets {α α' : Type} (g : α → α') (x : m α) (x' : m α') : Prop
  pure {α α' : Type} (g : α → α') (a : α) : Forgets g (Pure.pure a) (Pure.pure (g a))
  bind {α α' β β' : Type} {g : α → α'} {h : β → β'} {x : m α} {x' : m α'} {f : α → m β}
    {f' : α' → m β'} (hx : Forgets g x x') (hf : ∀ a, Forgets h (f a) (f' (g a))) :
    Forgets h (x >>= f) (x' >>= f')

open Forgetful

/-! ### Rules for all programs -/

namespace Forgetful.Forgets

variable {m : Type → Type} [Monad m] [Forgetful m] {α α' β β' : Type} {g : α → α'} {h : β → β'}
  {x y : m α} {x' y' : m α'}

theorem ite {c : Prop} [Decidable c] (hx : Forgets g x x') (hy : Forgets g y y') :
    Forgets g (if c then x else y) (if c then x' else y') := by
  by_cases hc : c
  · rwa [if_pos hc, if_pos hc]
  · rwa [if_neg hc, if_neg hc]

theorem map [LawfulMonad m] {f : α → β} {f' : α' → β'} (hx : Forgets g x x')
    (hf : ∀ a, f' (g a) = h (f a)) : Forgets h (f <$> x) (f' <$> x') := by
  rw [map_eq_pure_bind, map_eq_pure_bind]
  refine bind hx fun a => ?_
  rw [hf]
  exact pure h (f a)

theorem mapM [LawfulMonad m] {f : α → m β} {f' : α' → m β'} {as : List α}
    (hf : ∀ a ∈ as, Forgets h (f a) (f' (g a))) :
    Forgets (List.map h) (as.mapM f) ((as.map g).mapM f') := by
  induction as with
  | nil => exact pure _ []
  | cons a as ih =>
    rw [List.map_cons, List.mapM_cons, List.mapM_cons]
    refine bind (hf a List.mem_cons_self) fun b => ?_
    refine bind (ih fun a ha => hf a (List.mem_cons_of_mem _ ha)) fun bs => ?_
    exact pure _ (b :: bs)

/-- The same parts are replaced. -/
theorem replaceM [LawfulMonad m] {pick pick' : Expr → Option (m Expr)}
    (hpick : ∀ e, Option.Rel (Forgets Expr.erase) (pick e) (pick' e.erase)) (e : Expr) :
    Forgets Expr.erase (e.replaceM pick) (e.erase.replaceM pick') := by
  induction e using Expr.inductParts with
  | step e ih =>
    have hrel := hpick e
    generalize hp : pick e = r, hp' : pick' e.erase = r' at hrel
    cases hrel with
    | some h => rwa [Expr.replaceM_of_some hp, Expr.replaceM_of_some hp']
    | none =>
      rw [Expr.replaceM_of_none hp, Expr.replaceM_of_none hp', Expr.parts_erase]
      exact (mapM ih).map fun es => (Expr.erase_withParts e es).symm

theorem replaceColumnsM [LawfulMonad m] {f f' : ColumnRef → Nat → m Expr}
    (hf : ∀ ref p, Forgets Expr.erase (f ref p) (f' ref 0)) (e : Expr) :
    Forgets Expr.erase (e.replaceColumnsM f) (e.erase.replaceColumnsM f') := by
  refine replaceM (fun e => ?_) e
  cases e with
  | column ref p => exact .some (hf ref p)
  | _ => exact .none

end Forgetful.Forgets

/-! ### Kinds of programs -/

/-- What only computes a value. -/
instance : Forgetful Id where
  Forgets g x x' := x' = g x
  pure _ _ := rfl
  bind := by
    rintro _ _ _ _ _ _ x _ _ _ rfl hf
    exact hf x

/-- What may have no value. -/
instance : Forgetful Option where
  Forgets g x x' := x' = x.map g
  pure _ _ := rfl
  bind := by
    rintro _ _ _ _ _ _ x _ _ _ rfl hf
    cases x with
    | none => rfl
    | some a => exact hf a

/-- What may fail. -/
instance : Forgetful (Except SqlError) where
  Forgets g x x' := x' = (x.map g).mapError SqlError.erase
  pure _ _ := rfl
  bind := by
    rintro _ _ _ _ _ _ x _ _ _ rfl hf
    cases x with
    | error e => rfl
    | ok a => exact hf a

/-- What changes a state. -/
instance {σ : Type} {n : Type → Type} [Monad n] [Forgetful n] [Erasable σ] :
    Forgetful (StateT σ n) where
  Forgets g x x' := ∀ s, Forgets (Prod.map g Erasable.erase) (x s) (x' (Erasable.erase s))
  pure g a s := Forgetful.pure (Prod.map g Erasable.erase) (a, s)
  bind hx hf s := Forgetful.bind (hx s) fun r => hf r.1 r.2

namespace Forgetful.Forgets

variable {α α' : Type} {g : α → α'}

theorem eq {x : Except SqlError α} {x' : Except SqlError α'} (h : Forgets g x x') :
    x' = (x.map g).mapError SqlError.erase := h

theorem eq_map {x : Option α} {x' : Option α'} (h : Forgets g x x') : x' = x.map g := h

theorem fail (position : Nat) (fault : Fault) :
    Forgets g (.error ⟨position, fault⟩ : Except SqlError α) (.error ⟨0, fault⟩) := rfl

section State

variable {σ : Type} {n : Type → Type} [Monad n] [Forgetful n] [Erasable σ]

theorem get : Forgets Erasable.erase (MonadState.get : StateT σ n σ) MonadState.get :=
  fun s => Forgetful.pure (Prod.map Erasable.erase Erasable.erase) (s, s)

theorem set (s : σ) : Forgets id (MonadStateOf.set s : StateT σ n PUnit)
    (MonadStateOf.set (Erasable.erase s)) :=
  fun _ => Forgetful.pure (Prod.map id Erasable.erase) (PUnit.unit, s)

theorem lift {x : n α} {x' : n α'} (h : Forgets g x x') :
    Forgets g (liftM x : StateT σ n α) (liftM x') :=
  fun s => Forgetful.bind h fun a => Forgetful.pure (Prod.map g Erasable.erase) (a, s)

end State

end Forgetful.Forgets

end SeriesQuery
