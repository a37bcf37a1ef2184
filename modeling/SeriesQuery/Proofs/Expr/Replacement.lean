import SeriesQuery.Proofs.Expr.Parts
import SeriesQuery.Proofs.Growth

/-!
Replacing parts of expressions.

A relation that is kept by the ways of putting expressions together carries over from the
parts that are replaced to the whole expression: for replacements that may fail
(`Congruent.of_replaceM`) and for those that change a state as they go
(`Congruent.replaceM_ensures`), where the relation may speak of the state that is reached.
-/

namespace SeriesQuery.Expr

/-- A relation that holds of whole expressions as soon as it holds of their parts; of
columns nothing is asked. -/
structure Congruent (Q : Expr → Expr → Prop) : Prop where
  constant : ∀ text p, Q (.constant text p) (.constant text p)
  queryRef : ∀ text p, Q (.queryRef text p) (.queryRef text p)
  unary : ∀ op p {a a'}, Q a a' → Q (.unary op a p) (.unary op a' p)
  binary : ∀ op p {a a' b b'}, Q a a' → Q b b' → Q (.binary op a b p) (.binary op a' b' p)
  call : ∀ name p {es es'}, List.Forall₂ Q es es' → Q (.call name es p) (.call name es' p)
  inList : ∀ p {a a' es es'}, Q a a' → List.Forall₂ Q es es' →
    Q (.inList a es p) (.inList a' es' p)

/-- The references of the parts of an expression are references of it. -/
theorem columns_subset_of_mem_parts {e part : Expr} (h : part ∈ e.parts) :
    part.columns ⊆ e.columns := by
  have hcol : e.column? = none := by
    cases e with
    | column => cases h
    | _ => rfl
  rw [columns_of_parts hcol]
  exact fun c hc => List.mem_flatMap.mpr ⟨part, h, hc⟩

/-- Replacements that cannot fail are ones that may fail and do not. -/
theorem replaceM_some (pick : Expr → Option (Id Expr)) (e : Expr) :
    e.replaceM (m := Option) (fun a => (pick a).map some) = some (Id.run (e.replaceM pick)) := by
  induction e using inductParts with
  | step e ih =>
    cases hpick : pick e with
    | some r =>
      rw [replaceM_of_some hpick]
      exact replaceM_of_some (congrArg (Option.map some) hpick)
    | none =>
      rw [replaceM_of_none hpick]
      refine Eq.trans (replaceM_of_none (congrArg (Option.map some) hpick)) ?_
      rw [mapM_congr ih]
      simp [← Option.pure_def, List.mapM_pure]

theorem replaceColumnsM_some (f : ColumnRef → Nat → Expr) (e : Expr) :
    e.replaceColumnsM (fun ref p => some (f ref p)) = some (e.replaceColumns f) := by
  refine Eq.trans ?_ (replaceM_some _ e)
  unfold replaceColumnsM
  congr 1
  funext a
  cases a <;> rfl

/-- Columns are replaced when there is a replacement for each. -/
theorem isSome_replaceColumnsM {f : ColumnRef → Nat → Option Expr} {e : Expr} :
    (e.replaceColumnsM f).isSome ↔ ∀ c ∈ e.columns, (f c.1 c.2).isSome := by
  induction e using inductColumns with
  | column ref p =>
    rw [columns, List.forall_mem_singleton]
    rfl
  | other e hcol ih =>
    rw [replaceColumnsM_of_parts hcol, columns_of_parts hcol, Option.map_eq_map, Option.isSome_map,
      isSome_mapM, List.forall_mem_flatMap]
    exact forall₂_congr ih

namespace Congruent

variable {Q R : Expr → Expr → Prop}

/-! ### Relations in terms of the parts -/

/-- Expressions with related parts are related. -/
theorem withParts (h : Congruent Q) {e : Expr} {es : List Expr}
    (column : ∀ ref, e.column? = some ref → Q e e) (hes : List.Forall₂ Q e.parts es) :
    Q e (e.withParts es) := by
  match e, es, hes with
  | .column ref p, [], _ => exact column ref rfl
  | .constant text p, [], _ => exact h.constant text p
  | .queryRef text p, [], _ => exact h.queryRef text p
  | .unary op a p, [_], .cons ha .nil => exact h.unary op p ha
  | .binary op a b p, [_, _], .cons ha (.cons hb .nil) => exact h.binary op p ha hb
  | .call name as p, es, hes => exact h.call name p hes
  | .inList a as p, _ :: _, .cons ha has => exact h.inList p ha has

theorem of_withParts (h : ∀ e es, e.column? = none → List.Forall₂ Q e.parts es → Q e (e.withParts es)) :
    Congruent Q where
  constant _ _ := h _ [] rfl .nil
  queryRef _ _ := h _ [] rfl .nil
  unary op p _ a' ha := h (.unary op _ p) [a'] rfl (.cons ha .nil)
  binary op p _ a' _ b' ha hb := h (.binary op _ _ p) [a', b'] rfl (.cons ha (.cons hb .nil))
  call name p _ es' hes := h (.call name _ p) es' rfl hes
  inList p _ a' _ es' ha hes := h (.inList _ _ p) (a' :: es') rfl (.cons ha hes)

/-! ### Relations made of others -/

theorem flip (h : Congruent Q) : Congruent fun e e' => Q e' e where
  constant := h.constant
  queryRef := h.queryRef
  unary op p _ _ ha := h.unary op p ha
  binary op p _ _ _ _ ha hb := h.binary op p ha hb
  call name p _ _ hes := h.call name p hes.flip
  inList p _ _ _ _ ha hes := h.inList p ha hes.flip

theorem comp (hQ : Congruent Q) (hR : Congruent R) : Congruent fun e e' => ∃ x, R x e' ∧ Q e x := by
  have hlist : ∀ {es es' : List Expr}, List.Forall₂ (fun e e' => ∃ x, R x e' ∧ Q e x) es es' →
      ∃ xs, List.Forall₂ R xs es' ∧ List.Forall₂ Q es xs := by
    intro es es' h
    induction h with
    | nil => exact ⟨[], .nil, .nil⟩
    | cons he _ ih =>
      obtain ⟨x, hR, hQ⟩ := he
      obtain ⟨xs, hRs, hQs⟩ := ih
      exact ⟨x :: xs, .cons hR hRs, .cons hQ hQs⟩
  refine of_withParts fun e es hcol hes => ?_
  obtain ⟨xs, hxs, hexs⟩ := hlist hes
  have hparts := hexs.length_eq
  refine ⟨e.withParts xs, ?_, hQ.withParts (by simp [hcol]) hexs⟩
  rw [← withParts_withParts hparts hxs.length_eq]
  exact hR.withParts (by simp [hcol]) (by rwa [parts_withParts hparts])

/-- An expression is related to itself if its references are. -/
theorem self (hQ : Congruent Q) {e : Expr} (h : ∀ c ∈ e.columns, Q (.column c.1 c.2) (.column c.1 c.2)) :
    Q e e := by
  induction e using inductParts with
  | step e ih =>
    have hparts : List.Forall₂ Q e.parts e.parts := List.forall₂_same.mpr fun a ha =>
      ih a ha fun c hc => h c (columns_subset_of_mem_parts ha hc)
    rw [← withParts_parts e]
    refine (withParts_parts e).symm ▸ hQ.withParts (fun ref hcol => ?_) hparts
    obtain ⟨p, rfl⟩ := column?_eq_some.mp hcol
    exact h (ref, p) List.mem_cons_self

/-- Expressions that differ in positions only are put together of such ones. -/
theorem erase : Congruent fun e e' => e'.erase = e.erase := by
  refine of_withParts fun e es _ hes => ?_
  rw [erase_withParts, map_eq_map_of_forall₂ hes, ← parts_erase, withParts_parts]

/-- Expressions in which the replacement of columns comes to the same are put together of
such ones. -/
theorem replacesAlike (f g : ColumnRef → Nat → Option Expr) :
    Congruent fun e e' => e'.replaceColumnsM g = e.replaceColumnsM f := by
  refine of_withParts fun e es hcol hes => ?_
  have hmapM : es.mapM (replaceColumnsM g) = e.parts.mapM (replaceColumnsM f) := by
    have hmap := map_eq_map_of_forall₂ hes
    simpa [List.mapM_map] using congrArg (List.mapM id) hmap
  rw [replaceColumnsM_of_parts hcol, replaceColumnsM_of_parts (by simp [hcol]),
    parts_withParts hes.length_eq, hmapM]
  refine Option.map_congr fun fs hfs => withParts_withParts hes.length_eq ?_
  exact hes.length_eq.symm.trans (mapM_eq_some_iff.mp hfs).length_eq

/-! ### Replacements that may fail -/

section Option

variable {Q : Expr → Expr → Prop} {pick : Expr → Option (Option Expr)}

/-- What holds of the parts that are replaced, and of the columns that are not, holds of
the whole. -/
theorem of_replaceM (cong : Congruent Q)
    (column : ∀ ref p, pick (.column ref p) = none → Q (.column ref p) (.column ref p))
    (picked : ∀ a a', pick a = some (some a') → Q a a') {e e' : Expr}
    (h : e.replaceM pick = some e') : Q e e' := by
  induction e using inductParts generalizing e' with
  | step e ih =>
    cases hpick : pick e with
    | some r =>
      rw [replaceM_of_some hpick] at h
      exact picked e e' (h ▸ hpick)
    | none =>
      rw [replaceM_of_none hpick] at h
      obtain ⟨es, hes, rfl⟩ := Option.map_eq_some_iff.mp h
      have hparts := (List.forall₂_and_left _ _).mpr ⟨ih, mapM_eq_some_iff.mp hes⟩
      refine cong.withParts (fun ref hcol => ?_) (hparts.imp fun _ _ h => h.1 h.2)
      obtain ⟨p, rfl⟩ := column?_eq_some.mp hcol
      exact column ref p hpick

/-- What holds of the columns that are replaced holds of the whole. -/
theorem of_replaceColumnsM {f : ColumnRef → Nat → Option Expr} (cong : Congruent Q)
    (replaced : ∀ ref p e', f ref p = some e' → Q (.column ref p) e') {e e' : Expr}
    (h : e.replaceColumnsM f = some e') : Q e e' := by
  refine of_replaceM cong (fun _ _ h => by cases h) (fun a a' ha => ?_) h
  cases a with
  | column ref p => exact replaced ref p a' (Option.some.inj ha)
  | _ => cases ha

end Option

/-! ### Replacements that change a state -/

section State

variable {σ : Type} {G : Growth σ} {P : σ → Prop} {Q : σ → Expr → Expr → Prop}
  {pick : Expr → Option (StateM σ Expr)}

/-- What holds of the parts that are replaced, and of the columns that are not, holds of
the whole in the state at the end. All of this is asked of the expressions in `D` only, which
has the parts of those that are not replaced. -/
theorem replaceM_ensures {D : Expr → Prop} (hP : G.Lasting P)
    (hQ : ∀ a a', G.Lasting fun s => Q s a a') (cong : ∀ s, Congruent (Q s))
    (parts : ∀ a, pick a = none → D a → ∀ b ∈ a.parts, D b)
    (column : ∀ s ref p, pick (.column ref p) = none → D (.column ref p) →
      Q s (.column ref p) (.column ref p))
    (picked : ∀ a act, pick a = some act → D a → G.Ensures P act fun s a' => Q s a a')
    {e : Expr} (he : D e) : G.Ensures P (e.replaceM pick) fun s e' => Q s e e' := by
  induction e using inductParts with
  | step e ih =>
    cases hpick : pick e with
    | some act =>
      rw [replaceM_of_some hpick]
      exact picked e act hpick he
    | none =>
      rw [replaceM_of_none hpick]
      have hparts := Growth.Ensures.mapM hP hQ fun a ha => ih a ha (parts e hpick he a ha)
      refine hparts.map fun s es hes => (cong s).withParts (fun ref hcol => ?_) hes
      obtain ⟨p, rfl⟩ := column?_eq_some.mp hcol
      exact column s ref p hpick he

/-- What holds of the columns that are replaced holds of the whole, in the state at the
end. -/
theorem replaceColumnsM_ensures {f : ColumnRef → Nat → StateM σ Expr} (hP : G.Lasting P)
    (hQ : ∀ a a', G.Lasting fun s => Q s a a') (cong : ∀ s, Congruent (Q s)) {e : Expr}
    (replaced : ∀ c ∈ e.columns, G.Ensures P (f c.1 c.2) fun s e' => Q s (.column c.1 c.2) e') :
    G.Ensures P (e.replaceColumnsM f) fun s e' => Q s e e' := by
  refine replaceM_ensures (D := fun a => a.columns ⊆ e.columns) hP hQ cong
    (fun a _ ha b hb => List.Subset.trans (columns_subset_of_mem_parts hb) ha) (fun _ _ _ h => by cases h)
    (fun a act hact ha => ?_) (List.Subset.refl _)
  cases a with
  | column ref p => exact Option.some.inj hact ▸ replaced (ref, p) (ha List.mem_cons_self)
  | _ => cases hact

end State

/-- The relation that holds of all expressions. -/
theorem all : Congruent fun _ _ => True :=
  ⟨fun _ _ => trivial, fun _ _ => trivial, fun _ _ _ _ _ => trivial, fun _ _ _ _ _ _ _ _ => trivial,
    fun _ _ _ _ _ => trivial, fun _ _ _ _ _ _ _ => trivial⟩

end Congruent

section Invariant

variable {σ : Type} {I : σ → Prop}

/-- A replacement of parts keeps what each replacement of a part keeps. -/
theorem replaceM_keeps {pick : Expr → Option (StateM σ Expr)}
    (h : ∀ a act, pick a = some act → Keeps I act fun _ => True) (e : Expr) :
    Keeps I (e.replaceM pick) fun _ => True :=
  Keeps.iff_ensures.mpr <| Congruent.replaceM_ensures (D := fun _ => True) (Q := fun _ _ _ => True)
    (fun _ h => h) (fun _ _ _ _ _ h => h) (fun _ => Congruent.all) (fun _ _ _ _ _ => trivial)
    (fun _ _ _ _ _ => trivial) (fun a act hact _ => Keeps.iff_ensures.mp (h a act hact)) trivial

theorem replaceColumnsM_keeps {f : ColumnRef → Nat → StateM σ Expr}
    (h : ∀ ref p, Keeps I (f ref p) fun _ => True) (e : Expr) :
    Keeps I (e.replaceColumnsM f) fun _ => True := by
  refine replaceM_keeps (fun a act hact => ?_) e
  cases a with
  | column ref p => exact Option.some.inj hact ▸ h ref p
  | _ => cases hact

end Invariant

end SeriesQuery.Expr
