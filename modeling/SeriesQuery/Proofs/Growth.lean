import Mathlib.Data.List.Forall2

/-!
States that only grow.

A program over a state may add to it but never takes anything back, so what its answers
say of the state remains true. `Growth` names the sound states and the extensions of a
state; `Growth.Ensures` is what a program does from every sound state, with a rule for
each way of putting programs together.
-/

namespace SeriesQuery

theorem exists_mem_of_forall₂ {α β : Type} {R : α → β → Prop} {as : List α} {bs : List β}
    (h : List.Forall₂ R as bs) {a : α} (ha : a ∈ as) : ∃ b ∈ bs, R a b := by
  induction h with
  | nil => cases ha
  | cons hR _ ih =>
    rcases List.mem_cons.mp ha with rfl | ha
    · exact ⟨_, List.mem_cons_self, hR⟩
    · obtain ⟨b, hb, hab⟩ := ih ha
      exact ⟨b, List.mem_cons_of_mem _ hb, hab⟩

theorem forall₂_comp {α β γ : Type} {R : α → β → Prop} {S : β → γ → Prop} {T : α → γ → Prop}
    {as : List α} {bs : List β} {cs : List γ} (hR : List.Forall₂ R as bs)
    (hS : List.Forall₂ S bs cs) (hT : ∀ a b c, R a b → S b c → T a c) : List.Forall₂ T as cs := by
  induction hR generalizing cs with
  | nil =>
    cases hS
    exact .nil
  | cons hab _ ih =>
    cases hS with
    | cons hbc hS => exact .cons (hT _ _ _ hab hbc) (ih hS)

/-- The first element is turned into its answer, and the others from the state that it leaves. -/
theorem mapM_cons_apply {σ α β : Type} (f : α → StateM σ β) (a : α) (as : List α) (s : σ) :
    (a :: as).mapM f s =
      ((f a s).1 :: (as.mapM f (f a s).2).1, (as.mapM f (f a s).2).2) := by
  rw [List.mapM_cons]
  rfl

/-- Which states are sound, and which states extend which. -/
structure Growth (σ : Type) where
  Sound : σ → Prop
  Extends : σ → σ → Prop
  refl : ∀ s, Extends s s
  trans : ∀ {s t u}, Extends s t → Extends t u → Extends s u

namespace Growth

variable {σ α β : Type} (G : Growth σ)

/-- From a sound state in which `P` holds, a program leads to a sound state that extends
it, where `R` holds of its answer. -/
def Ensures (P : σ → Prop) (x : StateM σ α) (R : σ → α → Prop) : Prop :=
  ∀ s, G.Sound s → P s → G.Sound (x s).2 ∧ G.Extends s (x s).2 ∧ R (x s).2 (x s).1

/-- What holds of a state holds of its extensions. -/
def Lasting (R : σ → Prop) : Prop :=
  ∀ {s t}, G.Extends s t → R s → R t

variable {G} {P : σ → Prop} {x : StateM σ α} {R : σ → α → Prop} {S : σ → β → Prop}

theorem Lasting.and {T U : σ → Prop} (hT : G.Lasting T) (hU : G.Lasting U) :
    G.Lasting fun s => T s ∧ U s :=
  fun hext h => ⟨hT hext h.1, hU hext h.2⟩

namespace Ensures

theorem mono {R' : σ → α → Prop} (h : G.Ensures P x R) (himp : ∀ s a, R s a → R' s a) :
    G.Ensures P x R' := by
  intro s hs hP
  obtain ⟨hsound, hext, hR⟩ := h s hs hP
  exact ⟨hsound, hext, himp _ _ hR⟩

/-- What is asked of the start may be more. -/
theorem pre {P' : σ → Prop} (h : G.Ensures P x R) (himp : ∀ s, P' s → P s) :
    G.Ensures P' x R :=
  fun s hs hP => h s hs (himp s hP)

theorem pure {a : α} (h : ∀ s, G.Sound s → P s → R s a) : G.Ensures P (Pure.pure a) R :=
  fun s hs hP => ⟨hs, G.refl s, h s hs hP⟩

/-- The second program starts where the first one ends. -/
theorem bind {f : α → StateM σ β} (hP : G.Lasting P) (hx : G.Ensures P x R)
    (hf : ∀ a, G.Ensures (fun s => P s ∧ R s a) (f a) S) : G.Ensures P (x >>= f) S := by
  intro s hs hPs
  obtain ⟨hs', hext, hR⟩ := hx s hs hPs
  obtain ⟨hs'', hext', hS⟩ := hf (x s).1 (x s).2 hs' ⟨hP hext hPs, hR⟩
  exact ⟨hs'', G.trans hext hext', hS⟩

theorem map {f : α → β} (hx : G.Ensures P x R) (hf : ∀ s a, R s a → S s (f a)) :
    G.Ensures P (f <$> x) S := by
  intro s hs hP
  obtain ⟨hs', hext, hR⟩ := hx s hs hP
  exact ⟨hs', hext, hf _ _ hR⟩

/-- What lasts from before the program is still there at the end. -/
theorem keeping {T : σ → Prop} (hT : G.Lasting T) (h : G.Ensures P x R) :
    G.Ensures (fun s => P s ∧ T s) x fun s a => T s ∧ R s a := by
  intro s hs hPT
  obtain ⟨hs', hext, hR⟩ := h s hs hPT.1
  exact ⟨hs', hext, hT hext hPT.2, hR⟩

/-- What the elements of a list are turned into, one after the other. -/
theorem mapM {f : α → StateM σ β} {T : σ → α → β → Prop} (hP : G.Lasting P)
    (hT : ∀ a b, G.Lasting fun s => T s a b) {as : List α}
    (hf : ∀ a ∈ as, G.Ensures P (f a) fun s b => T s a b) :
    G.Ensures P (as.mapM f) fun s bs => List.Forall₂ (T s) as bs := by
  induction as with
  | nil =>
    rw [List.mapM_nil]
    exact pure fun _ _ _ => .nil
  | cons a as ih =>
    rw [List.mapM_cons]
    refine bind hP (hf a List.mem_cons_self) fun b => ?_
    exact bind (hP.and (hT a b)) (keeping (hT a b) (ih fun a' ha' => hf a' (List.mem_cons_of_mem _ ha')))
      fun bs => pure fun s _ h => .cons h.2.1 h.2.2

end Ensures

end Growth

/-! ### Invariants -/

/-- A program keeps an invariant of its state, and `R` holds of its answers. -/
def Keeps {σ α : Type} (I : σ → Prop) (x : StateM σ α) (R : α → Prop) : Prop :=
  ∀ s, I s → I (x s).2 ∧ R (x s).1

/-- States with an invariant, whatever they grow into. -/
def Growth.ofInvariant {σ : Type} (I : σ → Prop) : Growth σ where
  Sound := I
  Extends _ _ := True
  refl _ := trivial
  trans _ _ := trivial

namespace Keeps

variable {σ α β : Type} {I : σ → Prop} {x : StateM σ α} {R : α → Prop} {S : β → Prop}

theorem mono {R' : α → Prop} (h : Keeps I x R) (himp : ∀ a, R a → R' a) : Keeps I x R' :=
  fun s hs => ⟨(h s hs).1, himp _ (h s hs).2⟩

theorem pure {a : α} (h : R a) : Keeps I (Pure.pure a) R :=
  fun _ hs => ⟨hs, h⟩

theorem bind {f : α → StateM σ β} (hx : Keeps I x R) (hf : ∀ a, R a → Keeps I (f a) S) :
    Keeps I (x >>= f) S :=
  fun s hs => hf _ (hx s hs).2 _ (hx s hs).1

theorem map {f : α → β} (hx : Keeps I x R) (hf : ∀ a, R a → S (f a)) : Keeps I (f <$> x) S :=
  fun s hs => ⟨(hx s hs).1, hf _ (hx s hs).2⟩

theorem iff_ensures : Keeps I x R ↔
    (Growth.ofInvariant I).Ensures (fun _ => True) x fun _ a => R a :=
  ⟨fun h s hs _ => ⟨(h s hs).1, trivial, (h s hs).2⟩, fun h s hs =>
    ⟨(h s hs trivial).1, (h s hs trivial).2.2⟩⟩

/-- What the elements of a list are turned into, one after the other. -/
theorem mapM {f : α → StateM σ β} {T : α → β → Prop} {as : List α}
    (hf : ∀ a ∈ as, Keeps I (f a) (T a)) : Keeps I (as.mapM f) (List.Forall₂ T as) :=
  iff_ensures.mpr <| Growth.Ensures.mapM (fun _ h => h) (fun _ _ _ _ _ h => h) fun a ha =>
    iff_ensures.mp (hf a ha)

end Keeps

end SeriesQuery
