import SeriesQuery.Proofs.Select.Apart

/-!
What a layer is asked for by a text.

An expression is forwarded to the first column of a layer that is spelled like it, whatever that
column is. What an expression stands for that is carried through a layer is therefore told by the
texts of its references (`Layer.carry_readsAlike`), and which column has a text first by the order in
which a program brings expressions to the layer (`Layer.Brings`).
-/

namespace SeriesQuery

/-- The references of an expression, each as an expression. -/
def Expr.columnExprs (e : Expr) : List Expr :=
  e.columns.map fun c => .column c.1 c.2

namespace Layer

/-- The first expression of a layer that is spelled so. -/
def spelled? (layer : Layer) (text : String) : Option Expr :=
  (layer.columns.map PublishedColumn.expr).find? fun e => e.text == text

theorem spelled?_of_prefix {layer more : Layer} (h : layer.columns <+: more.columns) {text : String}
    {e : Expr} (he : layer.spelled? text = some e) : more.spelled? text = some e := by
  obtain ⟨rest, hrest⟩ := h
  rw [spelled?, ← hrest, List.map_append, List.find?_append]
  exact Option.or_eq_some_iff.mpr (.inl he)

theorem find?_sameText (layer : Layer) (e : Expr) :
    (layer.columns.find? fun c => c.expr.sameText e).map PublishedColumn.expr =
      layer.spelled? e.text := by
  rw [spelled?, List.find?_map]
  rfl

/-! ### What is read where texts decide -/

/-- What `e'` refers to in a layer is `e` with the first column that is spelled like it in the place
of every reference. -/
def ReadsAlike (layer : Layer) (e e' : Expr) : Prop :=
  ∃ x, layer.Reads x e' ∧ e.substitute? (fun ref => layer.spelled? ref.text) = some x

theorem readsAlike_congruent (layer : Layer) : Expr.Congruent layer.ReadsAlike :=
  (Expr.substitute?_congruent _).flip.comp (Projection.reads_congruent _)

theorem readsAlike_lasting {known : ColumnRef → Prop} (e e' : Expr) :
    (growth known).Lasting fun layer => layer.ReadsAlike e e' := by
  rintro s t hext ⟨x, hread, hx⟩
  exact ⟨x, reads_lasting _ _ hext hread,
    Expr.substitute?_mono (fun ref _ h => spelled?_of_prefix hext.1 h) hx⟩

theorem forward_readsAlike (ref : ColumnRef) (p : Nat) :
    (growth fun _ => False).Ensures (fun _ => True) (forward (.column ref p))
      fun layer => layer.ReadsAlike (.column ref p) := by
  intro layer hlayer _
  have hfound := layer.find?_sameText (.column ref p)
  rw [forward_eq]
  cases hfind : layer.columns.find? fun c => c.expr.sameText (.column ref p) with
  | some c =>
    rw [hfind] at hfound
    exact ⟨hlayer, (growth _).refl layer, c.expr,
      hlayer.reads_of_mem (List.mem_of_find?_eq_some hfind) p, hfound.symm⟩
  | none =>
    rw [hfind] at hfound
    obtain ⟨hsound, hext, hread⟩ := publish_ensures ref.name (Expr.column ref p).honest_unknown layer
      hlayer trivial
    refine ⟨hsound, hext, .column ref p, hread, ?_⟩
    change ((layer.columns ++ [_]).map PublishedColumn.expr).find? _ = _
    rw [List.map_append, List.find?_append]
    exact Option.or_eq_some_iff.mpr (.inr ⟨hfound.symm, by simp [Expr.text]⟩)

/-- **What is carried through a layer is found by its texts.** -/
theorem carry_readsAlike (e : Expr) :
    (growth fun _ => False).Ensures (fun _ => True) (carry e) fun layer => layer.ReadsAlike e :=
  Expr.Congruent.replaceColumnsM_ensures (fun _ _ => trivial) readsAlike_lasting
    readsAlike_congruent fun c _ => forward_readsAlike c.1 c.2

/-! ### What a program brings to a layer -/

/-- A program brings expressions to a layer, in this order: they are found there under their texts,
after what was there before. -/
def Brings {α : Type} (x : StateM Layer α) (es : List Expr) : Prop :=
  ∀ layer text, (x layer).2.spelled? text =
    (layer.spelled? text).or (es.find? fun e => e.text == text)

namespace Brings

variable {α β : Type} {x : StateM Layer α} {es : List Expr}

theorem pure (a : α) : Brings (Pure.pure a) [] := by
  intro layer text
  exact (Option.or_none).symm

theorem bind {f : α → StateM Layer β} {more : List Expr} (hx : Brings x es)
    (hf : ∀ a, Brings (f a) more) : Brings (x >>= f) (es ++ more) := by
  intro layer text
  rw [List.find?_append, ← Option.or_assoc, ← hx layer text]
  exact hf (x layer).1 (x layer).2 text

theorem map (hx : Brings x es) (f : α → β) : Brings (f <$> x) es :=
  hx

theorem mapM {as : List α} {f : α → StateM Layer β} {brought : α → List Expr}
    (hf : ∀ a ∈ as, Brings (f a) (brought a)) : Brings (as.mapM f) (as.flatMap brought) := by
  induction as with
  | nil =>
    rw [List.mapM_nil]
    exact pure []
  | cons a as ih =>
    rw [List.mapM_cons, List.flatMap_cons]
    refine bind (hf a List.mem_cons_self) fun b => ?_
    have hrest := ih fun a' ha' => hf a' (List.mem_cons_of_mem _ ha')
    exact hrest.map fun bs => b :: bs

end Brings

theorem publish_brings (base : String) (e : Expr) : Brings (publish base e) [e] := by
  intro layer text
  change ((layer.columns ++ [_]).map PublishedColumn.expr).find? _ = _
  rw [List.map_append, List.find?_append]
  rfl

theorem forward_brings (e : Expr) : Brings (forward e) [e] := by
  intro layer text
  have hfound := layer.find?_sameText e
  rw [forward_eq]
  cases hfind : layer.columns.find? fun c => c.expr.sameText e with
  | none => exact publish_brings _ e layer text
  | some c =>
    rw [hfind] at hfound
    change layer.spelled? text = _
    -- the layer has the text of `e` already
    by_cases htext : e.text = text
    · rw [← htext, ← hfound]
      rfl
    · simp [htext]

/-- An expression brings its references, from left to right. -/
theorem carry_brings (e : Expr) : Brings (carry e) e.columnExprs := by
  induction e using Expr.inductColumns with
  | column ref p => exact forward_brings (.column ref p)
  | other e hcol ih =>
    rw [carry, Expr.replaceColumnsM_of_parts hcol, Expr.columnExprs, Expr.columns_of_parts hcol,
      List.map_flatMap]
    exact (Brings.mapM ih).map e.withParts

/-- A window brings the references of its expressions. -/
theorem carryWindow_brings (w : Window) :
    Brings (carryWindow w) ((Select.windowExprs w).flatMap Expr.columnExprs) := by
  have horder : Brings (w.orderBy.mapM carryOrderItem)
      (w.orderBy.flatMap fun o => o.expr.columnExprs) :=
    .mapM fun o _ => (carry_brings o.expr).map fun e => { o with expr := e }
  rw [Select.windowExprs, List.flatMap_append, List.flatMap_map]
  refine .bind (.mapM fun e _ => carry_brings e) fun partitionBy => ?_
  exact horder.map fun orderBy => Window.mk partitionBy orderBy

end Layer

end SeriesQuery
