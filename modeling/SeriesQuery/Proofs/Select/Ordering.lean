import SeriesQuery.Proofs.Select.Hidden

/-!
Binding the columns of an `order by`.

The columns are bound from left to right, and every one of them to a name that means what the
column means, whatever has been bound before (`Clause.orderColumns_spec`).
-/

namespace SeriesQuery

open Layers

/-- A reference that is read from a text and that no computed column is spelled like. -/
def ColumnRef.IsPlain (shown : List PublishedColumn) (ref : ColumnRef) : Prop :=
  ref.Written ∧ ∀ c ∈ shown, c.expr.column? = none → c.expr.text ≠ ref.text

theorem ColumnRef.spelledApart_isPlain (shown : List PublishedColumn) :
    SpelledApart (ColumnRef.IsPlain shown) :=
  ColumnRef.spelledApart_written.mono fun _ h => h.1

namespace Clause

/-- Layers to which `order by` columns can be bound: they offer their items and hidden columns,
and carry them if they can carry more columns. -/
structure Binds (stays : String × Expr → Prop) (items : List (String × Expr))
    (shown : List PublishedColumn) (hidden : List (ColumnRef × String)) (l : Layers) : Prop where
  offers : Offers items hidden l
  carries : (l.combinesRows || l.outer.isSome) = false →
    Carries (ColumnRef.IsPlain shown) stays items shown hidden l

/-- What is asked of a reference that names no item: the items do not stand in its way, and no
column is spelled like it that it does not lead to. -/
structure Orderable (scope : Scope) (items : List (String × Expr)) (shown : List PublishedColumn)
    (naming : Option Layer) (ref : ColumnRef) : Prop where
  unambiguous : scope.Unambiguous items ref
  computed : ∀ c ∈ shown, c.expr.column? = none → c.expr.text ≠ ref.text
  naming : NamesApart scope naming ref

/-- A name that a number may have been added to does not stand in the way of a reference. -/
def LeavesFree (scope : Scope) (items : List (String × Expr)) (other ref : ColumnRef) : Prop :=
  itemNamed? items ref = none → ∀ name, AliasSet.MadeOf other.name name →
    Ascii.same name ref.name = true → scope.IsColumn (.column other 0) ref

/-! ### One column -/

theorem orderColumn_column {scope : Scope} {e bound : Expr} {l t : Layers}
    (h : orderColumn scope e l = .ok (bound, t)) : ∃ ref p, e = .column ref p := by
  cases hcolumn : e.column? with
  | none => simp [orderColumn, hcolumn] at h
  | some ref => exact ⟨ref, Expr.column?_eq_some.mp hcolumn⟩

theorem orderColumn_ok {scope : Scope} {ref : ColumnRef} {p : Nat} {bound : Expr} {l t : Layers}
    (h : orderColumn scope (.column ref p) l = .ok (bound, t)) :
    ∃ name, bound = Layer.reference name p ∧
      (orderAlias? l scope ref = some name ∧ t = l ∨
        orderAlias? l scope ref = none ∧ (∃ source, scope.LeadsTo ref source) ∧
          l.publishHidden (.column ref p) = (some name, t)) := by
  unfold orderColumn at h
  simp only [Expr.column?, Expr.position] at h
  split at h
  · rename_i name halias
    cases h
    exact ⟨name, rfl, .inl ⟨halias, rfl⟩⟩
  · rename_i halias
    split at h
    · cases h
    · rename_i resolved hresolved
      split at h
      · rename_i name more hpublish
        cases h
        exact ⟨name, rfl, .inr ⟨halias, ⟨_, Scope.leadsTo_of_resolve hresolved⟩, hpublish⟩⟩
      · cases h

/-- A bound column leaves what hidden columns of the scope leave. -/
theorem orderColumn_keeps {P : Layers → Prop} {scope : Scope}
    (hhidden : ∀ {l : Layers} {ref} (p), (∃ source, scope.LeadsTo ref source) → P l →
      P (l.publishHidden (.column ref p)).2)
    {e bound : Expr} {l t : Layers} (hl : P l) (h : orderColumn scope e l = .ok (bound, t)) : P t := by
  obtain ⟨ref, p, rfl⟩ := orderColumn_column h
  obtain ⟨name, -, ⟨-, rfl⟩ | ⟨-, hleads, hpublish⟩⟩ := orderColumn_ok h
  · exact hl
  · have hpublished := hhidden p hleads hl
    rwa [hpublish] at hpublished

theorem orderColumn_within {scope : Scope} {e bound : Expr} {l t : Layers}
    (h : orderColumn scope e l = .ok (bound, t)) : l.Within t :=
  orderColumn_keeps (P := l.Within) (fun _ _ hl => hl.trans (publishHidden_within _ _)) (.refl l) h

section

variable {scope : Scope} {stays : String × Expr → Prop} {items : List (String × Expr)}
  {shown : List PublishedColumn} {hidden : List (ColumnRef × String)}

/-- A column is bound to a name that means what the column means; a column that is hidden for it
has its name or one made of it. -/
theorem orderColumn_spec {l t : Layers} (hbinds : Binds stays items shown hidden l)
    (hitems : scope.Resolves items) {ref : ColumnRef} {p : Nat} {bound : Expr}
    (href : itemNamed? items ref = none → Orderable scope items shown l.naming ref)
    (hhidden : itemNamed? items ref = none → ∀ column ∈ hidden,
      Ascii.same column.2 ref.name = true → scope.IsColumn (.column column.1 0) ref)
    (hcopy : t.wrap = true → l.naming = none → l.main.computes = true →
      Copies (ColumnRef.IsPlain shown) stays items shown)
    (h : orderColumn scope (.column ref p) l = .ok (bound, t)) :
    ∃ name more, bound = Layer.reference name p ∧ Binds stays items shown (hidden ++ more) t ∧
      Means scope items (hidden ++ more) ref name ∧
        ∀ column ∈ more, column.1 = ref ∧ AliasSet.MadeOf ref.name column.2 := by
  obtain ⟨name, rfl, ⟨halias, rfl⟩ | ⟨hnone, -, hpublish⟩⟩ := orderColumn_ok h
  · have hmeans := hbinds.offers.means_of_orderAlias hitems (fun h => (href h).unambiguous) hhidden
      halias
    exact ⟨name, [], rfl, by rwa [List.append_nil], by rwa [List.append_nil],
      fun _ h => (List.not_mem_nil h).elim⟩
  · obtain ⟨hitem, hwritten⟩ := hbinds.offers.of_orderAlias_none hnone
    have horderable := href hitem
    have hplain : (l.combinesRows || l.outer.isSome) = false := by
      refine Bool.eq_false_iff.mpr fun hcombines => ?_
      rw [publishHidden, if_pos hcombines] at hpublish
      cases hpublish
    have hcarries := hbinds.carries hplain
    have hknown : ColumnRef.IsPlain shown ref :=
      ⟨horderable.unambiguous.undotted.written, horderable.computed⟩
    have hmeans : ∀ {columns : List (ColumnRef × String)},
        ((∃ item ∈ items, item.1 = name ∧ scope.IsColumn item.2 ref) ∨
          ∃ column ∈ columns, column.2 = name ∧ scope.IsColumn (.column column.1 0) ref) →
        Means scope items columns ref name := by
      intro columns h
      unfold Means
      rwa [hitem]
    rcases hcarries.publishHidden hbinds.offers (ColumnRef.spelledApart_isPlain shown) hknown
      hpublish hcopy with ⟨rfl, c, hc, rfl, htext⟩ | ⟨hcarried, hoffered, hmade⟩
    · refine ⟨c.1, [], rfl, by rwa [List.append_nil], ?_, fun _ h => (List.not_mem_nil h).elim⟩
      rw [List.append_nil]
      exact hmeans (hcarries.means_of_text (ColumnRef.spelledApart_isPlain shown) hknown
        horderable.unambiguous.leads horderable.computed hwritten horderable.naming hc htext)
    · obtain ⟨source, hsource⟩ := horderable.unambiguous.leads
      refine ⟨name, [(ref, name)], rfl, ⟨hoffered, fun _ => hcarried⟩,
        hmeans (.inr ⟨(ref, name), List.mem_append_right _ List.mem_cons_self, rfl, ref, source, rfl,
          Ascii.same_self _, hsource, hsource⟩), fun column hcolumn => ?_⟩
      obtain rfl := List.mem_singleton.mp hcolumn
      exact ⟨rfl, hmade⟩

/-! ### All columns -/

/-- Bound columns leave what hidden columns of the scope leave. -/
theorem orderColumns_keeps {P : Layers → Prop}
    (hhidden : ∀ {l : Layers} {ref} (p), (∃ source, scope.LeadsTo ref source) → P l →
      P (l.publishHidden (.column ref p)).2)
    {orderBy bound : List OrderItem} {l t : Layers} (hl : P l)
    (h : orderColumns scope orderBy l = .ok (bound, t)) : P t := by
  induction orderBy generalizing bound l with
  | nil =>
    cases h
    exact hl
  | cons item orderBy ih =>
    obtain ⟨⟨e, s⟩, hfirst, h⟩ := Except.bind_eq_ok.mp h
    obtain ⟨⟨rest, t'⟩, hrest, h⟩ := Except.bind_eq_ok.mp h
    cases h
    exact ih (orderColumn_keeps hhidden hl hfirst) hrest

theorem orderColumns_within {orderBy bound : List OrderItem} {l t : Layers}
    (h : orderColumns scope orderBy l = .ok (bound, t)) : l.Within t :=
  orderColumns_keeps (P := l.Within) (fun _ _ hl => hl.trans (publishHidden_within _ _)) (.refl l) h

/-- An order leaves what hidden columns of the scope leave, and what does not look at orders. -/
theorem orderLayers_keeps {P : Layers → Prop}
    (hhidden : ∀ {l : Layers} {ref} (p), (∃ source, scope.LeadsTo ref source) → P l →
      P (l.publishHidden (.column ref p)).2)
    (horder : ∀ {l : Layers} (bound), P l → P { l with orderBy := bound }) {maxColumns : Nat}
    {orderBy : List OrderItem} {l t : Layers} (hl : P l)
    (h : orderLayers scope maxColumns orderBy l = .ok t) : P t := by
  unfold orderLayers at h
  split at h
  · cases h
    exact hl
  · obtain ⟨-, -, h⟩ := Except.bind_eq_ok.mp h
    obtain ⟨⟨bound, t'⟩, hbound, h⟩ := Except.bind_eq_ok.mp h
    cases h
    exact horder bound (orderColumns_keeps hhidden hl hbound)

/-- Layers that cannot carry more columns stay as they are. -/
theorem orderColumns_combining {orderBy bound : List OrderItem} {l t : Layers}
    (hcombines : (l.combinesRows || l.outer.isSome) = true)
    (h : orderColumns scope orderBy l = .ok (bound, t)) : t = l := by
  induction orderBy generalizing bound with
  | nil =>
    cases h
    rfl
  | cons item orderBy ih =>
    obtain ⟨⟨e, s⟩, hfirst, h⟩ := Except.bind_eq_ok.mp h
    obtain ⟨⟨rest, t'⟩, hrest, h⟩ := Except.bind_eq_ok.mp h
    cases h
    obtain ⟨ref, p, hexpr⟩ := orderColumn_column hfirst
    rw [hexpr] at hfirst
    obtain ⟨name, -, ⟨-, rfl⟩ | ⟨-, -, hpublish⟩⟩ := orderColumn_ok hfirst
    · exact ih hrest
    · rw [publishHidden, if_pos hcombines] at hpublish
      cases hpublish

/-- An `order by` column that is bound to a name which means what the column means. -/
def IsBound (scope : Scope) (items : List (String × Expr)) (hidden : List (ColumnRef × String))
    (item bound : OrderItem) : Prop :=
  bound.descending = item.descending ∧ ∃ ref p name, item.expr = .column ref p ∧
    bound.expr = Layer.reference name p ∧ Means scope items hidden ref name

theorem orderColumns_spec {orderBy bound : List OrderItem} {l t : Layers}
    (hbinds : Binds stays items shown hidden l) (hitems : scope.Resolves items)
    (hrefs : ∀ item ∈ orderBy, ∀ ref, item.expr.column? = some ref →
      itemNamed? items ref = none → Orderable scope items shown t.naming ref)
    (hapart : orderBy.Pairwise fun other item => ∀ r ∈ other.expr.column?,
      ∀ ref ∈ item.expr.column?, LeavesFree scope items r ref)
    (hhidden : ∀ item ∈ orderBy, ∀ ref, item.expr.column? = some ref →
      itemNamed? items ref = none → ∀ column ∈ hidden, Ascii.same column.2 ref.name = true →
        scope.IsColumn (.column column.1 0) ref)
    (hcopy : t.wrap = true → l.naming = none → l.main.computes = true →
      Copies (ColumnRef.IsPlain shown) stays items shown)
    (h : orderColumns scope orderBy l = .ok (bound, t)) :
    ∃ more, Binds stays items shown (hidden ++ more) t ∧
      List.Forall₂ (IsBound scope items (hidden ++ more)) orderBy bound := by
  induction orderBy generalizing bound l hidden with
  | nil =>
    cases h
    exact ⟨[], by rwa [List.append_nil], .nil⟩
  | cons item orderBy ih =>
    obtain ⟨⟨e, s⟩, hfirst, h⟩ := Except.bind_eq_ok.mp h
    obtain ⟨⟨rest, t'⟩, hrest, h⟩ := Except.bind_eq_ok.mp h
    cases h
    have hwithin := orderColumns_within hrest
    obtain ⟨ref, p, hexpr⟩ := orderColumn_column hfirst
    have hcolumn : item.expr.column? = some ref := by rw [hexpr]; rfl
    obtain ⟨hfirstRefs, hrestRefs⟩ := List.forall_mem_cons.mp hrefs
    obtain ⟨hfirstHidden, hrestHidden⟩ := List.forall_mem_cons.mp hhidden
    obtain ⟨hfirstApart, hrestApart⟩ := List.pairwise_cons.mp hapart
    have hstep := orderColumn_within hfirst
    rw [hexpr] at hfirst
    obtain ⟨name, more, rfl, hs, hmeans, hmade⟩ := orderColumn_spec hbinds hitems
      (fun hnone =>
        let horderable := hfirstRefs ref hcolumn hnone
        ⟨horderable.unambiguous, horderable.computed,
          horderable.naming.of_within (hstep.trans hwithin)⟩)
      (hfirstHidden ref hcolumn) (fun hwrap => hcopy (hwithin.wrap hwrap)) hfirst
    obtain ⟨most, ht, hall⟩ := ih hs hrestRefs hrestApart (fun other hother r hr hnone column hmem hsame => by
      rcases List.mem_append.mp hmem with hmem | hmem
      · exact hrestHidden other hother r hr hnone column hmem hsame
      · obtain ⟨rfl, hname⟩ := hmade column hmem
        exact hfirstApart other hother column.1 hcolumn r hr hnone column.2 hname hsame)
      (fun hwrap hnone hcomputes => hcopy hwrap (hstep.naming_none hnone) (hstep.computes ▸ hcomputes))
      hrest
    refine ⟨more ++ most, by rwa [← List.append_assoc], .cons ⟨rfl, ref, p, name, hexpr, rfl, ?_⟩ ?_⟩
    · rw [← List.append_assoc]
      exact hmeans.append most
    · rwa [← List.append_assoc]

end

end Clause

end SeriesQuery
