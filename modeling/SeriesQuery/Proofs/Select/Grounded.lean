import SeriesQuery.Proofs.Select.Aggregates

/-!
What the lowest layer of a select list selects.

The layers of a select list are put on a row source, and only the lowest of them reads from it. The plain
columns of that layer are references as they are written, so each of them leads to a column of the
sources (`Layers.IsLayout.grounded`), also when columns are hidden behind the list
(`Layers.Grounded.publishHidden`). Of the layers above nothing is said: what they read is published.
-/

namespace SeriesQuery

open Select

/-- The expression is a known reference if it is a plain column. -/
def Expr.PlainIn (known : ColumnRef → Prop) (e : Expr) : Prop :=
  ∀ ref ∈ e.column?, known ref

namespace Expr

variable {known : ColumnRef → Prop} {e : Expr}

theorem PlainIn.of_refersTo (h : e.RefersTo known) : e.PlainIn known := by
  intro ref href
  obtain ⟨p, rfl⟩ := Expr.column?_eq_some.mp href
  exact h (ref, p) List.mem_cons_self

theorem PlainIn.mono {more : ColumnRef → Prop} (h : e.PlainIn known)
    (hmore : ∀ ref, known ref → more ref) : e.PlainIn more :=
  fun ref href => hmore ref (h ref href)

end Expr

namespace Layer

variable {known : ColumnRef → Prop}

/-- Plain columns of the layer are known references. -/
def PlainIn (known : ColumnRef → Prop) (layer : Layer) : Prop :=
  ∀ c ∈ layer.columns, c.expr.PlainIn known

theorem plainIn_empty : Layer.empty.PlainIn known := by
  intro c hc
  cases hc

theorem publish_plainIn (base : String) {e : Expr} (he : e.PlainIn known) :
    Keeps (PlainIn known) (publish base e) fun _ => True :=
  fun _ h => ⟨forall_push (P := fun e => e.PlainIn known) h _ he, trivial⟩

theorem forward_plainIn {e : Expr} (he : e.PlainIn known) :
    Keeps (PlainIn known) (forward e) fun _ => True := by
  intro layer h
  rw [forward_eq]
  split
  · exact ⟨h, trivial⟩
  · exact publish_plainIn _ he layer h

theorem carry_plainIn {e : Expr} (he : e.RefersTo known) :
    Keeps (PlainIn known) (carry e) fun _ => True :=
  Keeps.iff_ensures.mpr <| Expr.Congruent.replaceColumnsM_ensures (Q := fun _ _ _ => True)
    (fun _ h => h) (fun _ _ _ _ _ h => h) (fun _ => Expr.Congruent.all) fun c hc =>
      Keeps.iff_ensures.mp (forward_plainIn (.of_refersTo
        (List.forall_mem_singleton.mpr (he c hc))))

/-- An expression that is carried through a layer, if there is one, leaves it one. -/
theorem carryThrough_plainIn {layer : Option Layer} (h : ∀ l ∈ layer, l.PlainIn known) {e : Expr}
    (he : e.RefersTo known) :
    (∀ l ∈ (carryThrough layer e).2, l.PlainIn known) ∧
      ((carryThrough layer e).2 = none → layer = none ∧ (carryThrough layer e).1 = e) := by
  cases layer with
  | none => exact ⟨h, fun _ => ⟨rfl, rfl⟩⟩
  | some layer =>
    refine ⟨?_, fun hnone => by cases hnone⟩
    rintro l ⟨⟩
    exact (carry_plainIn he layer (h layer rfl)).1

theorem PublishesOnly.plainIn {layer : Layer} (h : layer.PublishesOnly known) :
    layer.PlainIn known := by
  intro c hc ref href
  obtain ⟨ref', p, hexpr, hknown⟩ := h c hc
  rw [hexpr] at href
  cases href
  exact hknown

end Layer

namespace Select

variable {known : ColumnRef → Prop}

/-! ### Groups -/

/-- Plain columns of the input of the groups are known references; the groups are their own input if
there is no layer for it. -/
structure Grouping.PlainIn (known : ColumnRef → Prop) (g : Grouping) : Prop where
  inner : ∀ layer ∈ g.inner, layer.PlainIn known
  main : g.inner = none → ∀ c ∈ g.main, c.expr.PlainIn known

/-- An expression is carried into the groups. -/
theorem Grouping.PlainIn.carryInto {g : Grouping} (h : g.PlainIn known) {e : Expr}
    (he : e.RefersTo known) (aliases : AliasSet) (name : String) :
    Grouping.PlainIn known ⟨aliases, (Layer.carryThrough g.inner e).2,
      g.main ++ [⟨name, (Layer.carryThrough g.inner e).1⟩]⟩ := by
  obtain ⟨hinner, hnone⟩ := Layer.carryThrough_plainIn h.inner he
  refine ⟨hinner, fun hlayer => ?_⟩
  obtain ⟨habsent, hsame⟩ := hnone hlayer
  rw [hsame]
  exact forall_push (P := fun e => e.PlainIn known) (h.main habsent) name (.of_refersTo he)

theorem liftAggregates_plainIn {e : Expr} (he : e.RefersTo known) :
    Keeps (Grouping.PlainIn known) (liftAggregates e) fun _ => True := by
  refine Keeps.iff_ensures.mpr <| Expr.Congruent.replaceM_ensures (Q := fun _ _ _ => True)
    (D := fun a => a.RefersTo known) (fun _ h => h) (fun _ _ _ _ _ h => h)
    (fun _ => Expr.Congruent.all)
    (fun a _ ha b hb c hc => ha c (Expr.columns_subset_of_mem_parts hb hc))
    (fun _ _ _ _ _ => trivial) (fun a act hact ha => ?_) he
  obtain ⟨-, hact⟩ := Option.ite_none_right_eq_some.mp hact
  cases hact
  refine Keeps.iff_ensures.mp fun g h => ?_
  rw [liftCall_eq]
  exact ⟨h.carryInto ha _ _, trivial⟩

theorem groupItem_plainIn {item : Item} (hitem : item.expr.RefersTo known) :
    Keeps (Grouping.PlainIn known) (groupItem item) fun _ => True := by
  unfold groupItem
  split
  · exact fun g h => ⟨h.carryInto hitem _ _, trivial⟩
  · split
    · exact .bind (liftAggregates_plainIn hitem) fun _ _ => .pure trivial
    · intro g h
      obtain ⟨aliases, inner, main⟩ := g
      cases inner with
      | none =>
        refine ⟨⟨fun _ hlayer => (nomatch hlayer), fun _ => ?_⟩, trivial⟩
        exact forall_push (P := fun e => e.PlainIn known) (h.main rfl) _ (.of_refersTo hitem)
      | some layer =>
        have henters : Keeps (Layer.PlainIn known)
            (if item.isColumn then Layer.forward item.expr else Layer.publish item.name item.expr)
            fun _ => True := by
          split
          · exact Layer.forward_plainIn (.of_refersTo hitem)
          · exact Layer.publish_plainIn _ (.of_refersTo hitem)
        refine ⟨⟨?_, fun hnone => by cases hnone⟩, trivial⟩
        rintro l ⟨⟩
        exact (henters layer (h.inner layer rfl)).1

/-! ### Projections of a select list -/

/-- Plain columns of the lower one of two layers are known references. -/
structure PlainBelow (known : ColumnRef → Prop) (inner : Option Layer) (main : Projection) : Prop where
  ofInner : ∀ layer ∈ inner, layer.PlainIn known
  ofMain : inner = none → ∀ c ∈ main.columns, c.2.PlainIn known

theorem group_plainBelow (aliases : AliasSet) {items : List Item}
    (hitems : ∀ item ∈ items, item.RefersTo known) :
    PlainBelow known (group aliases items).1 (group aliases items).2.1 := by
  let start : Grouping :=
    ⟨aliases, if items.any fun item => !item.expr.hasAggregate && !item.isColumn then some .empty
      else none, []⟩
  have hstart : start.PlainIn known := by
    refine ⟨fun layer hlayer => ?_, fun _ c hc => by cases hc⟩
    obtain ⟨-, hlayer⟩ := Option.ite_none_right_eq_some.mp hlayer
    cases hlayer
    exact Layer.plainIn_empty
  have hrun : Keeps (Grouping.PlainIn known) (items.mapM groupItem)
      (List.Forall₂ (fun _ _ => True) items) :=
    Keeps.mapM fun item hitem => groupItem_plainIn (hitems item hitem).expr
  obtain ⟨hinner, hmain⟩ := (hrun start hstart).1
  refine ⟨hinner, fun hnone c hc => ?_⟩
  obtain ⟨column, hcolumn, rfl⟩ := List.mem_map.mp hc
  exact hmain hnone column hcolumn

theorem windowItem_plainIn {item : Item} (hitem : item.RefersTo known) :
    Keeps (Layer.PlainIn known) (windowItem item) fun _ => True := by
  rw [windowItem_eq]
  refine .map (R := fun _ => True) ?_ fun _ _ => trivial
  split
  · exact (Item.publish_keeps (Layer.publish_plainIn _ (.of_refersTo hitem.expr))).mono
      fun _ _ => trivial
  · exact (Item.carry_keeps fun e he => Layer.carry_plainIn (hitem e he)).mono fun _ _ => trivial

theorem analyze_plainBelow {items : List Item} (hitems : ∀ item ∈ items, item.RefersTo known) :
    PlainBelow known (analyze items).1 (analyze items).2 := by
  unfold analyze
  split
  · have hrun : Keeps (Layer.PlainIn known) (items.mapM windowItem)
        (List.Forall₂ (fun _ _ => True) items) :=
      Keeps.mapM fun item hitem => windowItem_plainIn (hitems item hitem)
    refine ⟨?_, fun hnone => by cases hnone⟩
    rintro layer ⟨⟩
    exact (hrun Layer.empty Layer.plainIn_empty).1
  · refine ⟨fun _ h => (nomatch h), fun _ c hc => ?_⟩
    simp only [Projection.columns, List.map_map, List.mem_map] at hc
    obtain ⟨item, hitem, rfl⟩ := hc
    exact .of_refersTo (hitems item hitem).expr

theorem project_plainBelow (aggregate analytic plain : Bool) (aliases : AliasSet) {items : List Item}
    (hitems : ∀ item ∈ items, item.RefersTo known) :
    PlainBelow known (project aggregate analytic plain aliases items).1
      (project aggregate analytic plain aliases items).2.1 := by
  unfold project
  split
  · exact group_plainBelow aliases hitems
  · split
    · exact analyze_plainBelow hitems
    · refine ⟨fun _ h => (nomatch h), fun _ c hc => ?_⟩
      have hcolumn : ∃ item ∈ items, c = (item.name, item.expr) := by
        split at hc <;>
          simpa only [Projection.columns, List.map_map, List.mem_map, Function.comp_def, eq_comm] using hc
      obtain ⟨item, hitem, rfl⟩ := hcolumn
      exact .of_refersTo (hitems item hitem).expr

theorem isAnalytic_analyze (items : List Item) : (analyze items).2.isAnalytic = true := by
  unfold analyze
  split <;> rfl

/-- Without groups and windows nothing is computed below the main layer. -/
theorem inner_project {aggregate analytic plain : Bool} {aliases : AliasSet} {items : List Item}
    (h : (project aggregate analytic plain aliases items).2.1.isGroupBy = false)
    (h' : (project aggregate analytic plain aliases items).2.1.isAnalytic = false) :
    (project aggregate analytic plain aliases items).1 = none := by
  unfold project at h h' ⊢
  split
  · rename_i hagg
    rw [if_pos hagg] at h
    cases h
  · rename_i hagg
    rw [if_neg hagg] at h'
    split
    · rename_i hanalytic
      rw [if_pos hanalytic] at h'
      exact absurd ((isAnalytic_analyze items).symm.trans h') (by decide)
    · rfl

end Select

/-! ### The layers of a level -/

namespace Layers

variable {known : ColumnRef → Prop} {l : Layers}

/-- Plain columns of the lowest layer are known references, and nothing but groups and windows has an
inner layer. -/
structure Grounded (known : ColumnRef → Prop) (l : Layers) : Prop where
  naming : ∀ layer ∈ l.naming, layer.PlainIn known
  inner : l.naming = none → ∀ layer ∈ l.inner, layer.PlainIn known
  main : l.naming = none → l.inner = none → ∀ c ∈ l.main.columns, c.2.PlainIn known
  rowwise : l.combinesRows = false → l.inner = none

theorem Grounded.mono {more : ColumnRef → Prop} (h : l.Grounded known)
    (hmore : ∀ ref, known ref → more ref) : l.Grounded more where
  naming layer hlayer c hc := (h.naming layer hlayer c hc).mono hmore
  inner hnaming layer hlayer c hc := (h.inner hnaming layer hlayer c hc).mono hmore
  main hnaming hinner c hc := (h.main hnaming hinner c hc).mono hmore
  rowwise := h.rowwise

/-- **The lowest layer of a select list selects columns of the sources.** -/
theorem IsLayout.grounded {select : SelectClause} {scope : Scope} {key : Option Expr}
    (h : l.IsLayout select scope key)
    (hkey : ∀ k ∈ key, ∀ c ∈ k.columns, ∃ source, scope.LeadsTo c.1 source) :
    l.Grounded fun ref => ∃ source, scope.LeadsTo ref source := by
  have hitems : ∀ item ∈ (named select key).1,
      item.RefersTo fun ref => ∃ source, scope.LeadsTo ref source := by
    intro item hitem e he c hc
    rcases named_isSourceColumn h.resolved h.given item hitem e he c hc with hleads | ⟨k, hk, c', hc', heq⟩
    · exact hleads
    · exact heq ▸ hkey k hk c' hc'
  have hinner : l.inner = _ := congrArg Prod.fst h.projections
  have hmain : l.main = _ := congrArg (fun p => p.2.1) h.projections
  have hbelow : l.naming = none →
      PlainBelow (fun ref => ∃ source, scope.LeadsTo ref source) l.inner l.main := by
    intro hnaming
    rw [hinner, hmain, laidOut_unnamed (h.naming ▸ hnaming)]
    exact project_plainBelow _ _ _ _ hitems
  refine ⟨fun layer hlayer => ?_, fun hnaming => (hbelow hnaming).ofInner,
    fun hnaming => (hbelow hnaming).ofMain, fun hrows => ?_⟩
  · rw [h.naming] at hlayer
    exact (laid_publishesOnly hitems layer hlayer).plainIn
  · obtain ⟨hgroups, hwindows⟩ := Bool.or_eq_false_iff.mp hrows
    rw [hmain] at hgroups hwindows
    rw [hinner]
    exact inner_project hgroups hwindows

/-- A hidden column is a known reference where nothing is below the main layer. -/
theorem Grounded.hiddenInput (h : l.Grounded known) (hrows : l.combinesRows = false) {ref : ColumnRef}
    (href : known ref) (p : Nat) :
    ∃ naming, (l.hiddenInput (.column ref p)).2 = { l with naming } ∧
      (∀ layer ∈ naming, layer.PlainIn known) ∧
      (naming = none → l.naming = none ∧ (l.hiddenInput (.column ref p)).1.PlainIn known) := by
  have he : (Expr.column ref p).RefersTo known := List.forall_mem_singleton.mpr href
  have hinner := h.rowwise hrows
  obtain ⟨naming, inner, main, _, _, _, _, _, _, _⟩ := l
  obtain rfl : inner = none := hinner
  cases naming with
  | some layer =>
    refine ⟨_, rfl, (Layer.carryThrough_plainIn h.naming he).1, fun hnone => by cases hnone⟩
  | none =>
    cases main with
    | virtual columns =>
      have hcopy : (copyOf (.virtual columns)).PlainIn known := by
        intro c hc
        obtain ⟨column, hcolumn, rfl⟩ := List.mem_map.mp hc
        exact h.main rfl rfl column hcolumn
      refine ⟨some _, rfl, ?_, fun hnone => by cases hnone⟩
      rintro layer ⟨⟩
      exact (Layer.forward_plainIn (.of_refersTo he) _ hcopy).1
    | choose | groupBy | analytic =>
      exact ⟨none, rfl, fun _ hlayer => (nomatch hlayer), fun _ => ⟨rfl, .of_refersTo he⟩⟩

/-- A column that is hidden behind a list keeps it grounded. -/
theorem Grounded.publishHidden (h : l.Grounded known) {ref : ColumnRef} (href : known ref) (p : Nat) :
    (l.publishHidden (.column ref p)).2.Grounded known := by
  unfold Layers.publishHidden
  split
  · exact h
  · rename_i hcarries
    split
    · exact h
    · obtain ⟨hrows, -⟩ := Bool.or_eq_false_iff.mp (Bool.eq_false_iff.mpr hcarries)
      obtain ⟨naming, hlayers, hnaming, hnone⟩ := h.hiddenInput hrows href p
      cases hinput : l.hiddenInput (.column ref p) with
      | mk routed below =>
        rw [hinput] at hlayers hnone
        obtain rfl : below = { l with naming := naming } := hlayers
        have hinner := h.rowwise hrows
        refine ⟨hnaming, fun _ layer hlayer => ?_, fun habsent _ c hc => ?_, fun _ => hinner⟩
        · rw [show l.inner = none from hinner] at hlayer
          cases hlayer
        · obtain ⟨hbare, hrouted⟩ := hnone habsent
          rw [columns_push] at hc
          rcases List.mem_append.mp hc with hc | hc
          · exact h.main hbare hinner c hc
          · obtain rfl := List.mem_singleton.mp hc
            exact hrouted

end Layers

end SeriesQuery
