import SeriesQuery.Proofs.Select.Apart
import SeriesQuery.Proofs.Select.RowWise

/-!
Where the layers of a select list aggregate.

Carrying an expression through a layer replaces columns by columns, so it calls aggregate functions
where it did before (`Layer.carry_aggregatesAs`). What is published on the way is a column, or an item
that calls none; what is computed over the groups has had its calls lifted out
(`Select.liftAggregates_rowWise`). So the aggregate calls of a select list stand in its main layer, which
groups or has windows then (`Layers.IsLayout.rowWise`).
-/

namespace SeriesQuery

/-! ### Aggregate calls of expressions -/

namespace Expr

/-- An expression calls aggregate functions where another one does. -/
structure AggregatesAs (e e' : Expr) : Prop where
  whole : e'.isAggregate = e.isAggregate
  anywhere : e'.hasAggregate = e.hasAggregate

/-- Expressions that are put together alike call aggregate functions where their parts do. -/
theorem aggregatesAs_congruent : Congruent AggregatesAs := by
  refine Congruent.of_withParts fun e es _ hes => ⟨isAggregate_withParts e es, ?_⟩
  have hany : es.any hasAggregate = e.parts.any hasAggregate := by
    have hmap := map_eq_map_of_forall₂ (hes.imp fun _ _ h => h.anywhere)
    simpa [List.any_map] using congrArg (List.any · id) hmap
  rw [hasAggregate_of_parts, hasAggregate_of_parts e, isAggregate_withParts,
    parts_withParts hes.length_eq, hany]

theorem AggregatesAs.refl (e : Expr) : e.AggregatesAs e :=
  ⟨rfl, rfl⟩

section

variable {σ : Type} {I : σ → Prop} {pick : Expr → Option (StateM σ Expr)}

/-- If all aggregate calls are replaced, none is left. The induction is on the expression: what is not
replaced is no call itself. -/
theorem replaceM_rowWise (hcalls : ∀ e : Expr, pick e = none → e.isAggregate = false)
    (picked : ∀ e act, pick e = some act → Keeps I act fun e' => e'.hasAggregate = false) (e : Expr) :
    Keeps I (e.replaceM pick) fun e' => e'.hasAggregate = false := by
  induction e using inductParts with
  | step e ih =>
    cases hpick : pick e with
    | some act =>
      rw [replaceM_of_some hpick]
      exact picked e act hpick
    | none =>
      rw [replaceM_of_none hpick]
      refine (Keeps.mapM ih).map fun es hes => ?_
      rw [hasAggregate_of_parts, isAggregate_withParts, hcalls e hpick, Bool.false_or,
        parts_withParts hes.length_eq, List.any_eq_false]
      intro a ha
      obtain ⟨_, _, h⟩ := exists_mem_of_forall₂ hes.flip ha
      simpa using h

end

end Expr

/-! ### Layers without aggregates -/

/-- What holds of the expressions of columns and of one more. -/
theorem forall_push {P : Expr → Prop} {columns : List PublishedColumn} (h : ∀ c ∈ columns, P c.expr)
    (name : String) {e : Expr} (he : P e) : ∀ c ∈ columns ++ [⟨name, e⟩], P c.expr :=
  List.forall_mem_append.mpr ⟨h, List.forall_mem_singleton.mpr he⟩

namespace Layer

/-- A layer publishes nothing that aggregates. -/
def RowWise (layer : Layer) : Prop :=
  ∀ c ∈ layer.columns, c.expr.hasAggregate = false

theorem rowWise_empty : Layer.empty.RowWise := by
  intro c hc
  cases hc

theorem publish_rowWise (base : String) {e : Expr} (he : e.hasAggregate = false) :
    Keeps RowWise (publish base e) fun e' => ∃ ref p, e' = .column ref p := by
  intro layer h
  exact ⟨forall_push (P := fun e => e.hasAggregate = false) h _ he, _, _, rfl⟩

theorem forward_rowWise {e : Expr} (he : e.hasAggregate = false) :
    Keeps RowWise (forward e) fun e' => ∃ ref p, e' = .column ref p := by
  intro layer h
  rw [forward_eq]
  split
  · exact ⟨h, _, _, rfl⟩
  · exact publish_rowWise _ he layer h

/-- Columns are carried through a layer as columns. -/
theorem carry_aggregatesAs (e : Expr) : Keeps RowWise (carry e) e.AggregatesAs := by
  refine Keeps.iff_ensures.mpr <| Expr.Congruent.replaceColumnsM_ensures
    (Q := fun _ => Expr.AggregatesAs) (fun _ h => h) (fun _ _ _ _ _ h => h)
    (fun _ => Expr.aggregatesAs_congruent) fun c _ => Keeps.iff_ensures.mp ?_
  refine (forward_rowWise rfl).mono ?_
  rintro _ ⟨ref, p, rfl⟩
  exact ⟨rfl, rfl⟩

theorem carryThrough_aggregatesAs {layer : Option Layer} (h : ∀ l ∈ layer, l.RowWise) (e : Expr) :
    (∀ l ∈ (carryThrough layer e).2, l.RowWise) ∧ e.AggregatesAs (carryThrough layer e).1 := by
  cases layer with
  | none => exact ⟨h, .refl e⟩
  | some layer =>
    obtain ⟨hlayer, he⟩ := carry_aggregatesAs e layer (h layer rfl)
    refine ⟨?_, he⟩
    rintro l ⟨⟩
    exact hlayer

end Layer

namespace Projection

/-- Aggregate calls are whole columns of groups, or stand beside windows. -/
def AggregatesApart : Projection → Prop
  | choose cs | virtual cs => ∀ c ∈ cs, c.expr.hasAggregate = false
  | groupBy cs => ∀ c ∈ cs, c.expr.isAggregate = true ∨ c.expr.hasAggregate = false
  | analytic _ => True

end Projection

namespace Select

/-! ### The naming layer -/

/-- An item that reads from a naming layer aggregates as it did. -/
theorem rename_rowWise (item : Item) :
    Keeps Layer.RowWise (rename item) fun read => item.ReadsAs Expr.AggregatesAs read := by
  have hlasting : ∀ e e' : Expr,
      (Growth.ofInvariant Layer.RowWise).Lasting fun _ => e.AggregatesAs e' := fun _ _ _ _ _ h => h
  rw [rename_eq]
  split
  · rename_i hrenamed
    obtain ⟨hwindow, ref, p, he⟩ := Item.isRenamed_eq_true hrenamed
    refine Keeps.iff_ensures.mpr (Item.publish_ensures (Q := fun _ => Expr.AggregatesAs) hwindow
      (Keeps.iff_ensures.mp ?_))
    rw [he]
    refine (Layer.publish_rowWise _ rfl).mono ?_
    rintro _ ⟨ref, p, rfl⟩
    exact ⟨rfl, rfl⟩
  · exact Keeps.iff_ensures.mpr (Item.carry_ensures hlasting fun e _ =>
      Keeps.iff_ensures.mp (Layer.carry_aggregatesAs e))

theorem renameItems_rowWise (items : List Item) :
    List.Forall₂ (Item.ReadsAs Expr.AggregatesAs) items (renameItems items).1 ∧
      ∀ layer ∈ (renameItems items).2, layer.RowWise := by
  have hrun : Keeps Layer.RowWise (items.mapM rename)
      (List.Forall₂ (Item.ReadsAs Expr.AggregatesAs) items) :=
    Keeps.mapM fun item _ => rename_rowWise item
  obtain ⟨hlayer, hreads⟩ := hrun Layer.empty Layer.rowWise_empty
  rw [renameItems_eq]
  split
  · exact ⟨List.forall₂_same.mpr fun item _ => item.readsAs_self .refl, fun _ h => by cases h⟩
  · refine ⟨hreads, ?_⟩
    rintro layer ⟨⟩
    exact hlayer

/-! ### Groups -/

/-- Aggregate calls are whole columns of the groups, and there are none below. -/
structure Grouping.AggregatesApart (g : Grouping) : Prop where
  inner : ∀ layer ∈ g.inner, layer.RowWise
  main : (Projection.groupBy g.main).AggregatesApart

theorem Grouping.AggregatesApart.push {g : Grouping} (h : g.AggregatesApart) {inner : Option Layer}
    (hinner : ∀ layer ∈ inner, layer.RowWise) {e : Expr}
    (he : e.isAggregate = true ∨ e.hasAggregate = false) (aliases : AliasSet) (name : String) :
    Grouping.AggregatesApart ⟨aliases, inner, g.main ++ [⟨name, e⟩]⟩ :=
  ⟨hinner, forall_push (P := fun e => e.isAggregate = true ∨ e.hasAggregate = false) h.main name he⟩

theorem liftCall_rowWise {call : Expr} (hcall : call.isAggregate = true) :
    Keeps Grouping.AggregatesApart (liftCall call) fun e => e.hasAggregate = false := by
  intro g h
  obtain ⟨hinner, he⟩ := Layer.carryThrough_aggregatesAs h.inner call
  rw [liftCall_eq]
  exact ⟨h.push hinner (.inl (he.whole.trans hcall)) _ _, rfl⟩

/-- What is computed over the groups calls no aggregate function: its topmost calls are lifted, and
nothing above them is one. -/
theorem liftAggregates_rowWise (e : Expr) :
    Keeps Grouping.AggregatesApart (liftAggregates e) fun e' => e'.hasAggregate = false :=
  Expr.replaceM_rowWise (fun a hpick => by simpa using hpick) (fun a act hpick => by
    obtain ⟨hcall, hact⟩ := Option.ite_none_right_eq_some.mp hpick
    cases hact
    exact liftCall_rowWise hcall) e

/-- An item that enters a layer aggregates nothing there. -/
theorem enter_rowWise {item : Item} (hitem : item.expr.hasAggregate = false) :
    Keeps Layer.RowWise
      (if item.isColumn then Layer.forward item.expr else Layer.publish item.name item.expr)
      fun e => e.hasAggregate = false := by
  have hcolumn : ∀ e, (∃ ref p, e = Expr.column ref p) → e.hasAggregate = false := by
    rintro _ ⟨ref, p, rfl⟩
    rfl
  split
  · exact (Layer.forward_rowWise hitem).mono hcolumn
  · exact (Layer.publish_rowWise _ hitem).mono hcolumn

theorem keyInput_rowWise {item : Item} (hitem : item.expr.hasAggregate = false) {g : Grouping}
    (h : ∀ layer ∈ g.inner, layer.RowWise) :
    ∃ input inner, keyInput item g = (input, { g with inner := inner }) ∧
      (∀ layer ∈ inner, layer.RowWise) ∧ input.hasAggregate = false := by
  obtain ⟨aliases, inner, main⟩ := g
  cases inner with
  | none => exact ⟨item.expr, none, rfl, h, hitem⟩
  | some layer =>
    obtain ⟨hlayer, hinput⟩ := enter_rowWise hitem layer (h layer rfl)
    refine ⟨_, some _, rfl, ?_, hinput⟩
    rintro l ⟨⟩
    exact hlayer

/-- An item is an aggregate call or a key of the groups, or its calls are lifted. -/
theorem groupItem_rowWise (item : Item) :
    Keeps Grouping.AggregatesApart (groupItem item) fun c => c.expr.hasAggregate = false := by
  unfold groupItem
  split
  · rename_i hcall
    intro g h
    obtain ⟨hinner, he⟩ := Layer.carryThrough_aggregatesAs h.inner item.expr
    exact ⟨h.push hinner (.inl (he.whole.trans hcall)) _ _, rfl⟩
  · split
    · exact .bind (liftAggregates_rowWise item.expr) fun e he => .pure he
    · rename_i hkey
      intro g h
      obtain ⟨input, inner, hrun, hinner, hinput⟩ :=
        keyInput_rowWise (Bool.eq_false_iff.mpr hkey) h.inner
      simp only [bind, StateT.bind, hrun]
      exact ⟨h.push hinner (.inr hinput) _ _, rfl⟩

/-! ### Projections of a select list -/

/-- Only the main projection of a select list aggregates. -/
structure AggregatesInMain (inner : Option Layer) (main : Projection) (outer : Option Projection) :
    Prop where
  inner : ∀ layer ∈ inner, layer.RowWise
  main : main.AggregatesApart
  outer : ∀ p ∈ outer, p.AggregatesApart

theorem group_rowWise (aliases : AliasSet) (items : List Item) :
    AggregatesInMain (group aliases items).1 (group aliases items).2.1 (group aliases items).2.2 := by
  let start : Grouping :=
    ⟨aliases, if items.any fun item => !item.expr.hasAggregate && !item.isColumn then some .empty
      else none, []⟩
  have hstart : start.AggregatesApart := by
    refine ⟨fun layer hlayer => ?_, fun c hc => by cases hc⟩
    obtain ⟨-, hlayer⟩ := Option.ite_none_right_eq_some.mp hlayer
    cases hlayer
    exact Layer.rowWise_empty
  have hrun : Keeps Grouping.AggregatesApart (items.mapM groupItem)
      (List.Forall₂ (fun _ c => c.expr.hasAggregate = false) items) :=
    Keeps.mapM fun item _ => groupItem_rowWise item
  obtain ⟨hgroups, hcolumns⟩ := hrun start hstart
  refine ⟨hgroups.inner, hgroups.main, fun p hp => ?_⟩
  obtain ⟨-, hp⟩ := Option.ite_none_right_eq_some.mp hp
  cases hp
  intro c hc
  obtain ⟨item, -, hitem⟩ :=
    exists_mem_of_forall₂ (R := fun (c : PublishedColumn) _ => c.expr.hasAggregate = false)
      hcolumns.flip hc
  exact hitem

/-- Below windows nothing is computed but items without one. -/
theorem windowItem_rowWise {item : Item} (hitem : item.window = none → item.expr.hasAggregate = false) :
    Keeps Layer.RowWise (windowItem item) fun _ => True := by
  rw [windowItem_eq]
  refine .map (R := fun _ => True) ?_ fun _ _ => trivial
  split
  · rename_i hcomputed
    obtain ⟨hwindow, -⟩ := Item.isComputed_eq_true hcomputed
    exact (Item.publish_keeps ((Layer.publish_rowWise _ (hitem hwindow)).mono fun _ _ => trivial)).mono
      fun _ _ => trivial
  · exact (Item.carry_keeps fun e _ => (Layer.carry_aggregatesAs e).mono fun _ _ => trivial).mono
      fun _ _ => trivial

theorem analyze_rowWise {items : List Item}
    (hitems : ∀ item ∈ items, item.window = none → item.expr.hasAggregate = false) :
    AggregatesInMain (analyze items).1 (analyze items).2 none := by
  unfold analyze
  split
  · have hrun : Keeps Layer.RowWise (items.mapM windowItem) (List.Forall₂ (fun _ _ => True) items) :=
      Keeps.mapM fun item hitem => windowItem_rowWise (hitems item hitem)
    refine ⟨?_, trivial, fun _ h => by cases h⟩
    rintro layer ⟨⟩
    exact (hrun Layer.empty Layer.rowWise_empty).1
  · exact ⟨fun _ h => (nomatch h), trivial, fun _ h => (nomatch h)⟩

theorem project_rowWise {aggregate analytic : Bool} (plain : Bool) (aliases : AliasSet)
    {items : List Item}
    (hwindows : analytic = false → ∀ item ∈ items, item.window = none)
    (hitems : aggregate = false → ∀ item ∈ items, item.window = none → item.expr.hasAggregate = false) :
    AggregatesInMain (project aggregate analytic plain aliases items).1
      (project aggregate analytic plain aliases items).2.1
      (project aggregate analytic plain aliases items).2.2 := by
  unfold project
  split
  · exact group_rowWise aliases items
  · rename_i hagg
    have hrow := hitems (Bool.eq_false_iff.mpr hagg)
    split
    · exact analyze_rowWise hrow
    · rename_i hanalytic
      have hcolumns : ∀ c ∈ items.map fun item => (⟨item.name, item.expr⟩ : PublishedColumn),
          c.expr.hasAggregate = false := by
        intro c hc
        obtain ⟨item, hitem, rfl⟩ := List.mem_map.mp hc
        exact hrow item hitem (hwindows (Bool.eq_false_iff.mpr hanalytic) item hitem)
      refine ⟨fun _ h => (nomatch h), ?_, fun _ h => (nomatch h)⟩
      split
      · exact hcolumns
      · exact hcolumns

/-- An item that reads what another one is has a window if that has one. -/
theorem Item.ReadsAs.isSome_window {R : Expr → Expr → Prop} {item read : Item}
    (h : item.ReadsAs R read) : read.window.isSome = item.window.isSome := by
  obtain ⟨_, _, window⟩ := item
  obtain ⟨_, _, readWindow⟩ := read
  obtain ⟨-, -, hwindow⟩ := h
  cases hwindow <;> rfl

/-- The items that are laid out have windows and aggregate calls where they are written with them. -/
theorem laidOut_rowWise {select : SelectClause} {key : Option Expr} :
    List.Forall₂ (Item.ReadsAs Expr.AggregatesAs) (named select key).1 (laidOut select key) ∧
      ∀ layer ∈ (laid select key).2, layer.RowWise := by
  unfold laidOut laid
  extract_lets items
  split
  · exact renameItems_rowWise items
  · exact ⟨List.forall₂_same.mpr fun item _ => item.readsAs_self .refl, fun _ h => (nomatch h)⟩

/-- What holds of the windows and the aggregate calls of all items holds of those laid out. -/
theorem forall_laidOut {select : SelectClause} {key : Option Expr} {P : Option Window → Bool → Prop}
    (hP : ∀ w w' b, w.isSome = w'.isSome → P w b → P w' b)
    (h : ∀ item ∈ (named select key).1, P item.window item.expr.hasAggregate) :
    ∀ item ∈ laidOut select key, P item.window item.expr.hasAggregate := by
  intro read hread
  obtain ⟨item, hitem, hreads⟩ :=
    exists_mem_of_forall₂ (R := flip (Item.ReadsAs Expr.AggregatesAs)) laidOut_rowWise.1.flip hread
  rw [hreads.expr.anywhere]
  exact hP item.window _ _ hreads.isSome_window.symm (h item hitem)

end Select

/-! ### The layers of a level -/

open Select

namespace Layers

/-- Only the main projection aggregates. -/
structure AggregatesInMain (l : Layers) : Prop where
  naming : ∀ layer ∈ l.naming, layer.RowWise
  inner : ∀ layer ∈ l.inner, layer.RowWise
  main : l.main.AggregatesApart
  outer : ∀ p ∈ l.outer, p.AggregatesApart

/-- **A select list aggregates in its main projection.** Layers below and above it call no aggregate
function, and it calls them in whole columns of groups or beside windows. -/
theorem IsLayout.aggregatesInMain {select : SelectClause} {scope : Scope} {key : Option Expr}
    {l : Layers} (h : l.IsLayout select scope key) (hkey : select.hasAggregate = false → key = none) :
    l.AggregatesInMain := by
  have hwindows : ((named select key).1.any fun item => item.window.isSome) = false →
      ∀ item ∈ laidOut select key, item.window = none := by
    intro hnone
    refine forall_laidOut (P := fun w _ => w = none) (fun w w' _ hw hw' => ?_) fun item hitem => ?_
    · simpa [hw'] using hw.symm
    · simpa using List.any_eq_false.mp hnone item hitem
  have hitems : select.hasAggregate = false →
      ∀ item ∈ laidOut select key, item.window = none → item.expr.hasAggregate = false := by
    intro hagg
    refine forall_laidOut (P := fun w b => w = none → b = false) (fun w w' _ hw h hw' => h ?_)
      fun item hitem hwindow => ?_
    · simpa [hw'] using hw
    · obtain ⟨written, hwritten, hnamed⟩ :=
        exists_mem_of_forall₂ (R := flip IsNamed) (named_spec h.given).1.flip hitem
      have hwritten : written ∈ select.items := by
        simpa [keyed, hkey hagg] using hwritten
      have hrow := List.any_eq_false.mp hagg written hwritten
      obtain ⟨hexpr, hsame, -⟩ := hnamed
      rw [hexpr]
      simpa [← hsame, hwindow] using hrow
  have hproject := project_rowWise ((named select key).1.all Item.isColumn) (named select key).2
    hwindows hitems
  rw [← h.projections] at hproject
  exact ⟨h.naming ▸ laidOut_rowWise.2, hproject.inner, hproject.main, hproject.outer⟩

variable {l : Layers}

/-- A hidden column is a column of the layer below. -/
theorem AggregatesInMain.hiddenInput (h : l.AggregatesInMain) {e : Expr}
    (he : e.hasAggregate = false) :
    (l.hiddenInput e).2.AggregatesInMain ∧ (l.hiddenInput e).1.hasAggregate = false := by
  unfold Layers.hiddenInput
  split
  · rename_i columns hnaming hmain
    have hcopy : (copyOf l.main).RowWise := by
      intro c hc
      have hrow : ∀ c ∈ columns, c.expr.hasAggregate = false := by
        have := h.main
        rwa [hmain] at this
      rw [hmain] at hc
      simp only [copyOf, Projection.columns, List.map_map, List.mem_map] at hc
      obtain ⟨column, hcolumn, rfl⟩ := hc
      exact hrow column hcolumn
    obtain ⟨hlayer, ref, p, heq⟩ := Layer.forward_rowWise he _ hcopy
    refine ⟨⟨?_, h.inner, h.main, h.outer⟩, ?_⟩
    · rintro layer ⟨⟩
      exact hlayer
    · exact congrArg Expr.hasAggregate heq
  · obtain ⟨hnaming, hnamed⟩ := Layer.carryThrough_aggregatesAs h.naming e
    obtain ⟨hinner, hcarried⟩ :=
      Layer.carryThrough_aggregatesAs h.inner (Layer.carryThrough l.naming e).1
    exact ⟨⟨hnaming, hinner, h.main, h.outer⟩,
      hcarried.anywhere.trans (hnamed.anywhere.trans he)⟩

theorem aggregatesApart_push {p : Projection} (h : p.AggregatesApart) {e : Expr}
    (he : e.hasAggregate = false) (name : String) : (p.push name e).AggregatesApart := by
  have hrow : ∀ {cs : List PublishedColumn}, (∀ c ∈ cs, c.expr.hasAggregate = false) →
      ∀ c ∈ cs ++ [⟨name, e⟩], c.expr.hasAggregate = false :=
    fun h => forall_push (P := fun e => e.hasAggregate = false) h name he
  cases p with
  | choose cs => exact hrow h
  | virtual cs => exact hrow h
  | groupBy cs =>
    exact forall_push (P := fun e => e.isAggregate = true ∨ e.hasAggregate = false) h name (.inr he)
  | analytic cs => trivial

theorem AggregatesInMain.publishHidden (h : l.AggregatesInMain) {e : Expr}
    (he : e.hasAggregate = false) : (l.publishHidden e).2.AggregatesInMain := by
  unfold Layers.publishHidden
  split
  · exact h
  · split
    · exact h
    · obtain ⟨hinput, hrouted⟩ := h.hiddenInput he
      exact ⟨hinput.naming, hinput.inner, aggregatesApart_push hinput.main hrouted _, hinput.outer⟩

end Layers

end SeriesQuery
