import SeriesQuery.Proofs.Select.Grouping
import SeriesQuery.Proofs.Select.Ordering
import SeriesQuery.Proofs.Select.Windows

/-!
Names of one projection differ.

Names are given in five places: to items, to aggregate calls that are lifted out of them, to columns
of the naming and of the inner layer, and to columns that only an order needs. Each of these keeps
the names of its projection apart, whatever the expressions are, and leaves the names of the items
as they are (`Layers.IsLayout.apart_layers`, `Clause.apart_orderLayers`).
-/

namespace SeriesQuery

/-- Where no reference is known, every expression is honest. -/
theorem Expr.honest_unknown (e : Expr) : e.Honest fun _ => False :=
  fun _ h => h.elim

/-- The names of a projection differ, in any case. -/
def Projection.Apart (p : Projection) : Prop :=
  p.aliases.Pairwise fun a b => Ascii.same a b = false

theorem Projection.apart_push {p : Projection} (h : p.Apart) {name : String}
    (hname : (AliasSet.ofList p.aliases).isFree name = true) (e : Expr) : (p.push name e).Apart := by
  have haliases : (p.push name e).aliases = p.aliases ++ [name] := by
    simp [aliases, Layers.columns_push]
  rw [Apart, haliases]
  refine List.pairwise_append.mpr ⟨h, List.pairwise_singleton _ _, fun a ha b hb => ?_⟩
  obtain rfl := List.mem_singleton.mp hb
  rw [Ascii.same_comm]
  exact AliasSet.same_eq_false hname (AliasSet.taken_ofList ha)

namespace Layer

/-- The names of a layer differ and are taken. -/
abbrev Apart (layer : Layer) : Prop :=
  layer.Sound fun _ => False

theorem publish_keeps (base : String) (e : Expr) : Keeps Apart (publish base e) fun _ => True :=
  fun _ h => ⟨h.push base e.honest_unknown, trivial⟩

theorem forward_keeps (e : Expr) : Keeps Apart (forward e) fun _ => True := by
  intro layer h
  rw [forward_eq]
  split
  · exact ⟨h, trivial⟩
  · exact publish_keeps _ e layer h

theorem carry_keeps (e : Expr) : Keeps Apart (carry e) fun _ => True :=
  Expr.replaceColumnsM_keeps (fun _ _ => forward_keeps _) e

theorem carryThrough_apart {layer : Option Layer} (h : ∀ l ∈ layer, l.Apart) (e : Expr) :
    ∀ l ∈ (carryThrough layer e).2, l.Apart := by
  cases layer with
  | none => exact h
  | some layer =>
    rintro l ⟨⟩
    exact (carry_keeps e layer (h layer rfl)).1

end Layer

namespace Select

/-! ### The naming layer -/

/-- An item that reads from a naming layer keeps its name. -/
theorem rename_keeps (item : Item) :
    Keeps Layer.Apart (rename item) fun renamed => renamed.name = item.name := by
  rw [rename_eq]
  split
  · exact Item.publish_keeps (Layer.publish_keeps _ _)
  · exact Item.carry_keeps fun e _ => Layer.carry_keeps e

/-- An item that enters a layer. -/
theorem enter_keeps (item : Item) :
    Keeps Layer.Apart
      (if item.isColumn then Layer.forward item.expr else Layer.publish item.name item.expr)
      fun _ => True := by
  split
  · exact Layer.forward_keeps _
  · exact Layer.publish_keeps _ _

theorem map_name_of_forall₂ {α β : Type} {f : α → String} {g : β → String} {as : List α}
    {bs : List β} (h : List.Forall₂ (fun a b => g b = f a) as bs) : bs.map g = as.map f := by
  induction h with
  | nil => rfl
  | cons h _ ih => rw [List.map_cons, List.map_cons, h, ih]

theorem renameItems_apart (items : List Item) :
    (renameItems items).1.map Item.name = items.map Item.name ∧
      ∀ layer ∈ (renameItems items).2, layer.Apart := by
  have hrun : Keeps Layer.Apart (items.mapM rename)
      (List.Forall₂ (fun item renamed => renamed.name = item.name) items) :=
    Keeps.mapM fun item _ => rename_keeps item
  obtain ⟨hapart, hnames⟩ := hrun Layer.empty (Layer.sound_empty _)
  rw [renameItems_eq]
  split
  · exact ⟨rfl, fun _ h => by cases h⟩
  · refine ⟨map_name_of_forall₂ hnames, ?_⟩
    rintro layer ⟨⟩
    exact hapart

/-! ### Groups -/

/-- The names of the groups differ, and none of them is that of an item that is still to come. -/
structure Awaits (items : List Item) (g : Grouping) : Prop where
  apart : g.Sound fun _ => False
  taken : ∀ item ∈ items, g.aliases.isFree item.name = false
  new : ∀ item ∈ items, ∀ c ∈ g.main, Ascii.same c.name item.name = false

theorem liftCall_keeps (items : List Item) (call : Expr) :
    Keeps (Awaits items) (liftCall call) fun _ => True := by
  intro g h
  have hfree := g.aliases.isFree_freeName call.defaultName
  have hname : ∀ c ∈ g.main, Ascii.same c.name (g.aliases.freeName call.defaultName) = false := by
    intro c hc
    rw [Ascii.same_comm]
    exact AliasSet.same_eq_false hfree (h.apart.taken c hc)
  rw [liftCall_eq]
  refine ⟨⟨h.apart.push hname (g.aliases.within_insert _) (g.aliases.insert_taken _)
    (Layer.carryThrough_apart h.apart.inner call) _, fun item hitem => ?_, fun item hitem c hc => ?_⟩,
    trivial⟩
  · exact g.aliases.within_insert _ _ (h.taken item hitem)
  · rcases List.mem_append.mp hc with hc | hc
    · exact h.new item hitem c hc
    · obtain rfl := List.mem_singleton.mp hc
      exact AliasSet.same_eq_false hfree (h.taken item hitem)

theorem liftAggregates_keeps (items : List Item) (e : Expr) :
    Keeps (Awaits items) (liftAggregates e) fun _ => True := by
  refine Expr.replaceM_keeps (fun a act hact => ?_) e
  split at hact
  · cases hact
    exact liftCall_keeps items a
  · cases hact

/-- The groups with a column for an item that is not computed on top of them. -/
theorem groupItem_column {item : Item} (hplain : item.isMixed = false) {g : Grouping}
    (hg : g.Sound fun _ => False) :
    ∃ input inner, groupItem item g =
        (⟨item.name, Layer.reference item.name item.expr.position⟩,
          ⟨g.aliases, inner, g.main ++ [⟨item.name, input⟩]⟩) ∧
      ∀ layer ∈ inner, layer.Apart := by
  cases hagg : item.expr.isAggregate with
  | true =>
    exact ⟨_, _, groupItem_call hagg g, Layer.carryThrough_apart hg.inner item.expr⟩
  | false =>
    have hkey : item.expr.hasAggregate = false := by
      simpa [Item.isMixed, hagg] using hplain
    have hinput : ∃ input inner, keyInput item g = (input, { g with inner := inner }) ∧
        ∀ layer ∈ inner, layer.Apart := by
      obtain ⟨aliases, inner, main⟩ := g
      cases inner with
      | none => exact ⟨item.expr, none, rfl, hg.inner⟩
      | some layer =>
        refine ⟨_, some _, rfl, ?_⟩
        rintro l ⟨⟩
        exact (enter_keeps item layer (hg.inner layer rfl)).1
    obtain ⟨input, inner, hrun, hinner⟩ := hinput
    exact ⟨input, inner, groupItem_key hagg hkey hrun, hinner⟩

/-- An item is laid out in the groups under its own name and under free ones. -/
theorem groupItem_awaits {item : Item} {items : List Item}
    (hitem : ∀ other ∈ items, Ascii.same item.name other.name = false) {g : Grouping}
    (h : Awaits (item :: items) g) :
    Awaits items (groupItem item g).2 ∧ (groupItem item g).1.name = item.name ∧
      (item.isMixed = false → ∃ e, (groupItem item g).2.main = g.main ++ [⟨item.name, e⟩]) := by
  obtain ⟨htaken, hrest⟩ := List.forall_mem_cons.mp h.taken
  obtain ⟨hnew, hnews⟩ := List.forall_mem_cons.mp h.new
  cases hmixed : item.isMixed with
  | false =>
    obtain ⟨input, inner, hrun, hinner⟩ := groupItem_column hmixed h.apart
    rw [hrun]
    refine ⟨⟨h.apart.push hnew (.refl _) htaken hinner input, hrest, fun other hother c hc => ?_⟩,
      rfl, fun _ => ⟨input, rfl⟩⟩
    rcases List.mem_append.mp hc with hc | hc
    · exact hnews other hother c hc
    · obtain rfl := List.mem_singleton.mp hc
      exact hitem other hother
  | true =>
    rw [groupItem_mixed hmixed]
    exact ⟨(liftAggregates_keeps items item.expr g ⟨h.apart, hrest, hnews⟩).1, rfl,
      fun h => absurd h.symm Bool.false_ne_true⟩

theorem groupItems_awaits {items : List Item} (hapart : ItemsApart items) {g : Grouping}
    (h : Awaits items g) :
    (items.mapM groupItem g).2.Sound (fun _ => False) ∧
      (items.mapM groupItem g).1.map PublishedColumn.name = items.map Item.name ∧
      ((∀ item ∈ items, item.isMixed = false) →
        (items.mapM groupItem g).2.main.map PublishedColumn.name =
          g.main.map PublishedColumn.name ++ items.map Item.name) := by
  induction items generalizing g with
  | nil => exact ⟨h.apart, rfl, fun _ => (List.append_nil _).symm⟩
  | cons item items ih =>
    obtain ⟨hitem, hrest⟩ := List.pairwise_cons.mp hapart
    obtain ⟨hawaits, hname, hcolumn⟩ := groupItem_awaits hitem h
    obtain ⟨hsound, hnames, hmain⟩ := ih hrest hawaits
    rw [mapM_cons_apply]
    refine ⟨hsound, by rw [List.map_cons, hname, hnames, List.map_cons], fun hplain => ?_⟩
    obtain ⟨hitemPlain, hrestPlain⟩ := List.forall_mem_cons.mp hplain
    obtain ⟨e, he⟩ := hcolumn hitemPlain
    rw [hmain hrestPlain, he]
    simp

/-! ### Projections of a select list -/

/-- The projections of a select list keep names apart, and the topmost one has the names of the
items. -/
structure NamesItems (items : List Item) (inner : Option Layer) (main : Projection)
    (outer : Option Projection) : Prop where
  shown : (outer.getD main).aliases = items.map Item.name
  inner : ∀ layer ∈ inner, layer.Apart
  main : main.Apart
  outer : ∀ p ∈ outer, p.Apart

theorem ItemsApart.names {items : List Item} (h : ItemsApart items) :
    (items.map Item.name).Pairwise fun a b => Ascii.same a b = false :=
  List.pairwise_map.mpr h

theorem aliases_published (columns : List PublishedColumn) :
    (Projection.groupBy columns).aliases = columns.map PublishedColumn.name := by
  simp [Projection.aliases, Projection.columns, Function.comp_def]

theorem group_names {aliases : AliasSet} {items : List Item} (hapart : ItemsApart items)
    (htaken : ∀ item ∈ items, aliases.isFree item.name = false) :
    NamesItems items (group aliases items).1 (group aliases items).2.1 (group aliases items).2.2 := by
  let start : Grouping :=
    ⟨aliases, if items.any fun item => !item.expr.hasAggregate && !item.isColumn then some .empty
      else none, []⟩
  have hstart : Awaits items start := by
    refine ⟨⟨fun layer hlayer => ?_, .nil, fun _ hc => by cases hc⟩, htaken, fun _ _ _ hc => by cases hc⟩
    obtain ⟨-, hlayer⟩ := Option.ite_none_right_eq_some.mp hlayer
    cases hlayer
    exact Layer.sound_empty _
  obtain ⟨hsound, hnames, hmain⟩ := groupItems_awaits hapart hstart
  have hgroup : group aliases items = ((items.mapM groupItem start).2.inner,
      .groupBy (items.mapM groupItem start).2.main,
      if items.any Item.isMixed then some (.virtual (items.mapM groupItem start).1) else none) :=
    rfl
  rw [hgroup]
  refine ⟨?_, hsound.inner, ?_, fun p hp => ?_⟩
  · cases hneeds : items.any Item.isMixed with
    | true => exact (aliases_published _).trans hnames
    | false =>
      refine (aliases_published _).trans (hmain fun item hitem => ?_)
      exact Bool.eq_false_iff.mpr fun hmixed => List.any_eq_false.mp hneeds item hitem hmixed
  · rw [Projection.Apart, aliases_published]
    exact List.pairwise_map.mpr hsound.apart
  · obtain ⟨-, hp⟩ := Option.ite_none_right_eq_some.mp hp
    cases hp
    have haliases : (Projection.virtual (items.mapM groupItem start).1).aliases =
        items.map Item.name := (aliases_published _).trans hnames
    rw [Projection.Apart, haliases]
    exact hapart.names

theorem windowItem_keeps (item : Item) :
    Keeps Layer.Apart (windowItem item) fun c => c.name = item.name := by
  rw [windowItem_eq]
  refine .map (R := fun read => read.name = item.name) ?_ fun _ h => h
  split
  · exact Item.publish_keeps (Layer.publish_keeps _ _)
  · exact Item.carry_keeps fun e _ => Layer.carry_keeps e

theorem analyze_names {items : List Item} (hapart : ItemsApart items) :
    NamesItems items (analyze items).1 (analyze items).2 none := by
  have hcolumns : ∀ columns : List WindowedColumn,
      columns.map WindowedColumn.name = items.map Item.name →
        (Projection.analytic columns).Apart ∧
          (Projection.analytic columns).aliases = items.map Item.name := by
    intro columns hnames
    have haliases : (Projection.analytic columns).aliases = items.map Item.name := by
      rw [← hnames]
      simp [Projection.aliases, Projection.columns, Function.comp_def]
    exact ⟨by rw [Projection.Apart, haliases]; exact hapart.names, haliases⟩
  unfold analyze
  split
  · have hrun : Keeps Layer.Apart (items.mapM windowItem)
        (List.Forall₂ (fun item c => c.name = item.name) items) :=
      Keeps.mapM fun item _ => windowItem_keeps item
    obtain ⟨hlayer, hnames⟩ := hrun Layer.empty (Layer.sound_empty _)
    obtain ⟨hmain, hshown⟩ := hcolumns _ (map_name_of_forall₂ hnames)
    refine ⟨hshown, ?_, hmain, ?_⟩
    · rintro layer ⟨⟩
      exact hlayer
    · intro p hp
      cases hp
  · obtain ⟨hmain, hshown⟩ := hcolumns (items.map fun item => ⟨item.name, item.expr, item.window⟩)
      (by simp)
    refine ⟨hshown, ?_, hmain, ?_⟩
    · intro layer hlayer
      cases hlayer
    · intro p hp
      cases hp

theorem project_names (aggregate analytic plain : Bool) {aliases : AliasSet} {items : List Item}
    (hapart : ItemsApart items) (htaken : ∀ item ∈ items, aliases.isFree item.name = false) :
    NamesItems items (project aggregate analytic plain aliases items).1
      (project aggregate analytic plain aliases items).2.1
      (project aggregate analytic plain aliases items).2.2 := by
  unfold project
  split
  · exact group_names hapart htaken
  · split
    · exact analyze_names hapart
    · have haliases : ∀ p : List PublishedColumn → Projection,
          (∀ columns, (p columns).aliases = columns.map PublishedColumn.name) →
            (p (items.map fun item => ⟨item.name, item.expr⟩)).aliases = items.map Item.name := by
        intro p hp
        simp [hp]
      have hmain : (if plain
            then Projection.choose (items.map fun item => ⟨item.name, item.expr⟩)
            else .virtual (items.map fun item => ⟨item.name, item.expr⟩)).aliases =
          items.map Item.name := by
        split
        · exact haliases .choose aliases_published
        · exact haliases .virtual aliases_published
      refine ⟨hmain, fun _ h => (nomatch h), ?_, fun _ h => (nomatch h)⟩
      rw [Projection.Apart, hmain]
      exact hapart.names

end Select

/-! ### The layers of a level -/

namespace Layers

/-- Every layer keeps names apart, and the rows have the names of the items unless a last
projection sees to it. -/
structure Apart (l : Layers) : Prop where
  naming : ∀ layer ∈ l.naming, layer.Apart
  inner : ∀ layer ∈ l.inner, layer.Apart
  main : l.main.Apart
  outer : ∀ p ∈ l.outer, p.Apart
  items : (l.items.map Prod.fst).Pairwise fun a b => Ascii.same a b = false
  shown : l.wrap = false → l.top.aliases = l.items.map Prod.fst

open Select in
theorem IsLayout.apart_layers {select : SelectClause} {scope : Scope} {key : Option Expr} {l : Layers}
    (h : l.IsLayout select scope key) : l.Apart := by
  obtain ⟨-, hapart, htaken⟩ : _ ∧ ItemsApart (named select key).1 ∧ _ := named_spec h.given
  have hlaid : (laidOut select key).map Item.name = (named select key).1.map Item.name ∧
      ∀ layer ∈ (laid select key).2, layer.Apart := by
    unfold laidOut laid
    extract_lets items
    split
    · exact renameItems_apart items
    · exact ⟨rfl, fun _ h => (nomatch h)⟩
  obtain ⟨hnames, hnaming⟩ := hlaid
  have hprojections := project_names select.hasAggregate
    ((named select key).1.any fun item => item.window.isSome)
    ((named select key).1.all Item.isColumn) (hapart.of_names hnames) (taken_of_names htaken hnames)
  rw [← h.projections] at hprojections
  have hitems : l.items.map Prod.fst = (named select key).1.map Item.name := by
    simp [h.items, Function.comp_def]
  refine ⟨h.naming ▸ hnaming, hprojections.inner, hprojections.main, hprojections.outer, ?_,
    fun _ => ?_⟩
  · rw [hitems]
    exact hapart.names
  · rw [hitems, ← hnames]
    exact hprojections.shown

variable {l : Layers}

theorem Apart.bringUp (h : l.Apart) (e : Expr) : (l.bringUp e).2.Apart :=
  ⟨Layer.carryThrough_apart h.naming e, Layer.carryThrough_apart h.inner _, h.main, h.outer, h.items,
    h.shown⟩

theorem copyOf_apart {p : Projection} (h : p.Apart) : (copyOf p).Apart where
  apart := by
    rw [Projection.Apart, Projection.aliases, List.pairwise_map] at h
    exact List.pairwise_map.mpr h
  taken := by
    intro c hc
    obtain ⟨column, hcolumn, rfl⟩ := List.mem_map.mp hc
    exact AliasSet.taken_ofList (List.mem_map_of_mem hcolumn)
  honest c _ := c.expr.honest_unknown

theorem Apart.hiddenInput (h : l.Apart) (e : Expr) : (l.hiddenInput e).2.Apart := by
  unfold Layers.hiddenInput
  split
  · refine ⟨?_, h.inner, h.main, h.outer, h.items, h.shown⟩
    rintro layer ⟨⟩
    exact (Layer.forward_keeps e _ (copyOf_apart h.main)).1
  · exact h.bringUp e

/-- A hidden column gets a name of its own. -/
theorem Apart.publishHidden (h : l.Apart) (e : Expr) : (l.publishHidden e).2.Apart := by
  unfold Layers.publishHidden
  split
  · exact h
  · split
    · exact h
    · have hinput := h.hiddenInput e
      have hmain : (l.hiddenInput e).2.main = l.main := by
        unfold Layers.hiddenInput
        split <;> rfl
      refine ⟨hinput.naming, hinput.inner, ?_, hinput.outer, hinput.items, fun h => by cases h⟩
      refine Projection.apart_push hinput.main ?_ _
      rw [hmain]
      exact AliasSet.isFree_freeName _ _

end Layers

namespace Clause

variable {scope : Scope} {l t : Layers}

/-- An order keeps names apart, and the names of the items. -/
theorem apart_orderLayers {maxColumns : Nat} {items : List OrderItem} (hl : l.Apart)
    (h : orderLayers scope maxColumns items l = .ok t) : t.Apart ∧ t.items = l.items :=
  orderLayers_keeps (P := fun t => t.Apart ∧ t.items = l.items)
    (fun _ _ h => ⟨h.1.publishHidden _, (Layers.publishHidden_within _ _).items.trans h.2⟩)
    (fun _ h => ⟨⟨h.1.naming, h.1.inner, h.1.main, h.1.outer, h.1.items, h.1.shown⟩, h.2⟩)
    ⟨hl, rfl⟩ h

end Clause

end SeriesQuery
