import SeriesQuery.Proofs.Positions.Model
import SeriesQuery.Proofs.Positions.Placement
import SeriesQuery.Proofs.Select.Grouping

/-!
Select lists without positions.

The layers of a select list are grown without a look at positions (`Layers.ofSelect_forgets`), and
so are the hidden columns that an order adds (`Layers.publishHidden_erase`).
-/

namespace SeriesQuery

open Forgetful

/-! ### Layers that grow -/

namespace Layer

/-- A layer without positions. -/
def erase (layer : Layer) : Layer :=
  ⟨layer.columns.map PublishedColumn.erase, layer.aliases⟩

instance : Erasable Layer := ⟨erase⟩

theorem publish_forgets (base : String) (e : Expr) :
    Forgets Expr.erase (publish base e) (publish base e.erase) := by
  intro layer
  have hcolumns : erase ⟨layer.columns ++ [⟨layer.aliases.freeName base, e⟩],
        layer.aliases.insert (layer.aliases.freeName base)⟩ =
      ⟨layer.erase.columns ++ [⟨layer.aliases.freeName base, e.erase⟩],
        layer.aliases.insert (layer.aliases.freeName base)⟩ := by
    simp [erase, PublishedColumn.erase]
  have hposition := e.position_erase
  exact congrArg₂ Prod.mk (congrArg _ hposition) hcolumns.symm

theorem forward_forgets (e : Expr) : Forgets Expr.erase (forward e) (forward e.erase) := by
  refine bind Forgets.get fun layer => ?_
  have hfind : (Erasable.erase layer).columns.find? (fun c => c.expr.sameText e.erase) =
      (layer.columns.find? fun c => c.expr.sameText e).map PublishedColumn.erase := by
    simp [Erasable.erase, erase, List.find?_map, Function.comp_def, PublishedColumn.erase]
  simp only [hfind]
  cases layer.columns.find? fun c => c.expr.sameText e with
  | none =>
    simp only [Option.map_none, Expr.defaultName_erase]
    exact publish_forgets _ e
  | some c =>
    simp only [Option.map_some, Expr.position_erase]
    exact pure Expr.erase (reference c.name e.position)

theorem carry_forgets (e : Expr) : Forgets Expr.erase (carry e) (carry e.erase) :=
  Forgets.replaceColumnsM (fun ref position => forward_forgets (.column ref position)) e

theorem carryOrderItem_forgets (item : OrderItem) :
    Forgets OrderItem.erase (carryOrderItem item) (carryOrderItem item.erase) :=
  bind (carry_forgets item.expr) fun e => pure OrderItem.erase ⟨e, item.descending⟩

theorem carryWindow_forgets (w : Window) :
    Forgets Window.erase (carryWindow w) (carryWindow w.erase) := by
  refine bind (Forgets.mapM fun e _ => carry_forgets e) fun partitionBy => ?_
  refine bind (Forgets.mapM fun item _ => carryOrderItem_forgets item) fun orderBy => ?_
  exact pure Window.erase ⟨partitionBy, orderBy⟩

theorem changesNothing_erase (layer : Layer) :
    layer.erase.changesNothing = layer.changesNothing := by
  have hkeeps : ∀ c : PublishedColumn, c.erase.keepsName = c.keepsName := by
    intro c
    simp [PublishedColumn.keepsName, PublishedColumn.erase]
  simp [changesNothing, erase, Function.comp_def, hkeeps]

theorem carryThrough_erase (layer : Option Layer) (e : Expr) :
    carryThrough (layer.map erase) e.erase =
      (carryThrough layer e).map Expr.erase (Option.map erase) := by
  cases layer with
  | none => rfl
  | some layer =>
    have hcarry : carry e.erase layer.erase = (carry e layer).map Expr.erase erase :=
      carry_forgets e layer
    simp only [carryThrough, Option.map_some, StateT.run, hcarry]
    rfl

end Layer

/-! ### The select list as written -/

namespace SelectClause

theorem resolveAll_forgets (scope : Scope) (es : List Expr) :
    Forgets id (resolveAll scope es) (resolveAll scope (es.map Expr.erase)) := by
  induction es with
  | nil => rfl
  | cons e es ih =>
    simp only [List.map_cons, resolveAll, (scope.sourcesIn_forgets e).eq, ih.eq]
    cases scope.sourcesIn e <;> rfl

theorem itemExprs_erase (item : SelectItem) :
    itemExprs item.erase = (itemExprs item).map Expr.erase := by
  obtain ⟨e, givenName, _ | w⟩ := item
  · rfl
  · simp [itemExprs, SelectItem.erase, Window.erase, OrderItem.erase, Function.comp_def]

theorem explicitAliases_forgets (names : List Ident) (taken : AliasSet) :
    Forgets id (explicitAliases names taken) (explicitAliases (names.map Ident.erase) taken) := by
  induction names generalizing taken with
  | nil => rfl
  | cons name names ih => exact Forgets.ite (ih _) (Forgets.fail _ _)

theorem takenAliases_forgets (select : SelectClause) :
    Forgets id select.takenAliases select.erase.takenAliases := by
  have hnames : select.erase.items.filterMap SelectItem.givenName =
      (select.items.filterMap SelectItem.givenName).map Ident.erase := by
    simp [erase, List.filterMap_map, List.map_filterMap, Function.comp_def, SelectItem.erase]
  rw [takenAliases, takenAliases, hnames]
  exact explicitAliases_forgets _ _

theorem isAnalytic_erase (select : SelectClause) : select.erase.isAnalytic = select.isAnalytic := by
  simp [isAnalytic, erase, Function.comp_def, SelectItem.erase]

theorem hasAggregate_erase (select : SelectClause) :
    select.erase.hasAggregate = select.hasAggregate := by
  simp [hasAggregate, erase, Function.comp_def, SelectItem.erase]

theorem resolve_forgets (select : SelectClause) (scope : Scope) :
    Forgets id (select.resolve scope) (select.erase.resolve scope) := by
  have hexprs : select.erase.items.flatMap itemExprs =
      (select.items.flatMap itemExprs).map Expr.erase := by
    simp [erase, List.flatMap_map, List.map_flatMap, itemExprs_erase]
  unfold resolve
  rw [hexprs, isAnalytic_erase, hasAggregate_erase]
  refine bind (resolveAll_forgets scope _) fun _ => ?_
  refine bind (takenAliases_forgets select) fun _ => ?_
  extract_lets rest
  exact Forgets.ite (bind (g := id) (Forgets.fail _ _) fun _ => rfl) rfl

end SelectClause

namespace Select

/-! ### Items under their names -/

/-- An item of a select list without positions. -/
def Item.erase (item : Item) : Item :=
  ⟨item.name, item.expr.erase, item.window.map Window.erase⟩

theorem Item.isColumn_erase (item : Item) : item.erase.isColumn = item.isColumn := by
  simp [isColumn, erase]

/-- Names have no positions. -/
instance : Erasable AliasSet := ⟨id⟩

theorem nameItem_forgets (item : SelectItem) :
    Forgets Item.erase (nameItem item) (nameItem item.erase) := by
  obtain ⟨e, _ | given, window⟩ := item
  · intro taken
    have hname := e.defaultName_erase
    rw [nameItem_eq, nameItem_eq]
    simp only [SelectItem.erase, Option.map_none, hname]
    rfl
  · exact pure Item.erase ⟨given.name, e, window⟩

theorem nameItems_forgets (key : Option Expr) (items : List SelectItem) :
    Forgets (List.map Item.erase) (nameItems key items)
      (nameItems (key.map Expr.erase) (items.map SelectItem.erase)) := by
  have hkeys : (key.map Expr.erase).toList = key.toList.map Expr.erase := by cases key <;> rfl
  unfold nameItems
  rw [hkeys]
  refine bind (Forgets.mapM fun key _ => nameItem_forgets ⟨key, none, none⟩) fun keys => ?_
  refine bind (Forgets.mapM fun item _ => nameItem_forgets item) fun items => ?_
  rw [← List.map_append]
  exact pure _ (keys ++ items)

/-! ### The naming layer -/

theorem rename_forgets (item : Item) : Forgets Item.erase (rename item) (rename item.erase) := by
  obtain ⟨name, e, window⟩ := item
  have hrenamed : ((window.map Window.erase).isNone && e.erase.column?.any fun ref => ref.name != name) =
      (window.isNone && e.column?.any fun ref => ref.name != name) := by
    simp
  unfold rename
  simp -zeta only [Item.erase, hrenamed]
  extract_lets renamed rest rest'
  have hrest : ∀ e, Forgets Item.erase (rest e) (rest' e.erase) := by
    intro e
    cases window with
    | none => exact pure Item.erase ⟨name, e, none⟩
    | some w =>
      refine Forgetful.bind (g := Option.map Window.erase) ?_ fun w => pure Item.erase ⟨name, e, w⟩
      exact (Layer.carryWindow_forgets w).map fun _ => rfl
  exact Forgets.ite (Forgetful.bind (Layer.publish_forgets name e) hrest)
    (Forgetful.bind (Layer.carry_forgets e) hrest)

theorem renameItems_erase (items : List Item) :
    renameItems (items.map Item.erase) =
      (renameItems items).map (List.map Item.erase) (Option.map Layer.erase) := by
  have hrename : (items.map Item.erase).mapM rename Layer.empty =
      (items.mapM rename Layer.empty).map (List.map Item.erase) Layer.erase :=
    Forgets.mapM (fun item _ => rename_forgets item) Layer.empty
  unfold renameItems
  rcases hrun : items.mapM rename Layer.empty with ⟨renamed, layer⟩
  simp only [StateT.run, hrename, hrun, Prod.map_apply, Layer.changesNothing_erase]
  split <;> rfl

/-! ### Groups -/

/-- A grouping without positions. -/
def Grouping.erase (g : Grouping) : Grouping :=
  ⟨g.aliases, g.inner.map Layer.erase, g.main.map PublishedColumn.erase⟩

instance : Erasable Grouping := ⟨Grouping.erase⟩

theorem carryInner_forgets (e : Expr) :
    Forgets Expr.erase (carryInner e) (carryInner e.erase) := by
  intro g
  have hcarry : Layer.carryThrough g.erase.inner e.erase =
      (Layer.carryThrough g.inner e).map Expr.erase (Option.map Layer.erase) :=
    Layer.carryThrough_erase g.inner e
  simp only [carryInner_eq, Erasable.erase, hcarry]
  rfl

theorem addMain_forgets (name : String) (e : Expr) :
    Forgets id (addMain name e) (addMain name e.erase) := by
  intro g
  have hmain : Grouping.erase { g with main := g.main ++ [⟨name, e⟩] } =
      { g.erase with main := g.erase.main ++ [⟨name, e.erase⟩] } := by
    simp [Grouping.erase, PublishedColumn.erase]
  exact congrArg (Prod.mk PUnit.unit) hmain.symm

theorem liftCall_forgets (call : Expr) :
    Forgets Expr.erase (liftCall call) (liftCall call.erase) := by
  refine bind Forgets.get fun g => ?_
  have haliases : (Erasable.erase g).aliases = g.aliases := rfl
  simp only [haliases, Expr.defaultName_erase, Expr.position_erase]
  refine bind (Forgets.set _) fun _ => ?_
  refine bind (carryInner_forgets call) fun e => ?_
  exact bind (addMain_forgets _ e) fun _ => pure Expr.erase (Layer.reference _ call.position)

theorem liftAggregates_forgets (e : Expr) :
    Forgets Expr.erase (liftAggregates e) (liftAggregates e.erase) := by
  refine Forgets.replaceM (fun part => ?_) e
  simp only [Expr.isAggregate_erase]
  split
  · exact .some (liftCall_forgets part)
  · exact .none

theorem keyInput_forgets (item : Item) :
    Forgets Expr.erase (keyInput item) (keyInput item.erase) := by
  refine bind Forgets.get fun g => ?_
  have hinner : (Erasable.erase g).inner = g.inner.map Layer.erase := rfl
  simp only [hinner]
  cases g.inner with
  | none => exact pure Expr.erase item.expr
  | some layer =>
    have henter : Forgets Expr.erase
        (if item.isColumn then Layer.forward item.expr else Layer.publish item.name item.expr)
        (if item.erase.isColumn then Layer.forward item.erase.expr
          else Layer.publish item.erase.name item.erase.expr) := by
      rw [Item.isColumn_erase]
      exact Forgets.ite (Layer.forward_forgets _) (Layer.publish_forgets _ _)
    have hrun : (if item.erase.isColumn then Layer.forward item.erase.expr
          else Layer.publish item.erase.name item.erase.expr) layer.erase =
        ((if item.isColumn then Layer.forward item.expr
          else Layer.publish item.name item.expr) layer).map Expr.erase Layer.erase :=
      henter layer
    simp only [Option.map_some, StateT.run, hrun]
    exact bind (Forgets.set _) fun _ => pure Expr.erase _

theorem groupItem_forgets (item : Item) :
    Forgets PublishedColumn.erase (groupItem item) (groupItem item.erase) := by
  unfold groupItem
  have hexpr : item.erase.expr = item.expr.erase := rfl
  have hname : item.erase.name = item.name := rfl
  simp only [hexpr, hname, Expr.isAggregate_erase, Expr.hasAggregate_erase,
    Expr.position_erase]
  refine Forgets.ite ?_ (Forgets.ite ?_ ?_)
  · refine bind (carryInner_forgets _) fun e => ?_
    refine bind (addMain_forgets _ e) fun _ => ?_
    exact pure PublishedColumn.erase ⟨item.name, Layer.reference item.name item.expr.position⟩
  · refine bind (liftAggregates_forgets _) fun e => ?_
    exact pure PublishedColumn.erase ⟨item.name, e⟩
  · refine bind (keyInput_forgets _) fun e => ?_
    refine bind (addMain_forgets _ e) fun _ => ?_
    exact pure PublishedColumn.erase ⟨item.name, Layer.reference item.name item.expr.position⟩

/-- The layers of a laid out select list without positions. -/
def eraseParts (parts : Option Layer × Projection × Option Projection) :
    Option Layer × Projection × Option Projection :=
  (parts.1.map Layer.erase, parts.2.1.erase, parts.2.2.map Projection.erase)

theorem group_erase (aliases : AliasSet) (items : List Item) :
    group aliases (items.map Item.erase) = eraseParts (group aliases items) := by
  have hinner : ((items.map Item.erase).any fun item => !item.expr.hasAggregate && !item.isColumn) =
      items.any fun item => !item.expr.hasAggregate && !item.isColumn := by
    have hitem : ∀ item : Item, item.erase.expr = item.expr.erase := fun _ => rfl
    simp only [List.any_map, Function.comp_def, Item.isColumn_erase, hitem, Expr.hasAggregate_erase]
  have houter : ((items.map Item.erase).any fun item =>
        item.expr.hasAggregate && !item.expr.isAggregate) =
      items.any fun item => item.expr.hasAggregate && !item.expr.isAggregate := by
    simp [Function.comp_def, Item.erase]
  unfold group
  rw [hinner, houter]
  extract_lets needsInner needsOuter start
  have hstart : start.erase = start := by
    simp only [start, Grouping.erase]
    cases needsInner <;> rfl
  have hgroup : (items.map Item.erase).mapM groupItem start.erase =
      (items.mapM groupItem start).map (List.map PublishedColumn.erase) Grouping.erase :=
    Forgets.mapM (fun item _ => groupItem_forgets item) start
  rw [hstart] at hgroup
  rcases hrun : items.mapM groupItem start with ⟨outer, g⟩
  simp only [StateT.run, hgroup, hrun, Prod.map_apply]
  cases needsOuter <;> rfl

/-! ### Window functions -/

theorem windowItem_forgets (item : Item) :
    Forgets WindowedColumn.erase (windowItem item) (windowItem item.erase) := by
  obtain ⟨name, e, _ | w⟩ := item
  · have herase : (⟨name, e, none⟩ : Item).erase.window = none ∧
        (⟨name, e, none⟩ : Item).erase.name = name ∧
        (⟨name, e, none⟩ : Item).erase.expr = e.erase := ⟨rfl, rfl, rfl⟩
    simp -zeta only [windowItem, Item.isColumn_erase, herase]
    extract_lets rest
    have hrest : ∀ e, Forgets WindowedColumn.erase (rest e) (rest e.erase) :=
      fun e => pure WindowedColumn.erase ⟨name, e, none⟩
    exact Forgets.ite (bind (Layer.forward_forgets e) hrest)
      (bind (Layer.publish_forgets name e) hrest)
  · refine bind (Layer.carry_forgets e) fun e => ?_
    refine bind (Layer.carryWindow_forgets w) fun w => ?_
    exact pure WindowedColumn.erase ⟨name, e, some w⟩

theorem analyze_erase (items : List Item) :
    analyze (items.map Item.erase) =
      ((analyze items).1.map Layer.erase, (analyze items).2.erase) := by
  have hinner : ((items.map Item.erase).any fun item => item.window.isNone && !item.isColumn) =
      items.any fun item => item.window.isNone && !item.isColumn := by
    have hitem : ∀ item : Item, item.erase.window = item.window.map Window.erase := fun _ => rfl
    simp only [List.any_map, Function.comp_def, Item.isColumn_erase, hitem, Option.isNone_map]
  have hwindows : (items.map Item.erase).mapM windowItem Layer.empty =
      (items.mapM windowItem Layer.empty).map (List.map WindowedColumn.erase) Layer.erase :=
    Forgets.mapM (fun item _ => windowItem_forgets item) Layer.empty
  unfold analyze
  rw [hinner]
  split
  · rcases hrun : items.mapM windowItem Layer.empty with ⟨columns, layer⟩
    simp only [StateT.run, hwindows, hrun, Prod.map_apply]
    rfl
  · simp [Projection.erase, WindowedColumn.erase, Item.erase, Function.comp_def]

/-! ### The whole list -/

theorem project_erase (aggregate analytic plain : Bool) (aliases : AliasSet) (items : List Item) :
    project aggregate analytic plain aliases (items.map Item.erase) =
      eraseParts (project aggregate analytic plain aliases items) := by
  cases aggregate with
  | true => exact group_erase aliases items
  | false =>
    cases analytic with
    | true =>
      simp only [project, Bool.false_eq_true, if_false, if_true, analyze_erase]
      rfl
    | false =>
      have hcolumns : (items.map Item.erase).map
            (fun item => (⟨item.name, item.expr⟩ : PublishedColumn)) =
          (items.map fun item => (⟨item.name, item.expr⟩ : PublishedColumn)).map
            PublishedColumn.erase := by
        simp [Item.erase, PublishedColumn.erase, Function.comp_def]
      simp only [project, Bool.false_eq_true, if_false, hcolumns]
      cases plain <;> rfl

end Select

/-! ### The layers of a level -/

namespace Layers

/-- Layers without positions. -/
def erase (l : Layers) : Layers where
  naming := l.naming.map Layer.erase
  inner := l.inner.map Layer.erase
  main := l.main.erase
  outer := l.outer.map Projection.erase
  items := l.items.map (Prod.map id Expr.erase)
  wrap := l.wrap
  timestamp := l.timestamp.map Expr.erase
  sampleBy := l.sampleBy.map Expr.erase
  orderBy := l.orderBy.map OrderItem.erase
  limit := l.limit.map Limit.erase

theorem ofSelect_forgets (select : SelectClause) (scope : Scope) (key : Option Expr) :
    Forgets erase (ofSelect select scope key)
      (ofSelect select.erase scope (key.map Expr.erase)) := by
  unfold ofSelect
  refine bind (select.resolve_forgets scope) fun aggregate => ?_
  refine bind select.takenAliases_forgets fun explicit => ?_
  have hnamed : Select.nameItems (key.map Expr.erase) select.erase.items explicit =
      (Select.nameItems key select.items explicit).map (List.map Select.Item.erase) id :=
    Select.nameItems_forgets key select.items explicit
  rcases hrun : Select.nameItems key select.items explicit with ⟨named, aliases⟩
  rw [hrun] at hnamed
  have hanalytic : ((named.map Select.Item.erase).any fun item => item.window.isSome) =
      named.any fun item => item.window.isSome := by
    simp [Select.Item.erase, Function.comp_def]
  have hplain : (named.map Select.Item.erase).all Select.Item.isColumn =
      named.all Select.Item.isColumn := by
    simp only [List.all_map, Function.comp_def, Select.Item.isColumn_erase]
  have hitems : (named.map Select.Item.erase).map (fun item => (item.name, item.expr)) =
      (named.map fun item => (item.name, item.expr)).map (Prod.map id Expr.erase) := by
    simp [Select.Item.erase, Function.comp_def]
  simp only [id_eq, StateT.run, hnamed, hrun, Prod.map_apply, hanalytic, hplain, hitems]
  generalize (named.any fun item => item.window.isSome) = analytic
  generalize named.all Select.Item.isColumn = plain
  have hnaming : (if aggregate || analytic || !plain
        then Select.renameItems (named.map Select.Item.erase)
        else (named.map Select.Item.erase, none)) =
      (if aggregate || analytic || !plain then Select.renameItems named else (named, none)).map
        (List.map Select.Item.erase) (Option.map Layer.erase) := by
    rw [Select.renameItems_erase]
    split <;> rfl
  rw [hnaming]
  generalize (if aggregate || analytic || !plain then Select.renameItems named else (named, none)) =
    renamed
  obtain ⟨items, naming⟩ := renamed
  simp only [Prod.map_apply, Select.project_erase]
  generalize Select.project aggregate analytic plain aliases items = parts
  obtain ⟨inner, main, outer⟩ := parts
  refine congrArg Except.ok ?_
  cases key with
  | none => rfl
  | some key => simp [erase, Select.eraseParts, Option.map_map, Function.comp_def]

/-! ### Columns that an order adds -/

@[simp] theorem top_erase (l : Layers) : l.erase.top = l.top.erase := by
  unfold top erase
  cases l.outer <;> rfl

@[simp] theorem combinesRows_erase (l : Layers) : l.erase.combinesRows = l.combinesRows := by
  simp [combinesRows, erase]

@[simp] theorem publishedName?_erase (l : Layers) (ref : ColumnRef) :
    l.erase.publishedName? ref = l.publishedName? ref := by
  have hcolumn : l.erase.items.find? (fun item =>
        item.2.column?.any fun written => Ascii.same written.text ref.text) =
      (l.items.find? fun item =>
        item.2.column?.any fun written => Ascii.same written.text ref.text).map
          (Prod.map id Expr.erase) := by
    simp only [erase, List.find?_map, Function.comp_def, Prod.map_snd, Expr.column?_erase]
  unfold publishedName?
  rw [hcolumn, top_erase, Projection.aliases_erase]
  cases l.items.find? _ <;> rfl

theorem bringUp_erase (l : Layers) (e : Expr) :
    l.erase.bringUp e.erase = (l.bringUp e).map Expr.erase erase := by
  have hnaming := Layer.carryThrough_erase l.naming e
  have hinner := Layer.carryThrough_erase l.inner (Layer.carryThrough l.naming e).1
  have hparts : l.erase.naming = l.naming.map Layer.erase ∧
      l.erase.inner = l.inner.map Layer.erase := ⟨rfl, rfl⟩
  simp only [bringUp, hparts, hnaming, Prod.map_apply, Prod.map_fst, hinner]
  rfl

theorem copyOf_erase (p : Projection) : copyOf p.erase = (copyOf p).erase := by
  simp [copyOf, Layer.erase, PublishedColumn.erase, Function.comp_def]

theorem hiddenInput_erase (l : Layers) (e : Expr) :
    l.erase.hiddenInput e.erase = (l.hiddenInput e).map Expr.erase erase := by
  have hcopy : Layer.forward e.erase (copyOf l.main).erase =
      (Layer.forward e (copyOf l.main)).map Expr.erase Layer.erase :=
    Layer.forward_forgets e (copyOf l.main)
  have hbring := bringUp_erase l e
  obtain ⟨_ | naming, inner, main, outer, items, wrap, timestamp, sampleBy, orderBy, limit⟩ := l
  · cases main with
    | virtual columns =>
      have hmain : (Projection.virtual columns).erase =
        .virtual (columns.map PublishedColumn.erase) := rfl
      rw [← copyOf_erase, hmain] at hcopy
      simp only [hiddenInput, erase, Option.map_none, hmain, StateT.run, hcopy]
      rfl
    | choose _ => exact hbring
    | groupBy _ => exact hbring
    | analytic _ => exact hbring
  · exact hbring

theorem publishHidden_erase (l : Layers) (e : Expr) :
    l.erase.publishHidden e.erase = (l.publishHidden e).map id erase := by
  have houter : l.erase.outer.isSome = l.outer.isSome := by simp [erase]
  have hfind : l.erase.main.columns.find? (fun c => c.2.sameText e.erase) =
      (l.main.columns.find? fun c => c.2.sameText e).map (Prod.map id Expr.erase) := by
    simp only [erase, Projection.columns_erase, List.find?_map, Function.comp_def, Prod.map_snd,
      Expr.sameText_erase]
  unfold publishHidden
  rw [combinesRows_erase, houter, hfind]
  split
  · rfl
  · cases l.main.columns.find? fun c => c.2.sameText e with
    | some c => rfl
    | none =>
      rcases hrun : l.hiddenInput e with ⟨routed, l'⟩
      have hinput := hiddenInput_erase l e
      rw [hrun] at hinput
      have hmain : l.erase.main.aliases = l.main.aliases := Projection.aliases_erase l.main
      simp only [Option.map_none, hinput, Prod.map_apply, Expr.defaultName_erase]
      simp [erase]

/-! ### Layers on a row source -/

theorem stack_erase (projection : Option Projection) (m : Model) :
    (stack projection m).erase = stack (projection.map Projection.erase) m.erase := by
  cases projection <;> rfl

theorem visible_erase (l : Layers) : l.erase.visible = l.visible.erase := by
  simp [visible, erase, Projection.erase, PublishedColumn.erase, Layer.reference, Function.comp_def,
    Expr.erase]

theorem onto_erase (l : Layers) (body : Model) : (l.onto body).erase = l.erase.onto body.erase := by
  have hnaming : (l.naming.map fun layer => Projection.choose layer.columns).map Projection.erase =
      l.erase.naming.map fun layer => .choose layer.columns := by
    simp [erase, Projection.erase, Layer.erase, Function.comp_def]
  have hinner : (l.inner.map fun layer => Projection.virtual layer.columns).map Projection.erase =
      l.erase.inner.map fun layer => .virtual layer.columns := by
    simp [erase, Projection.erase, Layer.erase, Function.comp_def]
  have hselect : ∀ (p : Projection) (m : Model), (Model.select p m).erase = .select p.erase m.erase :=
    fun _ _ => rfl
  have hmain : ∀ m : Model, ({ m with timestamp := l.timestamp, sampleBy := l.sampleBy }).erase =
      { m.erase with timestamp := l.erase.timestamp, sampleBy := l.erase.sampleBy } := by
    rintro ⟨⟩
    rfl
  have htop : ∀ m : Model, ({ m with orderBy := l.orderBy, limit := l.limit }).erase =
      { m.erase with orderBy := l.erase.orderBy, limit := l.erase.limit } := by
    rintro ⟨⟩
    rfl
  have hwrap : l.erase.wrap = l.wrap := rfl
  unfold onto
  rw [hwrap, visible_erase]
  split
  · simp only [hselect, htop, hmain, stack_erase, hnaming, hinner]
    rfl
  · simp only [hselect, htop, hmain, stack_erase, hnaming, hinner]
    rfl

end Layers

end SeriesQuery
