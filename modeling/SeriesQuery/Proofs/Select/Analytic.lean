import SeriesQuery.Proofs.Select.RowWise
import SeriesQuery.Proofs.Select.Spelled

/-!
What the layers of a select list with window functions compute.

Computed items without a window stand in an inner layer, and every other column is carried through
it by its text. A column is lost to a computed item that is spelled like it and comes first, as the
constant `true` does for a column that is named `true`: with what the layers publish put in the place
of their references, the analytic projection is the list as it is written if and only if no item comes
first in this way (`Layers.analytic_computes_iff`).
-/

namespace SeriesQuery

open Select Layers

namespace Select

/-! ### What items bring to the inner layer -/

/-- The expressions that an item brings to the inner layer: itself if it is computed there, else its
references and those of its window. -/
def Item.brought (item : Item) : List Expr :=
  if item.isComputed then [item.expr] else item.exprs.flatMap Expr.columnExprs

/-- Of the expressions that items bring to the inner layer, the first one with the text of a reference
is a column. -/
def ColumnsFirst (items : List Item) : Prop :=
  ∀ e ∈ items.flatMap Item.brought, e.column?.isSome →
    ∀ first ∈ (items.flatMap Item.brought).find? fun other => other.text == e.text,
      first.column?.isSome

instance (items : List Item) : Decidable (ColumnsFirst items) :=
  inferInstanceAs (Decidable (∀ e ∈ items.flatMap Item.brought, _))

/-- A layer has what items bring to it, where what came first is found first. -/
def IsFilledBy (layer : Layer) (items : List Item) : Prop :=
  ∀ text, layer.spelled? text = (items.flatMap Item.brought).find? fun e => e.text == text

theorem windowItem_brings (item : Item) : Layer.Brings (windowItem item) item.brought := by
  rw [windowItem_eq, Item.brought]
  refine .map ?_ _
  split
  · exact (Layer.publish_brings item.name item.expr).map fun e => Item.mk item.name e none
  · obtain ⟨name, expr, window⟩ := item
    refine .bind (Layer.carry_brings expr) fun e => ?_
    cases window with
    | none => exact .pure (Item.mk name e none)
    | some w => exact (Layer.carryWindow_brings w).map fun read => Item.mk name e (some read)

/-- A column of an analytic projection over the inner layer: a computed item is found there, and what
another item is made of is found by its texts. -/
def Item.IsEntered (layer : Layer) (item : Item) (c : WindowedColumn) : Prop :=
  item.ReadsAs (if item.isComputed then layer.Reads else layer.ReadsAlike) (ofWindowed c)

theorem Item.isEntered_lasting (item : Item) (c : WindowedColumn) :
    (Layer.growth fun _ => False).Lasting fun layer => item.IsEntered layer c := by
  unfold Item.IsEntered
  split
  · exact Item.readsAs_lasting Layer.reads_lasting item (ofWindowed c)
  · exact Item.readsAs_lasting Layer.readsAlike_lasting item (ofWindowed c)

theorem windowItem_isEntered (item : Item) :
    (Layer.growth fun _ => False).Ensures (fun _ => True) (windowItem item)
      fun layer => item.IsEntered layer := by
  rw [windowItem_eq]
  unfold Item.IsEntered
  cases hcomputed : item.isComputed with
  | true =>
    obtain ⟨hwindow, -⟩ := Item.isComputed_eq_true hcomputed
    exact (Item.publish_ensures (Q := fun layer => layer.Reads) hwindow
      (Layer.publish_ensures _ item.expr.honest_unknown)).map fun _ _ h => h
  | false =>
    exact (Item.carry_ensures (Q := fun layer => layer.ReadsAlike) Layer.readsAlike_lasting
      fun e _ => Layer.carry_readsAlike e).map fun _ _ h => h

/-- Over an inner layer the items are read from it, and its expressions are those that the items
bring. -/
theorem analyze_isEntered {items : List Item} (h : items.any Item.isComputed = true) :
    ∃ layer columns, analyze items = (some layer, .analytic columns) ∧
      List.Forall₂ (Item.IsEntered layer) items columns ∧ IsFilledBy layer items := by
  have hrun : (Layer.growth fun _ => False).Ensures (fun _ => True) (items.mapM windowItem)
      fun layer => List.Forall₂ (Item.IsEntered layer) items :=
    Growth.Ensures.mapM (fun _ h => h) Item.isEntered_lasting fun item _ => windowItem_isEntered item
  refine ⟨_, _, if_pos h, (hrun Layer.empty (Layer.sound_empty _) trivial).2.2, fun text => ?_⟩
  exact (Layer.Brings.mapM fun item _ => windowItem_brings item) Layer.empty text

/-- Without an inner layer the items are the columns. -/
theorem analyze_of_not_computed {items : List Item} (h : items.any Item.isComputed = false) :
    analyze items = (none, .analytic (items.map Item.toWindowed)) :=
  if_neg (by rw [← Bool.not_eq_true] at h; exact h)

/-- The layer has a column first for the text of every reference of an expression. -/
def FindsColumns (layer : Layer) (e : Expr) : Prop :=
  ∀ c ∈ e.columns, ∀ first ∈ layer.spelled? c.1.text, first.column?.isSome

/-- A column that an item brings is a reference of what it is made of, and the item is not computed
below the windows. -/
theorem mem_brought_of_column {item : Item} {e : Expr} (h : e ∈ item.brought)
    (hcolumn : e.column?.isSome) :
    item.isComputed = false ∧ ∃ part ∈ item.exprs, ∃ c ∈ part.columns, e = .column c.1 c.2 := by
  unfold Item.brought at h
  split at h
  · rename_i hcomputed
    obtain rfl := List.mem_singleton.mp h
    rw [← Item.isColumn, (Item.isComputed_eq_true hcomputed).2] at hcolumn
    cases hcolumn
  · rename_i hcomputed
    obtain ⟨part, hpart, h⟩ := List.mem_flatMap.mp h
    obtain ⟨c, hc, rfl⟩ := List.mem_map.mp h
    exact ⟨by simpa using hcomputed, part, hpart, c, hc, rfl⟩

/-- Columns come first if and only if they are found wherever texts decide. -/
theorem columnsFirst_iff {items : List Item} {layer : Layer}
    (hlayer : IsFilledBy layer items) :
    ColumnsFirst items ↔ ∀ item ∈ items, item.isComputed = false →
      ∀ e ∈ item.exprs, FindsColumns layer e := by
  unfold ColumnsFirst FindsColumns
  simp only [← hlayer _]
  constructor
  · intro h item hitem hcomputed e he c hc
    refine h (.column c.1 c.2) (List.mem_flatMap.mpr ⟨item, hitem, ?_⟩) rfl
    rw [Item.brought, if_neg (by simp [hcomputed])]
    exact List.mem_flatMap.mpr ⟨e, he, List.mem_map_of_mem hc⟩
  · intro h e he hcolumn
    obtain ⟨item, hitem, hbrought⟩ := List.mem_flatMap.mp he
    obtain ⟨hcomputed, part, hpart, c, hc, rfl⟩ := mem_brought_of_column hbrought hcolumn
    exact h item hitem hcomputed part hpart c hc

/-- A column that is found by the text of a reference of the items is that reference. -/
theorem eq_of_spelled? {items : List Item} (hspelled : SpelledApart (RefersIn items)) {layer : Layer}
    (hlayer : IsFilledBy layer items) {ref found : ColumnRef} (href : RefersIn items ref) {first : Expr}
    (hfirst : layer.spelled? ref.text = some first) (hfound : first.column? = some found) :
    found = ref := by
  rw [hlayer] at hfirst
  have htext : first.text = ref.text := by simpa using List.find?_some hfirst
  obtain ⟨item, hitem, hbrought⟩ := List.mem_flatMap.mp (List.mem_of_find?_eq_some hfirst)
  obtain ⟨-, part, hpart, c, hc, rfl⟩ := mem_brought_of_column hbrought (by rw [hfound]; rfl)
  obtain rfl : c.1 = found := Option.some.inj hfound
  exact hspelled c.1 ref ⟨item, hitem, part, hpart, c, hc, rfl⟩ href htext

/-- A list that computes nothing below its windows has columns only. -/
theorem columnsFirst_of_not_computed {items : List Item} (h : items.any Item.isComputed = false) :
    ColumnsFirst items := by
  intro e _ _ first hfirst
  obtain ⟨item, hitem, hbrought⟩ := List.mem_flatMap.mp (List.mem_of_find?_eq_some hfirst)
  rw [Item.brought, if_neg (List.any_eq_false.mp h item hitem)] at hbrought
  obtain ⟨part, -, hbrought⟩ := List.mem_flatMap.mp hbrought
  obtain ⟨c, -, rfl⟩ := List.mem_map.mp hbrought
  rfl

end Select

namespace Layers

/-! ### One expression -/

variable {select : SelectClause} {scope : Scope} {key : Option Expr} {l : Layers}

/-- What an expression over the main layer is over the layer below the inner one: every reference is
replaced by what the inner layer publishes under its name, if there is such a layer. -/
def inputs? (l : Layers) (e : Expr) : Option Expr :=
  match l.inner with
  | some layer => (Projection.choose layer.columns).expand? e
  | none => some e

/-- What an expression over the main layer computes over the sources, followed through the inner and
the naming layer. -/
def follows? (l : Layers) (e : Expr) : Option Expr :=
  (l.inputs? e).bind l.computes?

theorem readsThrough_iff {e e' : Expr} :
    Layer.ReadsThrough l.naming e e' ↔ (l.computes? e').map Expr.erase = some e.erase := by
  refine ⟨map_erase_computes?, fun h => ?_⟩
  unfold computes? at h
  cases hnaming : l.naming with
  | none =>
    rw [hnaming] at h
    exact Option.some.inj h
  | some layer =>
    rw [hnaming] at h
    exact Option.map_eq_some_iff.mp h

/-- The naming layer replaces references, where positions do not count. -/
theorem exists_map_erase_computes? (l : Layers) :
    ∃ g, ∀ e, (l.computes? e).map Expr.erase = (e.substitute? g).map Expr.erase := by
  unfold computes?
  cases l.naming with
  | some layer => exact ⟨_, fun _ => rfl⟩
  | none =>
    refine ⟨fun ref => some (.column ref 0), fun e => ?_⟩
    obtain ⟨x, hx, hxe⟩ := ((Expr.Congruent.erase.comp (Expr.substitute?_congruent fun ref =>
      some (.column ref 0))).self (e := e) fun c _ => ⟨.column c.1 0, rfl, rfl⟩)
    rw [hx]
    exact congrArg some hxe.symm

/-- A naming layer of columns makes a column of every reference that it publishes. -/
theorem exists_column_of_computes? {known : ColumnRef → Prop}
    (hplain : ∀ layer ∈ l.naming, layer.PublishesOnly known) {ref : ColumnRef} {x : Expr}
    (h : l.computes? (.column ref 0) = some x) : ∃ found p, x = .column found p := by
  unfold computes? at h
  cases hnaming : l.naming with
  | none =>
    rw [hnaming] at h
    cases h
    exact ⟨ref, 0, rfl⟩
  | some layer =>
    rw [hnaming] at h
    obtain ⟨-, hpublished⟩ := Option.ite_none_right_eq_some.mp h
    rw [column?_choose] at hpublished
    obtain ⟨c, hc, rfl⟩ := Option.map_eq_some_iff.mp hpublished
    obtain ⟨found, p, hfound, -⟩ := hplain layer hnaming c (List.mem_of_find?_eq_some hc)
    exact ⟨found, p, hfound⟩

/-- An expression that reads from the inner layer computes what is written. -/
theorem follows?_of_reads {layer : Layer} (hinner : l.inner = some layer) {written read e : Expr}
    (hread : Layer.ReadsThrough l.naming written read) (hlayer : layer.Reads read e) :
    (l.follows? e).map Expr.erase = some written.erase := by
  obtain ⟨g, hg⟩ := l.exists_map_erase_computes?
  obtain ⟨x, hx, hxe⟩ := hlayer
  have hfollows : l.follows? e = l.computes? x := by
    rw [follows?, inputs?, hinner]
    change ((Projection.choose layer.columns).expand? e).bind l.computes? = _
    rw [hx, Option.bind_some]
  rw [hfollows, hg, Expr.map_erase_substitute?_congr hxe, ← hg]
  exact readsThrough_iff.mp hread

/-- **An expression over an inner layer computes what is written if columns are found for its
references, and only then.** -/
theorem follows?_iff {known : ColumnRef → Prop} {layer : Layer} (hinner : l.inner = some layer)
    (hplain : ∀ layer ∈ l.naming, layer.PublishesOnly known) {written read e : Expr}
    (hread : Layer.ReadsThrough l.naming written read) (hlayer : layer.ReadsAlike read e)
    (hspelled : ∀ c ∈ read.columns, ∀ first ∈ layer.spelled? c.1.text, ∀ ref,
      first.column? = some ref → ref = c.1) :
    (l.follows? e).map Expr.erase = some written.erase ↔ FindsColumns layer read := by
  obtain ⟨g, hg⟩ := l.exists_map_erase_computes?
  obtain ⟨y, ⟨x, hx, hxy⟩, hy⟩ := hlayer
  have hwanted : read.erase.substitute? (fun ref => (g ref).map Expr.erase) = some written.erase := by
    rw [← Expr.map_erase_substitute?, ← hg]
    exact readsThrough_iff.mp hread
  have hgot : (l.follows? e).map Expr.erase = read.erase.substitute? fun ref =>
      ((layer.spelled? ref.text).bind (Expr.substitute? g)).map Expr.erase := by
    rw [← Expr.map_erase_substitute?, ← Expr.bind_substitute?, hy, Option.bind_some,
      ← Expr.map_erase_substitute?_congr hxy, ← hg, follows?, inputs?, hinner]
    change (((Projection.choose layer.columns).expand? e).bind l.computes?).map Expr.erase = _
    rw [hx, Option.bind_some]
  rw [hgot, Expr.substitute?_eq_iff hwanted, Expr.columns_erase, List.forall_mem_map]
  refine forall₂_congr fun c hc => ?_
  change (((layer.spelled? c.1.text).bind (Expr.substitute? g)).map Expr.erase =
    ((Expr.column c.1 0).substitute? g).map Expr.erase) ↔ _
  obtain ⟨first, hfirst⟩ := Option.isSome_iff_exists.mp (Expr.isSome_of_substitute? hy c hc)
  rw [hfirst, Option.bind_some]
  constructor
  · rintro hsame _ ⟨⟩
    -- the reference is a column below the naming layer, so what is first is one over it
    have hsome := Expr.isSome_of_substitute? hwanted (c.1, 0)
      (by rw [Expr.columns_erase]; exact List.mem_map_of_mem hc)
    obtain ⟨target, htarget⟩ : ∃ target, l.computes? (.column c.1 0) = some target := by
      have hg := hg (.column c.1 0)
      rw [← Option.isSome_iff_exists, ← Option.isSome_map (f := Expr.erase), hg]
      exact hsome
    obtain ⟨found, p, rfl⟩ := exists_column_of_computes? hplain htarget
    have hreads : Layer.ReadsThrough l.naming (.column found 0) first :=
      readsThrough_iff.mpr (by rw [hg, hsame, ← hg, htarget]; rfl)
    obtain ⟨ref, href⟩ := column?_of_reads hreads
    rw [href]
    rfl
  · intro hcolumn
    obtain ⟨ref, href⟩ := Option.isSome_iff_exists.mp (hcolumn first rfl)
    obtain rfl := hspelled c hc first hfirst ref href
    obtain ⟨p, rfl⟩ := Expr.column?_eq_some.mp href
    rfl

/-! ### The whole list -/

/-- What a column of an analytic projection has to do with an item: it has the name of the item, and
it and its window are what is written for the item. -/
structure Computes (l : Layers) (item : SelectItem) (c : WindowedColumn) : Prop where
  output : IsOutput item (c.name, l.follows? c.expr)
  window : Option.Rel (WindowReads fun e e' => (l.follows? e').map Expr.erase = some e.erase)
    item.window c.window

theorem computes_iff {item : SelectItem} {named : Item} {c : WindowedColumn}
    (hnamed : IsNamed item named) (hname : c.name = named.name) :
    l.Computes item c ↔ named.ReadsAs
      (fun e e' => (l.follows? e').map Expr.erase = some e.erase) (ofWindowed c) := by
  obtain ⟨name, expr, window⟩ := named
  obtain ⟨rfl, rfl, hgiven⟩ := hnamed
  obtain rfl : c.name = name := hname
  exact ⟨fun h => ⟨rfl, h.output.2, h.window⟩, fun h => ⟨⟨hgiven, h.expr⟩, h.window⟩⟩

/-- An item over an inner layer computes what is written if columns are found wherever texts decide,
and only then. -/
theorem computes_iff_findsColumns {known : ColumnRef → Prop} {layer : Layer}
    (hinner : l.inner = some layer) (hplain : ∀ layer ∈ l.naming, layer.PublishesOnly known)
    {item : SelectItem} {named read : Item} {c : WindowedColumn} (hnamed : IsNamed item named)
    (hread : named.ReadsAs (Layer.ReadsThrough l.naming) read) (hentered : read.IsEntered layer c)
    (hspelled : ∀ e ∈ read.exprs, ∀ c ∈ e.columns, ∀ first ∈ layer.spelled? c.1.text, ∀ ref,
      first.column? = some ref → ref = c.1) :
    l.Computes item c ↔ (read.isComputed = false → ∀ e ∈ read.exprs, FindsColumns layer e) := by
  unfold Item.IsEntered at hentered
  rw [computes_iff hnamed (hentered.name.trans hread.name)]
  cases hcomputed : read.isComputed with
  | false =>
    rw [hcomputed, if_neg Bool.false_ne_true] at hentered
    rw [hread.iff_forall hentered fun written e e' he hwritten hlayer =>
      follows?_iff hinner hplain hwritten hlayer (hspelled e he)]
    exact ⟨fun h _ => h, fun h => h rfl⟩
  | true =>
    rw [hcomputed, if_pos rfl] at hentered
    refine iff_of_true ?_ fun h => by cases h
    exact (hread.iff_forall hentered (P := fun _ => True) fun written e e' _ hwritten hlayer =>
      iff_of_true (follows?_of_reads hinner hwritten hlayer) trivial).mpr fun _ _ => trivial

/-- **The layers of an analytic select list compute what is written if columns come first, and only
then.** An accepted list with window functions is assembled from its analytic projection and at most
two layers below it, the inner and the naming layer. With what these publish put in the place of their
references, the columns of the projection and their windows are the items in order, as they are
written, exactly if none of the columns that the items refer to comes behind a computed item that is
spelled like it. -/
theorem analytic_computes_iff (h : Layers.ofSelect select scope key = .ok l)
    (hwindows : select.isAnalytic = true) (hwritten : AsWritten select key) :
    ∃ columns, l.main = .analytic columns ∧
      (∀ body, l.onto body =
        { Model.select l.main (l.below body) with timestamp := l.timestamp }) ∧
      (List.Forall₂ l.Computes (keyed key select.items) columns ↔
        ColumnsFirst (laidOut select key)) := by
  have hlayout := ofSelect_ok h
  obtain ⟨hinner, hmain, houter⟩ := hlayout.analytic hwindows
  obtain ⟨hsampleBy, horderBy, hlimit, hwrap⟩ := unbound_ofSelect h
  have honto : ∀ body, l.onto body =
      { Model.select l.main (l.below body) with timestamp := l.timestamp } := fun body => by
    rw [onto_eq, hwrap, if_neg Bool.false_ne_true, sorted, houter, hsampleBy, horderBy, hlimit]
    rfl
  have hlaid := isLaidOut hlayout.given hwritten
  have hread : List.Forall₂ (fun item read => ∃ named, IsNamed item named ∧
      named.ReadsAs (Layer.ReadsThrough l.naming) read) (keyed key select.items)
      (laidOut select key) := by
    rw [hlayout.naming]
    exact forall₂_comp (named_spec hlayout.given).1 hlaid.reads fun _ named _ hn hr => ⟨named, hn, hr⟩
  have hplain : ∀ layer ∈ l.naming, layer.PublishesOnly (IsSourceColumn scope key) := by
    rw [hlayout.naming]
    exact laid_publishesOnly (named_isSourceColumn hlayout.resolved hlayout.given)
  cases hcomputed : (laidOut select key).any Item.isComputed with
  | false =>
    rw [analyze_of_not_computed hcomputed] at hinner hmain
    refine ⟨_, hmain, honto, iff_of_true ?_ (columnsFirst_of_not_computed hcomputed)⟩
    refine List.forall₂_map_right_iff.mpr (hread.imp fun item read hr => ?_)
    obtain ⟨named, hnamed, hr⟩ := hr
    refine (computes_iff hnamed hr.name).mpr (hr.imp fun e e' hee' => ?_)
    rw [follows?, inputs?, hinner]
    exact readsThrough_iff.mp hee'
  | true =>
    obtain ⟨layer, columns, hanalyze, hentered, hlayer⟩ := analyze_isEntered hcomputed
    rw [hanalyze] at hinner hmain
    refine ⟨columns, hmain, honto, ?_⟩
    rw [columnsFirst_iff hlayer]
    refine forall₂_iff_forall_mem hread hentered fun item read c hmem hr hc => ?_
    obtain ⟨named, hnamed, hr⟩ := hr
    refine computes_iff_findsColumns hinner hplain hnamed hr hc
      fun e he c hc first hfirst ref href => ?_
    exact eq_of_spelled? hlaid.spelled hlayer ⟨read, hmem, e, he, c, hc, rfl⟩ hfirst href

end Layers

/-- `select a true, true t, sum(b) r over (partition by a)`: a constant behind a column that is named
as it is spelled. -/
def columnFirstSelect : SelectClause :=
  let a := Expr.column (.plain "a") 0
  ⟨0, [⟨a, some ⟨"true", 0⟩, none⟩, ⟨.constant "true" 0, some ⟨"t", 0⟩, none⟩,
    ⟨.call "sum" [.column (.plain "b") 0] 0, some ⟨"r", 0⟩, some ⟨[a], []⟩⟩]⟩

/-- The naming and the inner layer are both there, and the three columns compute what is written. -/
theorem Layers.analytic_computes_columnFirst :
    ∃ l columns, Layers.ofSelect columnFirstSelect numbersScope none = .ok l ∧
      l.naming.isSome ∧ l.inner.isSome ∧ columnFirstSelect.isAnalytic = true ∧
      AsWritten columnFirstSelect none ∧ l.main = .analytic columns ∧
      List.Forall₂ l.Computes columnFirstSelect.items columns := by
  obtain ⟨l, hl⟩ : ∃ l, Layers.ofSelect columnFirstSelect numbersScope none = .ok l := ⟨_, rfl⟩
  have hwritten : AsWritten columnFirstSelect none := by decide +kernel
  obtain ⟨columns, hmain, -, hcomputes⟩ := Layers.analytic_computes_iff hl (by decide) hwritten
  have hlayers : l.naming.isSome ∧ l.inner.isSome := by
    cases hl
    decide +kernel
  exact ⟨l, columns, hl, hlayers.1, hlayers.2, by decide, hwritten, hmain,
    hcomputes.mpr (by decide +kernel)⟩

/-- `select true t, a true, sum(b) r over (partition by a)`: the constant comes first. -/
def constantFirstSelect : SelectClause :=
  let a := Expr.column (.plain "a") 0
  ⟨0, [⟨.constant "true" 0, some ⟨"t", 0⟩, none⟩, ⟨a, some ⟨"true", 0⟩, none⟩,
    ⟨.call "sum" [.column (.plain "b") 0] 0, some ⟨"r", 0⟩, some ⟨[a], []⟩⟩]⟩

/-- The item that is written `a` and the partition by it read the constant. -/
theorem Layers.constant_read_for_column :
    ∃ l columns, Layers.ofSelect constantFirstSelect numbersScope none = .ok l ∧
      constantFirstSelect.isAnalytic = true ∧ AsWritten constantFirstSelect none ∧
      l.main = .analytic columns ∧
      (∀ c ∈ columns, c.name = "true" → (l.follows? c.expr).any Expr.isConstant = true) ∧
      (∀ c ∈ columns, ∀ w ∈ c.window, ∀ e ∈ w.partitionBy,
        (l.follows? e).any Expr.isConstant = true) ∧
      ¬ List.Forall₂ l.Computes constantFirstSelect.items columns := by
  obtain ⟨l, hl⟩ : ∃ l, Layers.ofSelect constantFirstSelect numbersScope none = .ok l := ⟨_, rfl⟩
  obtain ⟨columns, hmain, hitem, hpartition⟩ : ∃ columns, l.main = .analytic columns ∧
      (∀ c ∈ columns, c.name = "true" → (l.follows? c.expr).any Expr.isConstant = true) ∧
      (∀ c ∈ columns, ∀ w ∈ c.window, ∀ e ∈ w.partitionBy,
        (l.follows? e).any Expr.isConstant = true) := by
    cases hl
    exact ⟨_, rfl, by decide +kernel, by decide +kernel⟩
  refine ⟨l, columns, hl, by decide, by decide +kernel, hmain, hitem, hpartition, fun h => ?_⟩
  obtain ⟨c, hc, hcomputes⟩ := exists_mem_of_forall₂ h (List.mem_of_getElem? (i := 1) rfl)
  obtain ⟨e, he, hconstant⟩ := (Option.any_eq_true _ _).mp (hitem c hc hcomputes.output.1)
  have herase : (l.follows? c.expr).map Expr.erase = some (.column (.plain "a") 0) :=
    hcomputes.output.2
  rw [he, Option.map_some, Option.some.injEq] at herase
  obtain ⟨p, rfl⟩ : ∃ p, e = .column (.plain "a") p :=
    Expr.column?_eq_some.mp (by rw [← Expr.column?_erase, herase]; rfl)
  cases hconstant

end SeriesQuery
