import SeriesQuery.Proofs.Expr.Spelling
import SeriesQuery.Proofs.Select.Naming

/-!
The layout of a select list.

The items under their names are laid out behind a naming layer, if there is one, and then
projected by what the list is: grouped, analytic, computing or plain
(`Layers.ofSelect_ok`). What a model shows for an item is a column under the name of the
item that leads to what is written for it (`IsShown`).
-/

namespace SeriesQuery

/-! ### References told by their texts -/

theorem ColumnRef.spelledApart_written : SpelledApart ColumnRef.Written := by
  intro a b ha hb htext
  rw [← ha, htext, hb]

theorem ColumnRef.spelledApart_plain : SpelledApart fun ref => ref.qualifier = none := by
  rintro ⟨qa, a⟩ ⟨qb, b⟩ rfl rfl htext
  obtain rfl : a = b := htext
  rfl

theorem SpelledApart.mono {known few : ColumnRef → Prop} (h : SpelledApart known)
    (hfew : ∀ ref, few ref → known ref) : SpelledApart few :=
  fun a b ha hb => h a b (hfew a ha) (hfew b hb)

/-! ### Layers on a row source -/

/-- What a model publishes for an item: its name, and what is written for it over the row
source. -/
def IsShown (item : String × Expr) (output : String × Option Expr) : Prop :=
  output.1 = item.1 ∧ output.2.map Expr.erase = some item.2.erase

namespace Model

/-- A layer shows what it reads. -/
theorem Shows.through {m : Model} {layer : Option Layer} (kind : List PublishedColumn → Projection)
    (hkind : ∀ columns, (kind columns).lookup? = (Projection.choose columns).lookup?)
    {e e' e'' : Expr} (hm : m.Shows e e') (hread : Layer.ReadsThrough layer e' e'') :
    (Layers.stack (layer.map fun layer => kind layer.columns) m).Shows e e'' := by
  cases layer with
  | none =>
    change (m.origin? e'').map Expr.erase = _
    rw [map_erase_origin?_congr m hread]
    exact hm
  | some layer =>
    refine hm.select ?_
    rw [Projection.Reads, Projection.expand?, hkind]
    exact hread

/-- What a name refers to is what the model publishes under it. -/
theorem origin?_reference {m : Model} {output : String × Option Expr}
    (hapart : m.outputs.Pairwise fun a b => Ascii.same a.1 b.1 = false)
    (h : output ∈ m.outputs) (p : Nat) : m.origin? (Layer.reference output.1 p) = output.2 := by
  obtain ⟨projection, source, _, _, _, _, _, _, _, _, _⟩ := m
  cases projection with
  | none => cases source <;> cases h
  | some projection =>
    cases source with
    | table name table =>
      obtain ⟨c, hc, rfl⟩ := List.mem_map.mp h
      exact projection.column?_of_mem (List.pairwise_map.mp hapart) hc
    | nested body =>
      obtain ⟨c, hc, rfl⟩ := List.mem_map.mp h
      change (projection.column? c.1).bind body.origin? = body.origin? c.2
      rw [projection.column?_of_mem (List.pairwise_map.mp hapart) hc]
      rfl

end Model

namespace Layers

variable {l : Layers} {body : Model}

/-- What the main layer reads. -/
def below (l : Layers) (body : Model) : Model :=
  stack (l.inner.map fun layer => .virtual layer.columns)
    (stack (l.naming.map fun layer => .choose layer.columns) body)

/-- The layers on a row source without the projection that takes hidden columns away: the rows
that `order by` sorts. -/
def sorted (l : Layers) (body : Model) : Model :=
  { stack l.outer { Model.select l.main (l.below body) with
      timestamp := l.timestamp, sampleBy := l.sampleBy } with
    orderBy := l.orderBy, limit := l.limit }

theorem onto_eq (l : Layers) (body : Model) :
    l.onto body = if l.wrap then .select l.visible (l.sorted body) else l.sorted body :=
  rfl

/-- What the layers below the main one read is what is written over the row source. -/
theorem below_shows (hbody : body.projection = none) {e read input : Expr}
    (hread : Layer.ReadsThrough l.naming e read) (hinput : Layer.ReadsThrough l.inner read input) :
    (l.below body).Shows e input :=
  ((Model.shows_rowSource hbody e).through .choose (fun _ => rfl) hread).through .virtual
    (fun _ => rfl) hinput

theorem sorted_outputs (houter : l.outer = none) :
    (l.sorted body).outputs = l.main.columns.map fun c => (c.1, (l.below body).origin? c.2) := by
  unfold sorted
  rw [houter]
  rfl

theorem sorted_outputs_of_outer {p : Projection} (houter : l.outer = some p) :
    (l.sorted body).outputs = p.columns.map fun c =>
      (c.1, (Model.select l.main (l.below body)).origin? c.2) := by
  unfold sorted
  rw [houter]
  exact List.map_congr_left fun c _ =>
    congrArg (Prod.mk c.1) (Model.origin?_of_source rfl rfl c.2)

theorem sorted_names (l : Layers) (body : Model) :
    (l.sorted body).outputs.map Prod.fst = l.top.aliases := by
  cases houter : l.outer with
  | none =>
    rw [sorted_outputs houter, List.map_map, top, houter]
    rfl
  | some p =>
    rw [sorted_outputs_of_outer houter, List.map_map, top, houter]
    rfl

/-- Columns of the main layer that read the items from the layer below show them. -/
theorem shown_of_main (houter : l.outer = none) (hbody : body.projection = none)
    (h : List.Forall₂ (fun item c => c.1 = item.1 ∧ ∃ read, Layer.ReadsThrough l.naming item.2 read ∧
      Layer.ReadsThrough l.inner read c.2) l.items l.main.columns) :
    List.Forall₂ IsShown l.items (l.sorted body).outputs := by
  rw [sorted_outputs houter]
  refine List.forall₂_map_right_iff.mpr (h.imp fun item c hc => ⟨hc.1, ?_⟩)
  obtain ⟨-, read, hread, hinput⟩ := hc
  exact below_shows hbody hread hinput

end Layers

namespace Select

/-! ### The items of a select list -/

/-- The names that a select list gives. -/
def given (select : SelectClause) : AliasSet :=
  match select.takenAliases with
  | .ok taken => taken
  | .error _ => .empty

/-- The items of a select list under their names behind the sample key, and the names that
are taken. -/
def named (select : SelectClause) (key : Option Expr) : List Item × AliasSet :=
  (nameItems key select.items).run (given select)

/-- The items as the projections of a select list compute them, and the naming layer that
they read from. -/
def laid (select : SelectClause) (key : Option Expr) : List Item × Option Layer :=
  let items := (named select key).1
  if select.hasAggregate || (items.any fun item => item.window.isSome) || !items.all Item.isColumn
  then renameItems items else (items, none)

/-- The items that a select list computes, behind its naming layer. -/
def laidOut (select : SelectClause) (key : Option Expr) : List Item :=
  (laid select key).1

/-- The references of a select list and of its sample key are read from a text. -/
def AsWritten (select : SelectClause) (key : Option Expr) : Prop :=
  ∀ item ∈ keyed key select.items, ∀ e ∈ SelectClause.itemExprs item,
    e.RefersTo ColumnRef.Written

instance (select : SelectClause) (key : Option Expr) : Decidable (AsWritten select key) :=
  inferInstanceAs (Decidable (∀ item ∈ keyed key select.items, _))

/-- The references of the items and of their windows. -/
def RefersIn (items : List Item) (ref : ColumnRef) : Prop :=
  ∃ item ∈ items, ∃ e ∈ item.exprs, ∃ c ∈ e.columns, c.1 = ref

/-- No computed item is spelled like a reference of the items. -/
def ComputedApart (items : List Item) : Prop :=
  ∀ computed ∈ items, computed.isColumn = false → ∀ item ∈ items, ∀ e ∈ item.exprs,
    ∀ c ∈ e.columns, computed.expr.text ≠ c.1.text

instance (items : List Item) : Decidable (ComputedApart items) :=
  inferInstanceAs (Decidable (∀ computed ∈ items, _))

theorem RefersIn.refersTo {items : List Item} {item : Item} (h : item ∈ items) :
    item.RefersTo (RefersIn items) :=
  fun e he c hc => ⟨item, h, e, he, c, hc, rfl⟩

theorem ComputedApart.honest {items : List Item} (h : ComputedApart items) {item : Item}
    (hitem : item ∈ items) (hcomputed : item.isColumn = false) :
    item.expr.Honest (RefersIn items) := by
  rintro _ ⟨other, hother, e, he, c, hc, rfl⟩ htext
  exact absurd htext (h item hitem hcomputed other hother e he c hc)

section

variable {select : SelectClause} {key : Option Expr} {l : Layers} {scope : Scope}

/-- The items under their names. -/
theorem named_spec (h : select.takenAliases = .ok (given select)) :
    List.Forall₂ IsNamed (keyed key select.items) (named select key).1 ∧
      ItemsApart (named select key).1 ∧
        ∀ n ∈ (named select key).1, (named select key).2.isFree n.name = false :=
  nameItems_spec h rfl

theorem refersTo_of_isNamed {known : ColumnRef → Prop} {item : SelectItem} {n : Item}
    (h : IsNamed item n) (hitem : ∀ e ∈ SelectClause.itemExprs item, e.RefersTo known) :
    n.RefersTo known := by
  obtain ⟨name, expr, window⟩ := n
  obtain ⟨rfl, rfl, -⟩ := h
  exact hitem

/-- The references of the named items are read from a text. -/
theorem named_refersTo (h : select.takenAliases = .ok (given select))
    (hwritten : AsWritten select key) :
    ∀ item ∈ (named select key).1, item.RefersTo ColumnRef.Written := by
  intro item hitem
  obtain ⟨written, hmem, hnamed⟩ :=
    exists_mem_of_forall₂ (R := flip IsNamed) (named_spec h).1.flip hitem
  exact refersTo_of_isNamed hnamed (hwritten written hmem)

/-- Without a naming layer the items stay as they are. -/
theorem laidOut_unnamed (h : (laid select key).2 = none) :
    laidOut select key = (named select key).1 := by
  simp only [laidOut, laid] at h ⊢
  split at h
  · rw [if_pos ‹_›]
    exact renameItems_unnamed h
  · rw [if_neg ‹_›]

/-- What the items that are laid out have to do with those that are named. -/
structure IsLaidOut (select : SelectClause) (key : Option Expr) : Prop where
  reads : List.Forall₂ (Item.ReadsAs (Layer.ReadsThrough (laid select key).2)) (named select key).1
    (laidOut select key)
  sound : ∀ layer ∈ (laid select key).2, layer.Sound ColumnRef.Written
  spelled : SpelledApart (RefersIn (laidOut select key))

/-- Items that are laid out read from the naming layer what is written for them. -/
theorem isLaidOut (h : select.takenAliases = .ok (given select)) (hwritten : AsWritten select key) :
    IsLaidOut select key := by
  have hitems := named_refersTo h hwritten
  obtain ⟨hreads, hsound⟩ :
      List.Forall₂ (Item.ReadsAs (Layer.ReadsThrough (laid select key).2)) (named select key).1
          (laidOut select key) ∧ ∀ layer ∈ (laid select key).2, layer.Sound ColumnRef.Written := by
    unfold laidOut laid
    extract_lets items
    split
    · exact renameItems_spec ColumnRef.spelledApart_written hitems
    · exact ⟨List.forall₂_same.mpr fun item _ =>
        item.readsAs_self (R := Layer.ReadsThrough none) fun _ => rfl, fun _ h => by cases h⟩
  refine ⟨hreads, hsound, ?_⟩
  cases hlayer : (laid select key).2 with
  | none =>
    refine ColumnRef.spelledApart_written.mono ?_
    rintro ref ⟨item, hitem, e, he, c, hc, rfl⟩
    exact hitems item (laidOut_unnamed hlayer ▸ hitem) e he c hc
  | some layer =>
    refine ColumnRef.spelledApart_plain.mono ?_
    rintro ref ⟨item, hitem, e, he, c, hc, rfl⟩
    rw [hlayer] at hreads
    obtain ⟨_, -, hread⟩ := exists_mem_of_forall₂ (R := flip _) hreads.flip hitem
    exact hread.forall_exprs (P := fun e => ∀ c ∈ e.columns, c.1.qualifier = none)
      (fun _ _ h => Projection.Reads.unqualified h) e he c hc

theorem names_of_readsAs {R : Expr → Expr → Prop} {items read : List Item}
    (h : List.Forall₂ (Item.ReadsAs R) items read) :
    read.map Item.name = items.map Item.name := by
  induction h with
  | nil => rfl
  | cons h _ ih => rw [List.map_cons, List.map_cons, h.name, ih]

theorem ItemsApart.of_names {items read : List Item} (h : ItemsApart items)
    (hnames : read.map Item.name = items.map Item.name) : ItemsApart read := by
  have hpairs : (items.map Item.name).Pairwise fun a b => Ascii.same a b = false :=
    List.pairwise_map.mpr h
  rw [← hnames] at hpairs
  exact List.pairwise_map.mp hpairs

theorem taken_of_names {aliases : AliasSet} {items read : List Item}
    (h : ∀ item ∈ items, aliases.isFree item.name = false)
    (hnames : read.map Item.name = items.map Item.name) :
    ∀ item ∈ read, aliases.isFree item.name = false := by
  intro item hitem
  have hname : item.name ∈ items.map Item.name := hnames ▸ List.mem_map_of_mem hitem
  obtain ⟨other, hother, heq⟩ := List.mem_map.mp hname
  exact heq ▸ h other hother

end

end Select

/-! ### The layers of a select list -/

open Select

/-- What becomes of a select list that is accepted. -/
structure Layers.IsLayout (select : SelectClause) (scope : Scope) (key : Option Expr) (l : Layers) :
    Prop where
  resolved : select.resolve scope = .ok select.hasAggregate
  given : select.takenAliases = .ok (given select)
  naming : l.naming = (laid select key).2
  projections : (l.inner, l.main, l.outer) = project select.hasAggregate
    ((named select key).1.any fun item => item.window.isSome) ((named select key).1.all Item.isColumn)
    (named select key).2 (laidOut select key)
  items : l.items = (named select key).1.map fun item => (item.name, item.expr)
  wrap : l.wrap = false
  orderBy : l.orderBy = []

theorem SelectClause.resolve_ok {select : SelectClause} {scope : Scope} {aggregate : Bool}
    (h : select.resolve scope = .ok aggregate) :
    resolveAll scope (select.items.flatMap itemExprs) = .ok () ∧ aggregate = select.hasAggregate ∧
      (select.isAnalytic && select.hasAggregate) = false := by
  unfold resolve at h
  obtain ⟨_, hall, h⟩ := Except.bind_eq_ok.mp h
  obtain ⟨_, _, h⟩ := Except.bind_eq_ok.mp h
  split at h
  · cases h
  · rename_i hnot
    cases h
    exact ⟨hall, rfl, by simpa using hnot⟩

/-- The layers of a select list. -/
theorem Layers.ofSelect_ok {select : SelectClause} {scope : Scope} {key : Option Expr} {l : Layers}
    (h : Layers.ofSelect select scope key = .ok l) : Layers.IsLayout select scope key l := by
  unfold Layers.ofSelect at h
  obtain ⟨aggregate, hresolve, h⟩ := Except.bind_eq_ok.mp h
  obtain ⟨explicit, hexplicit, h⟩ := Except.bind_eq_ok.mp h
  obtain ⟨-, rfl, -⟩ := SelectClause.resolve_ok hresolve
  have hgiven : given select = explicit := by rw [given, hexplicit]
  subst hgiven
  cases h
  exact ⟨hresolve, hexplicit, rfl, rfl, rfl, rfl, rfl⟩

namespace Layers.IsLayout

variable {select : SelectClause} {scope : Scope} {key : Option Expr} {l : Layers}

/-- The items that are laid out read from the naming layer what the items are. -/
theorem reads (h : l.IsLayout select scope key) (hwritten : AsWritten select key) :
    List.Forall₂ (fun item read => read.name = item.1 ∧
      Layer.ReadsThrough l.naming item.2 read.expr) l.items (laidOut select key) := by
  rw [h.items, h.naming]
  exact List.forall₂_map_left_iff.mpr
    ((isLaidOut h.given hwritten).reads.imp fun _ _ h => ⟨h.name, h.expr⟩)

/-- The items have names of their own. -/
theorem apart (h : l.IsLayout select scope key) :
    l.items.Pairwise fun a b => Ascii.same a.1 b.1 = false := by
  rw [h.items]
  exact List.pairwise_map.mpr (named_spec h.given).2.1

/-- An item has a window if it is written with one. -/
theorem isAnalytic (h : l.IsLayout select scope key) :
    ((named select key).1.any fun item => item.window.isSome) = select.isAnalytic := by
  have hwindows : ∀ {written : List SelectItem} {items : List Item},
      List.Forall₂ IsNamed written items →
        (items.any fun item => item.window.isSome) = written.any fun item => item.window.isSome := by
    intro written items hnamed
    induction hnamed with
    | nil => rfl
    | cons hitem _ ih => rw [List.any_cons, List.any_cons, ih, hitem.2.1]
  rw [hwindows (named_spec h.given).1, keyed, List.any_append]
  cases key <;> rfl

end Layers.IsLayout

end SeriesQuery
