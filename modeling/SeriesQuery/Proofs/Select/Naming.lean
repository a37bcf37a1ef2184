import SeriesQuery.Proofs.Select.Layer
import SeriesQuery.Select.Layering

/-!
The names of select items and the naming layer.

The items of a select list get names of their own: those they are given, which must differ,
and names made of default ones (`Select.nameItems_spec`). The items that read from a naming
layer read what the named items are (`Select.renameItems_spec`).
-/

namespace SeriesQuery

/-! ### Names of items -/

namespace SelectClause

/-- Names that are all free when they are claimed one after the other differ. -/
theorem explicitAliases_spec {names : List Ident} {s t : AliasSet}
    (h : explicitAliases names s = .ok t) :
    s.Within t ∧ (∀ given ∈ names, s.isFree given.name = true ∧ t.isFree given.name = false) ∧
      names.Pairwise fun a b => Ascii.same a.name b.name = false := by
  induction names generalizing s with
  | nil =>
    obtain rfl : s = t := Except.ok.inj h
    exact ⟨.refl s, fun _ h => (nomatch h), .nil⟩
  | cons first names ih =>
    rw [explicitAliases] at h
    split at h
    · rename_i hfree
      obtain ⟨hwithin, hnames, hpairs⟩ := ih h
      refine ⟨(s.within_insert _).trans hwithin, ?_, List.pairwise_cons.mpr ⟨?_, hpairs⟩⟩
      · intro given hgiven
        rcases List.mem_cons.mp hgiven with rfl | hgiven
        · exact ⟨hfree, hwithin _ (s.insert_taken _)⟩
        · have hafter := (hnames given hgiven).1
          rw [AliasSet.isFree_insert, Bool.and_eq_true] at hafter
          exact ⟨hafter.1, (hnames given hgiven).2⟩
      · intro given hgiven
        have hafter := (hnames given hgiven).1
        rw [AliasSet.isFree_insert, Bool.and_eq_true] at hafter
        simpa using hafter.2
    · cases h

end SelectClause

namespace Select

/-- A select item, and what it is under a name: its given name, or one made of its default
name. -/
def IsNamed (item : SelectItem) (named : Item) : Prop :=
  named.expr = item.expr ∧ named.window = item.window ∧
    match item.givenName with
    | some given => named.name = given.name
    | none => AliasSet.MadeOf item.expr.defaultName named.name

/-- The items of a select list behind its sample key. -/
def keyed (key : Option Expr) (items : List SelectItem) : List SelectItem :=
  key.toList.map (fun key => ⟨key, none, none⟩) ++ items

/-- No two items have the same name, in any case. -/
def ItemsApart (items : List Item) : Prop :=
  items.Pairwise fun a b => Ascii.same a.name b.name = false

theorem nameItems_eq (key : Option Expr) (items : List SelectItem) :
    nameItems key items = (keyed key items).mapM nameItem := by
  cases key with
  | none => simp [nameItems, keyed]
  | some key => simp [nameItems, keyed, nameKey]

theorem nameItem_eq (item : SelectItem) (s : AliasSet) :
    nameItem item s =
      match item.givenName with
      | some given => (⟨given.name, item.expr, item.window⟩, s)
      | none => (⟨s.freeName item.expr.defaultName, item.expr, item.window⟩,
          s.insert (s.freeName item.expr.defaultName)) := by
  unfold nameItem
  cases item.givenName <;> rfl

/-- A name is given to the item, or it was free; it is taken then. -/
theorem nameItem_spec {item : SelectItem} {s : AliasSet}
    (hgiven : ∀ given ∈ item.givenName, s.isFree given.name = false) :
    let n := (nameItem item s).1
    let t := (nameItem item s).2
    s.Within t ∧ IsNamed item n ∧ t.isFree n.name = false ∧
      ((∃ given, item.givenName = some given ∧ n.name = given.name) ∨
        item.givenName = none ∧ s.isFree n.name = true) := by
  rw [nameItem_eq]
  cases hname : item.givenName with
  | some given =>
    exact ⟨.refl s, ⟨rfl, rfl, by rw [hname]⟩, hgiven given hname, .inl ⟨given, rfl, rfl⟩⟩
  | none =>
    refine ⟨s.within_insert _, ⟨rfl, rfl, ?_⟩, s.insert_taken _, .inr ⟨rfl, s.isFree_freeName _⟩⟩
    rw [hname]
    exact s.madeOf_freeName _

/-- Names that are not given are free when they are chosen, and all names are taken. -/
theorem nameAll_spec {items : List SelectItem} {s : AliasSet}
    (hgiven : ∀ item ∈ items, ∀ given ∈ item.givenName, s.isFree given.name = false)
    (hpairs : (items.filterMap SelectItem.givenName).Pairwise
      fun a b => Ascii.same a.name b.name = false) :
    let named := (items.mapM nameItem s).1
    let t := (items.mapM nameItem s).2
    s.Within t ∧ List.Forall₂ IsNamed items named ∧ ItemsApart named ∧
      ∀ n ∈ named, t.isFree n.name = false ∧
        ((∃ given ∈ items.filterMap SelectItem.givenName, n.name = given.name) ∨
          s.isFree n.name = true) := by
  induction items generalizing s with
  | nil => exact ⟨.refl s, .nil, .nil, fun _ h => (nomatch h)⟩
  | cons item items ih =>
    obtain ⟨hstep, hnamed, htaken, hname⟩ := nameItem_spec (hgiven item List.mem_cons_self)
    have htail : ∀ i ∈ items, ∀ given ∈ i.givenName, s.isFree given.name = false :=
      fun i hi => hgiven i (List.mem_cons_of_mem _ hi)
    have hafter : (items.filterMap SelectItem.givenName).Pairwise
        fun a b => Ascii.same a.name b.name = false :=
      hpairs.sublist ((List.sublist_cons_self item items).filterMap _)
    obtain ⟨hrest, hall, hapart, hnames⟩ := ih (fun i hi given hg => hstep _ (htail i hi given hg)) hafter
    rw [mapM_cons_apply]
    refine ⟨hstep.trans hrest, .cons hnamed hall, List.pairwise_cons.mpr ⟨?_, hapart⟩, ?_⟩
    · intro n hn
      rcases (hnames n hn).2 with ⟨other, hother, hn⟩ | hfree
      · rcases hname with ⟨given, hg, hgn⟩ | ⟨-, hfree⟩
        · rw [List.filterMap_cons_some hg] at hpairs
          rw [hn, hgn]
          exact (List.pairwise_cons.mp hpairs).1 other hother
        · obtain ⟨i, hi, hg⟩ := List.mem_filterMap.mp hother
          rw [hn]
          exact AliasSet.same_eq_false hfree (htail i hi other hg)
      · rw [Ascii.same_comm]
        exact AliasSet.same_eq_false hfree htaken
    · intro n hn
      rcases List.mem_cons.mp hn with rfl | hn
      · refine ⟨hrest _ htaken, hname.imp (fun ⟨given, hg, hgn⟩ => ?_) And.right⟩
        exact ⟨given, List.mem_filterMap.mpr ⟨item, List.mem_cons_self, hg⟩, hgn⟩
      · obtain ⟨hn, ⟨other, hother, hon⟩ | hfree⟩ := hnames n hn
        · exact ⟨hn, .inl ⟨other, ((List.sublist_cons_self item items).filterMap _).subset hother,
            hon⟩⟩
        · exact ⟨hn, .inr (hstep.isFree hfree)⟩

/-- The items of a select list and its sample key are named in order, each differently, and
every name is taken. -/
theorem nameItems_spec {select : SelectClause} {key : Option Expr} {explicit aliases : AliasSet}
    {named : List Item} (hexplicit : select.takenAliases = .ok explicit)
    (h : (nameItems key select.items).run explicit = (named, aliases)) :
    List.Forall₂ IsNamed (keyed key select.items) named ∧ ItemsApart named ∧
      ∀ n ∈ named, aliases.isFree n.name = false := by
  obtain ⟨-, hgiven, hpairs⟩ := SelectClause.explicitAliases_spec hexplicit
  have hnames : (keyed key select.items).filterMap SelectItem.givenName =
      select.items.filterMap SelectItem.givenName := by
    cases key <;> simp [keyed]
  have htaken : ∀ item ∈ keyed key select.items, ∀ given ∈ item.givenName,
      explicit.isFree given.name = false := by
    intro item hitem given hg
    refine (hgiven given ?_).2
    rw [← hnames]
    exact List.mem_filterMap.mpr ⟨item, hitem, hg⟩
  have hspec := nameAll_spec htaken (by rwa [hnames])
  rw [nameItems_eq] at h
  change (keyed key select.items).mapM nameItem explicit = _ at h
  rw [h] at hspec
  exact ⟨hspec.2.1, hspec.2.2.1, fun n hn => (hspec.2.2.2 n hn).1⟩

/-! ### The naming layer -/

/-- The expressions of an item: its own and those of its window. -/
def Item.exprs (item : Item) : List Expr :=
  SelectClause.itemExprs ⟨item.expr, none, item.window⟩

/-- The references of an item and of its window are among those known. -/
def Item.RefersTo (known : ColumnRef → Prop) (item : Item) : Prop :=
  ∀ e ∈ item.exprs, e.RefersTo known

theorem Item.RefersTo.expr {known : ColumnRef → Prop} {item : Item} (h : item.RefersTo known) :
    item.expr.RefersTo known :=
  h item.expr List.mem_cons_self

/-- The expressions of a window. -/
def windowExprs (w : Window) : List Expr :=
  w.partitionBy ++ w.orderBy.map OrderItem.expr

/-- The parts of a window, in order, refer to those of another. -/
structure WindowReads (R : Expr → Expr → Prop) (w read : Window) : Prop where
  partitions : List.Forall₂ R w.partitionBy read.partitionBy
  orders : List.Forall₂ (fun o o' => R o.expr o'.expr ∧ o'.descending = o.descending)
    w.orderBy read.orderBy

/-- An item under the same name that refers to what the item is. -/
structure Item.ReadsAs (R : Expr → Expr → Prop) (item read : Item) : Prop where
  name : read.name = item.name
  expr : R item.expr read.expr
  window : Option.Rel (WindowReads R) item.window read.window

theorem WindowReads.imp {R S : Expr → Expr → Prop} (himp : ∀ e e', R e e' → S e e') {w read : Window}
    (h : WindowReads R w read) : WindowReads S w read :=
  ⟨h.partitions.imp himp, h.orders.imp fun _ _ h => ⟨himp _ _ h.1, h.2⟩⟩

theorem Item.ReadsAs.imp {R S : Expr → Expr → Prop} (himp : ∀ e e', R e e' → S e e')
    {item read : Item} (h : item.ReadsAs R read) : item.ReadsAs S read := by
  obtain ⟨_, _, window⟩ := item
  obtain ⟨_, _, readWindow⟩ := read
  obtain ⟨hname, hexpr, hwindow⟩ := h
  refine ⟨hname, himp _ _ hexpr, ?_⟩
  cases hwindow with
  | some hw => exact .some (hw.imp himp)
  | none => exact .none

theorem Item.readsAs_self {R : Expr → Expr → Prop} (hR : ∀ e, R e e) (item : Item) :
    item.ReadsAs R item := by
  refine ⟨rfl, hR _, ?_⟩
  cases item.window with
  | none => exact .none
  | some w => exact .some ⟨List.forall₂_same.mpr fun e _ => hR e,
      List.forall₂_same.mpr fun o _ => ⟨hR o.expr, rfl⟩⟩

/-- What is there in an item that refers to another is read by it. -/
theorem Item.ReadsAs.forall_exprs {R : Expr → Expr → Prop} {P : Expr → Prop}
    (hP : ∀ e e', R e e' → P e') {item read : Item} (h : item.ReadsAs R read) :
    ∀ e ∈ read.exprs, P e := by
  obtain ⟨_, _, window⟩ := item
  obtain ⟨_, _, readWindow⟩ := read
  obtain ⟨-, hexpr, hwindow⟩ := h
  intro e he
  rcases List.mem_cons.mp he with rfl | he
  · exact hP _ _ hexpr
  · cases hwindow with
    | none => cases he
    | some hw =>
      rcases List.mem_append.mp he with he | he
      · obtain ⟨_, -, hread⟩ := exists_mem_of_forall₂ (R := flip R) hw.partitions.flip he
        exact hP _ _ hread
      · obtain ⟨o, ho, rfl⟩ := List.mem_map.mp he
        obtain ⟨_, -, hread⟩ := exists_mem_of_forall₂ (R := flip _) hw.orders.flip ho
        exact hP _ _ hread.1

/-- A relation between the ends of two others holds throughout if it holds in between. -/
theorem forall₂_iff_forall_mem {α β γ : Type} {R : α → β → Prop} {S : β → γ → Prop}
    {T : α → γ → Prop} {P : β → Prop} {as : List α} {bs : List β} {cs : List γ}
    (hR : List.Forall₂ R as bs) (hS : List.Forall₂ S bs cs)
    (h : ∀ a b c, b ∈ bs → R a b → S b c → (T a c ↔ P b)) :
    List.Forall₂ T as cs ↔ ∀ b ∈ bs, P b := by
  induction hR generalizing cs with
  | nil =>
    cases hS
    exact iff_of_true .nil fun _ h => by cases h
  | cons hab _ ih =>
    cases hS with
    | cons hbc hS =>
      rw [List.forall₂_cons, List.forall_mem_cons, h _ _ _ List.mem_cons_self hab hbc,
        ih hS fun a b c hb => h a b c (List.mem_cons_of_mem _ hb)]

section

variable {R S T : Expr → Expr → Prop} {P : Expr → Prop}

theorem WindowReads.iff_forall {w read last : Window} (hR : WindowReads R w read)
    (hS : WindowReads S read last)
    (h : ∀ a b c, b ∈ windowExprs read → R a b → S b c → (T a c ↔ P b)) :
    WindowReads T w last ↔ ∀ e ∈ windowExprs read, P e := by
  have hpartitions := forall₂_iff_forall_mem hR.partitions hS.partitions
    fun a b c hb => h a b c (List.mem_append_left _ hb)
  have horders := forall₂_iff_forall_mem hR.orders hS.orders
    (T := fun o o' => T o.expr o'.expr ∧ o'.descending = o.descending) (P := fun o => P o.expr)
    fun a b c hb hab hbc => by
      rw [h _ _ _ (List.mem_append_right _ (List.mem_map_of_mem hb)) hab.1 hbc.1,
        and_iff_left (hbc.2.trans hab.2)]
  rw [windowExprs, List.forall_mem_append, List.forall_mem_map, ← hpartitions, ← horders]
  exact ⟨fun h => ⟨h.partitions, h.orders⟩, fun h => ⟨h.1, h.2⟩⟩

/-- What an item is over two readings is told by its expressions in between. -/
theorem Item.ReadsAs.iff_forall {item read last : Item} (hR : item.ReadsAs R read)
    (hS : read.ReadsAs S last)
    (h : ∀ a b c, b ∈ read.exprs → R a b → S b c → (T a c ↔ P b)) :
    item.ReadsAs T last ↔ ∀ e ∈ read.exprs, P e := by
  obtain ⟨_, _, window⟩ := item
  obtain ⟨_, expr, readWindow⟩ := read
  obtain ⟨_, _, lastWindow⟩ := last
  obtain ⟨hname, hexpr, hwindow⟩ := hR
  obtain ⟨hname', hexpr', hwindow'⟩ := hS
  have hfirst := h _ _ _ List.mem_cons_self hexpr hexpr'
  cases hwindow with
  | none =>
    cases hwindow'
    have hexprs : (∀ e ∈ [expr], P e) ↔ P expr := List.forall_mem_singleton
    refine Iff.trans ⟨fun h => h.expr, fun h => ⟨hname'.trans hname, h, .none⟩⟩
      (hfirst.trans hexprs.symm)
  | some hw =>
    cases hwindow' with
    | some hw' =>
      have hrest := hw.iff_forall hw' fun a b c hb => h a b c (List.mem_cons_of_mem _ hb)
      refine Iff.trans ⟨fun h => ⟨h.expr, ?_⟩, fun h => ⟨hname'.trans hname, h.1, .some h.2⟩⟩
        ((and_congr hfirst hrest).trans List.forall_mem_cons.symm)
      cases h.window with
      | some hlast => exact hlast

end

/-! ### Items over a layer -/

/-- Publishes the expression of an item under its name. -/
def Item.publish (item : Item) : StateM Layer Item :=
  return ⟨item.name, ← Layer.publish item.name item.expr, none⟩

/-- Carries the columns of an item and of its window through a layer. -/
def Item.carry (item : Item) : StateM Layer Item := do
  let expr ← Layer.carry item.expr
  let window ← match item.window with
    | some w => some <$> Layer.carryWindow w
    | none => pure none
  return ⟨item.name, expr, window⟩

/-- Whether the item is a column under another name than its own. -/
def Item.isRenamed (item : Item) : Bool :=
  item.window.isNone && item.expr.column?.any fun ref => ref.name != item.name

theorem Item.isRenamed_eq_true {item : Item} (h : item.isRenamed = true) :
    item.window = none ∧ ∃ ref p, item.expr = .column ref p := by
  obtain ⟨hwindow, hcolumn⟩ := Bool.and_eq_true_iff.mp h
  obtain ⟨ref, href, -⟩ := (Option.any_eq_true _ _).mp hcolumn
  exact ⟨Option.isNone_iff_eq_none.mp hwindow, ref, Expr.column?_eq_some.mp href⟩

theorem rename_eq (item : Item) :
    rename item = if item.isRenamed then item.publish else item.carry := by
  obtain ⟨name, expr, window⟩ := item
  cases window <;> rfl

section

variable {I : Layer → Prop} {G : Growth Layer} {Q : Layer → Expr → Expr → Prop} {item : Item}

theorem Item.publish_keeps
    (h : Keeps I (Layer.publish item.name item.expr) fun _ => True) :
    Keeps I item.publish fun read => read.name = item.name :=
  .bind h fun _ _ => .pure rfl

theorem Item.publish_ensures (hwindow : item.window = none)
    (h : G.Ensures (fun _ => True) (Layer.publish item.name item.expr) fun s => Q s item.expr) :
    G.Ensures (fun _ => True) item.publish fun s => item.ReadsAs (Q s) :=
  .bind (fun _ h => h) h fun _ => .pure fun _ _ h => ⟨rfl, h.2, by rw [hwindow]; exact .none⟩

theorem Item.readsAs_lasting (hQ : ∀ e e', G.Lasting fun s => Q s e e') (item read : Item) :
    G.Lasting fun s => item.ReadsAs (Q s) read :=
  fun hext h => h.imp fun _ _ h => hQ _ _ hext h

/-- A window is carried through a layer as its expressions are. -/
theorem carryWindow_ensures (hQ : ∀ e e', G.Lasting fun s => Q s e e') {w : Window}
    (h : ∀ e ∈ windowExprs w, G.Ensures (fun _ => True) (Layer.carry e) fun s => Q s e) :
    G.Ensures (fun _ => True) (Layer.carryWindow w) fun s => WindowReads (Q s) w := by
  have hpartition : G.Ensures (fun _ => True) (w.partitionBy.mapM Layer.carry)
      fun s => List.Forall₂ (Q s) w.partitionBy :=
    Growth.Ensures.mapM (fun _ h => h) hQ fun e he => h e (List.mem_append_left _ he)
  have horder : G.Ensures (fun _ => True) (w.orderBy.mapM Layer.carryOrderItem)
      fun s => List.Forall₂ (fun o o' => Q s o.expr o'.expr ∧ o'.descending = o.descending)
        w.orderBy :=
    Growth.Ensures.mapM (fun _ h => h) (fun _ _ _ _ hext h => ⟨hQ _ _ hext h.1, h.2⟩)
      fun o ho => .bind (fun _ h => h)
        (h o.expr (List.mem_append_right _ (List.mem_map_of_mem ho))) fun _ =>
          .pure fun _ _ h => ⟨h.2, rfl⟩
  have hlasts : ∀ es, G.Lasting fun s => List.Forall₂ (Q s) w.partitionBy es :=
    fun _ _ _ hext h => h.imp fun _ _ h => hQ _ _ hext h
  refine .bind (fun _ h => h) hpartition fun es => ?_
  refine .bind (fun hext h => ⟨trivial, hlasts es hext h.2⟩)
    ((horder.keeping (hlasts es)).pre fun _ h => ⟨trivial, h.2⟩) fun os => ?_
  exact .pure fun _ _ h => ⟨h.2.1, h.2.2⟩

/-- An item is carried through a layer as its expressions are. -/
theorem Item.carry_ensures (hQ : ∀ e e', G.Lasting fun s => Q s e e')
    (h : ∀ e ∈ item.exprs, G.Ensures (fun _ => True) (Layer.carry e) fun s => Q s e) :
    G.Ensures (fun _ => True) item.carry fun s => item.ReadsAs (Q s) := by
  obtain ⟨name, expr, window⟩ := item
  obtain ⟨hexpr, hexprs⟩ := List.forall_mem_cons.mp h
  refine .bind (fun _ h => h) hexpr fun e => ?_
  cases window with
  | none => exact .pure fun _ _ h => ⟨rfl, h.2, .none⟩
  | some w =>
    refine .bind (R := fun s read => Q s expr e ∧ Option.Rel (WindowReads (Q s)) (some w) read)
      (fun hext h => ⟨trivial, hQ _ _ hext h.2⟩) ?_ fun _ => .pure fun _ _ h => ⟨rfl, h.2.1, h.2.2⟩
    exact ((carryWindow_ensures hQ hexprs).keeping (hQ expr e)).map fun _ _ h => ⟨h.1, .some h.2⟩

theorem Item.carry_keeps (h : ∀ e ∈ item.exprs, Keeps I (Layer.carry e) fun _ => True) :
    Keeps I item.carry fun read => read.name = item.name :=
  Keeps.iff_ensures.mpr <| (Item.carry_ensures (Q := fun _ _ _ => True) (fun _ _ _ _ _ h => h)
    fun e he => Keeps.iff_ensures.mp (h e he)).mono fun _ _ h => h.name

end

variable {known : ColumnRef → Prop}

/-- An item that reads from the naming layer reads what the item is. -/
theorem rename_ensures (hknown : SpelledApart known) {item : Item} (hitem : item.RefersTo known) :
    (Layer.growth known).Ensures (fun _ => True) (rename item)
      fun layer renamed => item.ReadsAs layer.Reads renamed := by
  rw [rename_eq]
  split
  · rename_i hrenamed
    obtain ⟨hwindow, ref, p, he⟩ := Item.isRenamed_eq_true hrenamed
    refine Item.publish_ensures hwindow (Layer.publish_ensures _ ?_)
    rw [he]
    exact hknown.honest (hitem.expr (ref, p) (by simp [he, Expr.columns])) p
  · exact Item.carry_ensures Layer.reads_lasting fun e he => Layer.carry_ensures hknown (hitem e he)

/-- An item that is forwarded to a layer, or published there if it is computed, reads what it
is. -/
theorem enter_ensures (hknown : SpelledApart known) {item : Item}
    (hitem : item.expr.RefersTo known) (hhonest : item.isColumn = false → item.expr.Honest known) :
    (Layer.growth known).Ensures (fun _ => True)
      (if item.isColumn then Layer.forward item.expr else Layer.publish item.name item.expr)
      fun layer e => layer.Reads item.expr e := by
  split
  · rename_i hcolumn
    cases he : item.expr with
    | column ref p =>
      exact Layer.forward_ensures hknown (hitem (ref, p) (by simp [he, Expr.columns])) p
    | _ => simp [Item.isColumn, he, Expr.column?] at hcolumn
  · rename_i hcolumn
    exact Layer.publish_ensures _ (hhonest (by simpa using hcolumn))

theorem renameItems_eq (items : List Item) :
    renameItems items =
      if ((items.mapM rename) Layer.empty).2.changesNothing then (items, none)
      else (((items.mapM rename) Layer.empty).1, some ((items.mapM rename) Layer.empty).2) :=
  rfl

theorem renameItems_unnamed {items : List Item} (h : (renameItems items).2 = none) :
    (renameItems items).1 = items := by
  rw [renameItems_eq] at h ⊢
  split at h
  · rw [if_pos ‹_›]
  · cases h

/-- The items that read from a naming layer read what the items are. -/
theorem renameItems_spec (hknown : SpelledApart known) {items : List Item}
    (hitems : ∀ item ∈ items, item.RefersTo known) :
    let renamed := renameItems items
    List.Forall₂ (Item.ReadsAs (Layer.ReadsThrough renamed.2)) items renamed.1 ∧
      ∀ layer ∈ renamed.2, layer.Sound known := by
  have hrun : (Layer.growth known).Ensures (fun _ => True) (items.mapM rename)
      fun layer renamed => List.Forall₂ (Item.ReadsAs layer.Reads) items renamed :=
    Growth.Ensures.mapM (fun _ h => h) (Item.readsAs_lasting Layer.reads_lasting)
      fun item hitem => rename_ensures hknown (hitems item hitem)
  obtain ⟨hsound, -, hread⟩ := hrun Layer.empty (Layer.sound_empty known) trivial
  rw [renameItems_eq]
  split
  · refine ⟨List.forall₂_same.mpr fun item _ => ?_, fun _ h => by cases h⟩
    exact item.readsAs_self (R := Layer.ReadsThrough none) fun _ => rfl
  · refine ⟨hread, ?_⟩
    rintro layer ⟨⟩
    exact hsound

end Select

end SeriesQuery
