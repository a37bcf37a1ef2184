import SeriesQuery.Proofs.Pointing.Clauses
import SeriesQuery.Proofs.Sampling

/-!
What the layers of a row-wise select list compute.

A list without aggregates and window functions has at most a naming layer below its main projection.
The naming layer only republishes columns of the sources (`renameItems_publishesOnly`), under names
that the main projection reads them by: with these put back in, the main projection is the list as it
is written (`Layers.ofSelect_rowwise`). That takes references that a text can spell, as those of a
statement are (`Compile.asWritten_of_ofText`).
-/

namespace SeriesQuery

open Select Layers

/-! ### Layers of plain columns -/

namespace Layer

/-- A layer publishes nothing but plain columns, all of them known. -/
def PublishesOnly (known : ColumnRef → Prop) (layer : Layer) : Prop :=
  ∀ c ∈ layer.columns, ∃ ref p, c.expr = .column ref p ∧ known ref

variable {known : ColumnRef → Prop}

theorem publishesOnly_empty : Layer.empty.PublishesOnly known := by
  intro c hc
  cases hc

theorem publish_publishesOnly (base : String) {ref : ColumnRef} (href : known ref) (p : Nat) :
    Keeps (PublishesOnly known) (publish base (.column ref p)) fun _ => True := by
  intro layer h
  refine ⟨fun c hc => ?_, trivial⟩
  rcases List.mem_append.mp hc with hc | hc
  · exact h c hc
  · obtain rfl := List.mem_singleton.mp hc
    exact ⟨ref, p, rfl, href⟩

theorem forward_publishesOnly {ref : ColumnRef} (href : known ref) (p : Nat) :
    Keeps (PublishesOnly known) (forward (.column ref p)) fun _ => True := by
  intro layer h
  rw [forward_eq]
  split
  · exact ⟨h, trivial⟩
  · exact publish_publishesOnly _ href p layer h

theorem carry_publishesOnly {e : Expr} (he : e.RefersTo known) :
    Keeps (PublishesOnly known) (carry e) fun _ => True :=
  Keeps.iff_ensures.mpr <| Expr.Congruent.replaceColumnsM_ensures (Q := fun _ _ _ => True)
    (fun _ h => h) (fun _ _ _ _ _ h => h) (fun _ => Expr.Congruent.all) fun c hc =>
      Keeps.iff_ensures.mp (forward_publishesOnly (he c hc) c.2)

end Layer

namespace Select

variable {known : ColumnRef → Prop}

/-- An item puts no more into a naming layer than the columns it is made of. -/
theorem rename_publishesOnly {item : Item} (hitem : item.RefersTo known) :
    Keeps (Layer.PublishesOnly known) (rename item) fun _ => True := by
  rw [rename_eq]
  split
  · rename_i hrenamed
    obtain ⟨-, ref, p, he⟩ := Item.isRenamed_eq_true hrenamed
    refine (Item.publish_keeps ?_).mono fun _ _ => trivial
    rw [he]
    exact Layer.publish_publishesOnly _ (hitem.expr (ref, p) (by simp [he, Expr.columns])) p
  · exact (Item.carry_keeps fun e he => Layer.carry_publishesOnly (hitem e he)).mono fun _ _ => trivial

/-- **A naming layer publishes plain columns only.** They are columns of the items. -/
theorem renameItems_publishesOnly {items : List Item} (hitems : ∀ item ∈ items, item.RefersTo known) :
    ∀ layer ∈ (renameItems items).2, layer.PublishesOnly known := by
  have hrun : Keeps (Layer.PublishesOnly known) (items.mapM rename)
      (List.Forall₂ (fun _ _ => True) items) :=
    Keeps.mapM fun item hitem => rename_publishesOnly (hitems item hitem)
  rw [renameItems_eq]
  split
  · exact fun _ h => by cases h
  · rintro layer ⟨⟩
    exact (hrun Layer.empty Layer.publishesOnly_empty).1

/-- The naming layer of a select list publishes columns of the list only. -/
theorem laid_publishesOnly {select : SelectClause} {key : Option Expr}
    (h : ∀ item ∈ (named select key).1, item.RefersTo known) :
    ∀ layer ∈ (laid select key).2, layer.PublishesOnly known := by
  unfold laid
  extract_lets items
  split
  · exact renameItems_publishesOnly h
  · exact fun _ h => by cases h

/-- A reference of a select list: it leads to a column of a source, or it belongs to the sample key. -/
def IsSourceColumn (scope : Scope) (key : Option Expr) (ref : ColumnRef) : Prop :=
  (∃ source, scope.LeadsTo ref source) ∨ ∃ k ∈ key, ∃ c ∈ k.columns, c.1 = ref

/-- The items of an accepted select list are made of columns of the sources. -/
theorem named_isSourceColumn {select : SelectClause} {scope : Scope} {key : Option Expr}
    {aggregate : Bool} (hresolved : select.resolve scope = .ok aggregate)
    (hgiven : select.takenAliases = .ok (given select)) :
    ∀ item ∈ (named select key).1, item.RefersTo (IsSourceColumn scope key) := by
  intro item hitem
  obtain ⟨written, hmem, hnamed⟩ :=
    exists_mem_of_forall₂ (R := flip IsNamed) (named_spec hgiven).1.flip hitem
  refine refersTo_of_isNamed hnamed fun e he c hc => ?_
  rcases List.mem_append.mp hmem with hkeyed | hselected
  · obtain ⟨k, hk, rfl⟩ := List.mem_map.mp hkeyed
    have he : e ∈ [k] := he
    rw [List.mem_singleton.mp he] at hc
    exact .inr ⟨k, Option.mem_toList.mp hk, c, hc, rfl⟩
  · obtain ⟨sources, hsources⟩ := SelectClause.resolveAll_ok (SelectClause.resolve_ok hresolved).1
      (List.mem_flatMap.mpr ⟨written, hselected, he⟩)
    obtain ⟨source, -, hsource⟩ := Scope.leadsTo_of_mem hsources hc
    exact .inl ⟨source, hsource⟩

end Select

/-! ### Row-wise lists of a text -/

/-- The select lists of a text are spelled as it spells them. -/
theorem SelectClause.Located.asWritten {P : Nat → Prop} {select : SelectClause} (h : select.Located P) :
    AsWritten select none :=
  fun item hitem e he c hc => ((located_itemExprs (h.items item hitem) e he).columns c hc).2

/-- No row-wise list has a sample key. -/
theorem Compile.TakesKey.eq_none {select : SelectClause} {scope : Scope} {body body' : Model}
    {interval key : Option Expr} (h : TakesKey select scope body interval key body')
    (hagg : select.hasAggregate = false) : key = none := by
  cases h with
  | plain => rfl
  | sampled hset =>
    obtain ⟨haggregates, -⟩ := Clause.setSampleBy_ok hset
    rw [hagg] at haggregates
    cases haggregates

/-- **Row-wise lists of a text are as written.** On every level of a statement, a row-wise list and the
sample key that it is laid out behind refer to columns only as the text spells them. -/
theorem Compile.asWritten_of_ofText {sql : String} {q level : Query} {select : SelectClause}
    {scope : Scope} {body body' : Model} {key : Option Expr}
    (h : Statement.ofText sql = .ok (.query q)) (hlevel : level ∈ levelsOfQuery q)
    (hselect : level.select = some select) (hagg : select.hasAggregate = false)
    (hkey : TakesKey select scope body level.sampleBy key body') : AsWritten select key := by
  have hlocated := Statement.located_ofText sql
  rw [h] at hlocated
  obtain rfl := hkey.eq_none hagg
  exact ((hlocated level hlevel).select select hselect).asWritten

/-! ### What a row-wise list computes -/

namespace Layers

variable {select : SelectClause} {scope : Scope} {key : Option Expr} {l : Layers}

/-- What a column of the main projection computes over the sources of a row-wise list: every
reference is replaced by what the naming layer publishes under its name, if there is such a layer. -/
def computes? (l : Layers) (e : Expr) : Option Expr :=
  match l.naming with
  | some layer => (Projection.choose layer.columns).expand? e
  | none => some e

theorem map_erase_computes? {e e' : Expr} (h : Layer.ReadsThrough l.naming e e') :
    (l.computes? e').map Expr.erase = some e.erase := by
  unfold computes?
  cases hnaming : l.naming with
  | none =>
    rw [hnaming] at h
    exact congrArg some h
  | some layer =>
    rw [hnaming] at h
    obtain ⟨x, hx, hxe⟩ := h
    change ((Projection.choose layer.columns).expand? e').map Expr.erase = _
    rw [hx, Option.map_some, hxe]

/-- A select list alone binds no clause but the sample key. -/
theorem unbound_ofSelect (h : Layers.ofSelect select scope key = .ok l) :
    l.sampleBy = none ∧ l.orderBy = [] ∧ l.limit = none ∧ l.wrap = false := by
  unfold Layers.ofSelect at h
  obtain ⟨_, _, h⟩ := Except.bind_eq_ok.mp h
  obtain ⟨_, _, h⟩ := Except.bind_eq_ok.mp h
  cases h
  exact ⟨rfl, rfl, rfl, rfl⟩

/-- **The layers of a row-wise select list compute what is written.** An accepted list without
aggregates and window functions is assembled from its main projection, a `choose` or a `virtual`, and
at most one layer below it. The columns of the main projection are the items in order, each under its
name; what the layer publishes for its references put in their place, it is the expression written for
the item. The layer publishes plain columns of the sources and nothing else. -/
theorem ofSelect_rowwise (h : Layers.ofSelect select scope key = .ok l)
    (hagg : select.hasAggregate = false) (hwindows : select.isAnalytic = false)
    (hwritten : AsWritten select key) (body : Model) :
    l.onto body = { Model.select l.main
        (stack (l.naming.map fun layer => .choose layer.columns) body) with timestamp := l.timestamp } ∧
      (∃ columns, l.main = .choose columns ∨ l.main = .virtual columns) ∧
      List.Forall₂ (fun item column => IsOutput item (column.1, l.computes? column.2))
        (keyed key select.items) l.main.columns ∧
      ∀ layer ∈ l.naming, ∀ c ∈ layer.columns, ∃ ref p, c.expr = .column ref p ∧
        ((∃ source, scope.LeadsTo ref source) ∨ ∃ k ∈ key, ∃ column ∈ k.columns, column.1 = ref) := by
  have hlayout := ofSelect_ok h
  obtain ⟨hinner, houter, hmain⟩ := hlayout.plain hagg hwindows
  have hcolumns : l.main.columns =
      (shownColumns (laidOut select key)).map fun c => (c.name, c.expr) := by
    rcases hmain with ⟨hmain, -⟩ | ⟨hmain, -⟩ <;> rw [hmain] <;> rfl
  refine ⟨?_, ?_, ?_, ?_⟩
  · obtain ⟨hsampleBy, horderBy, hlimit, hwrap⟩ := unbound_ofSelect h
    rw [onto_eq, hwrap, if_neg Bool.false_ne_true, sorted, houter, below, hinner, hsampleBy, horderBy,
      hlimit]
    rfl
  · rcases hmain with ⟨hmain, -⟩ | ⟨hmain, -⟩
    · exact ⟨_, .inl hmain⟩
    · exact ⟨_, .inr hmain⟩
  · have hreads := hlayout.reads hwritten
    rw [hlayout.items] at hreads
    rw [hcolumns]
    refine List.forall₂_map_right_iff.mpr (List.forall₂_map_right_iff.mpr
      (forall₂_comp (named_spec hlayout.given).1 (List.forall₂_map_left_iff.mp hreads) ?_))
    intro item named read hnamed hread
    constructor
    · rw [hread.1]
      exact hnamed.2.2
    · rw [← hnamed.1]
      exact map_erase_computes? hread.2
  · intro layer hlayer
    rw [hlayout.naming] at hlayer
    exact laid_publishesOnly (named_isSourceColumn hlayout.resolved hlayout.given) layer hlayer

end Layers

/-- `select a b, b a, a + b n`: two columns that change names beside a computed one. -/
def swappedSelect : SelectClause :=
  let a := Expr.column (.plain "a") 0
  let b := Expr.column (.plain "b") 0
  ⟨0, [⟨a, some ⟨"b", 0⟩, none⟩, ⟨b, some ⟨"a", 0⟩, none⟩, ⟨.binary .add a b 0, some ⟨"n", 0⟩, none⟩]⟩

/-- The layer publishes each of the two columns under the name of the other, and the sum reads both
from there. -/
theorem Layers.ofSelect_rowwise_swapped :
    ∃ l, Layers.ofSelect swappedSelect numbersScope none = .ok l ∧ l.naming.isSome ∧
      swappedSelect.hasAggregate = false ∧ swappedSelect.isAnalytic = false ∧
      AsWritten swappedSelect none ∧
      l.main.columns.map (fun c => c.2.text) = ["b", "a", "b + a"] ∧
      List.Forall₂ (fun item column => IsOutput item (column.1, l.computes? column.2))
        swappedSelect.items l.main.columns := by
  obtain ⟨l, hl⟩ : ∃ l, Layers.ofSelect swappedSelect numbersScope none = .ok l := ⟨_, rfl⟩
  have hwritten : AsWritten swappedSelect none := by decide +kernel
  obtain ⟨-, -, hcomputes, -⟩ :=
    Layers.ofSelect_rowwise hl (by decide) (by decide) hwritten (.ofTable "t" numbersTable)
  have hlayers : l.naming.isSome ∧ l.main.columns.map (fun c => c.2.text) = ["b", "a", "b + a"] := by
    cases hl
    decide +kernel
  exact ⟨l, hl, hlayers.1, by decide, by decide, hwritten, hlayers.2, hcomputes⟩

end SeriesQuery
