import SeriesQuery.Proofs.Select.Ordering
import SeriesQuery.Proofs.Select.Outputs
import SeriesQuery.Proofs.Select.Windows

/-!
What `order by` sorts on.

A column that names an item of the select list leads down to what is written for the item, and
every other column to the column of a source that it resolves to, whether the select list
publishes it or it is hidden behind the list (`Clause.orderLayers_sorts`).
-/

namespace SeriesQuery

open Select Layers

/-! ### References of the items -/

theorem SelectClause.resolveAll_ok {scope : Scope} {es : List Expr}
    (h : SelectClause.resolveAll scope es = .ok ()) {e : Expr} (he : e ∈ es) :
    ∃ sources, scope.sourcesIn e = .ok sources := by
  induction es with
  | nil => cases he
  | cons first es ih =>
    rw [resolveAll] at h
    split at h
    · cases h
    · rename_i sources hsources
      rcases List.mem_cons.mp he with rfl | he
      · exact ⟨sources, hsources⟩
      · exact ih h he

namespace Layers

variable {select : SelectClause} {scope : Scope} {key : Option Expr} {l : Layers} {body : Model}

/-- The items of an accepted select list have references that lead to columns. -/
theorem IsLayout.resolves (h : l.IsLayout select scope key) (hwritten : AsWritten select key)
    (hkey : ∀ k ∈ key, ∀ c ∈ k.columns, ∃ source, scope.LeadsTo c.1 source) :
    scope.Resolves l.items := by
  intro item hitem c hc
  rw [h.items] at hitem
  obtain ⟨n, hn, rfl⟩ := List.mem_map.mp hitem
  obtain ⟨written, hmem, hnamed⟩ :=
    exists_mem_of_forall₂ (R := flip IsNamed) (named_spec h.given).1.flip hn
  have hc : c ∈ written.expr.columns := hnamed.1 ▸ hc
  refine ⟨hwritten written hmem written.expr List.mem_cons_self c hc, ?_⟩
  rcases List.mem_append.mp hmem with hkeyed | hselected
  · obtain ⟨k, hk, rfl⟩ := List.mem_map.mp hkeyed
    exact hkey k (Option.mem_toList.mp hk) c hc
  · obtain ⟨sources, hsources⟩ := SelectClause.resolveAll_ok (SelectClause.resolve_ok h.resolved).1
      (List.mem_flatMap.mpr ⟨written, hselected, List.mem_cons_self⟩)
    obtain ⟨source, -, hsource⟩ := Scope.leadsTo_of_mem hsources hc
    exact ⟨source, hsource⟩

/-! ### Lists that can carry more columns -/

/-- The columns of the main layer of a list that neither groups nor has windows. -/
def shownColumns (items : List Item) : List PublishedColumn :=
  items.map fun item => ⟨item.name, item.expr⟩

/-- The layers of a list that neither groups nor has windows. -/
theorem IsLayout.plain (h : l.IsLayout select scope key) (hagg : select.hasAggregate = false)
    (hwindows : select.isAnalytic = false) :
    l.inner = none ∧ l.outer = none ∧
      (l.main = .choose (shownColumns (laidOut select key)) ∧ l.naming = none ∧
          (named select key).1.all Item.isColumn = true ∨
        l.main = .virtual (shownColumns (laidOut select key)) ∧
          (named select key).1.all Item.isColumn = false) := by
  have hprojections := h.projections
  rw [hagg, h.isAnalytic, hwindows] at hprojections
  cases hplain : (named select key).1.all Item.isColumn with
  | true =>
    rw [hplain] at hprojections
    obtain ⟨hinner, hmain, houter⟩ : l.inner = none ∧
        l.main = .choose (shownColumns (laidOut select key)) ∧ l.outer = none := by
      simpa [project, shownColumns] using hprojections
    refine ⟨hinner, houter, .inl ⟨hmain, ?_, rfl⟩⟩
    rw [h.naming, laid, h.isAnalytic, hagg, hwindows, hplain]
    rfl
  | false =>
    rw [hplain] at hprojections
    obtain ⟨hinner, hmain, houter⟩ : l.inner = none ∧
        l.main = .virtual (shownColumns (laidOut select key)) ∧ l.outer = none := by
      simpa [project, shownColumns] using hprojections
    exact ⟨hinner, houter, .inr ⟨hmain, rfl⟩⟩

theorem IsLayout.main_columns (h : l.IsLayout select scope key) (hagg : select.hasAggregate = false)
    (hwindows : select.isAnalytic = false) :
    l.main.columns = (laidOut select key).map fun item => (item.name, item.expr) := by
  obtain ⟨-, -, ⟨hmain, -⟩ | ⟨hmain, -⟩⟩ := h.plain hagg hwindows <;> rw [hmain] <;>
    exact List.map_map

/-- An item that a copy of the main layer leaves what it is: the columns that it is made of are
items under their own names. -/
def StaysReadable (select : SelectClause) (key : Option Expr) (l : Layers)
    (item : String × Expr) : Prop :=
  l.wrap = true → (laid select key).2 = none → (named select key).1.all Item.isColumn = false →
    ∀ c ∈ item.2.columns, IsKey (laidOut select key) c.1

/-- The layers of a list that neither groups nor has windows carry its items. -/
theorem IsLayout.carries (h : l.IsLayout select scope key) (hagg : select.hasAggregate = false)
    (hwindows : select.isAnalytic = false) (hwritten : AsWritten select key)
    (stays : String × Expr → Prop) :
    Carries (ColumnRef.IsPlain (shownColumns (laidOut select key))) stays l.items
      (shownColumns (laidOut select key)) [] l := by
  obtain ⟨hinner, houter, hmain⟩ := h.plain hagg hwindows
  refine ⟨hinner, houter, ⟨[], .nil, ?_⟩, fun layer hlayer => ?_, ?_, fun _ h => (nomatch h)⟩
  · rw [List.append_nil]
    exact hmain.imp (fun hmain => ⟨hmain.1, hmain.2.1⟩) fun hmain => ⟨hmain.1, fun _ => rfl⟩
  · rw [h.naming] at hlayer
    exact ((isLaidOut h.given hwritten).sound layer hlayer).mono fun _ href => href.1
  · refine List.forall₂_map_right_iff.mpr ((h.reads hwritten).imp fun item read hread => ?_)
    exact ⟨hread.1, .inr hread.2, fun _ => hread.2⟩

/-- Such a list shows its items. -/
theorem IsLayout.shown_plain (h : l.IsLayout select scope key) (hagg : select.hasAggregate = false)
    (hwindows : select.isAnalytic = false) (hwritten : AsWritten select key)
    (hbody : body.projection = none) : List.Forall₂ IsShown l.items (l.sorted body).outputs := by
  obtain ⟨hinner, houter, -⟩ := h.plain hagg hwindows
  refine shown_of_main houter hbody ?_
  rw [h.main_columns hagg hwindows, hinner]
  refine List.forall₂_map_right_iff.mpr ((h.reads hwritten).imp fun item read hread => ?_)
  exact ⟨hread.1, read.expr, hread.2, rfl⟩

/-- A copy of the main layer publishes the items that stay readable as they are. -/
theorem IsLayout.copies (h : l.IsLayout select scope key) (hwritten : AsWritten select key)
    (hnaming : l.naming = none) {stays : String × Expr → Prop}
    (hstays : ∀ item, stays item → ∀ c ∈ item.2.columns, IsKey (laidOut select key) c.1) :
    Copies (ColumnRef.IsPlain (shownColumns (laidOut select key))) stays l.items
      (shownColumns (laidOut select key)) := by
  have hsame : laidOut select key = (named select key).1 := laidOut_unnamed (h.naming ▸ hnaming)
  have hapart : NamedApart (shownColumns (laidOut select key)) :=
    List.pairwise_map.mpr (hsame ▸ (named_spec h.given).2.1)
  have hcopy : (copyOf (.virtual (shownColumns (laidOut select key)))).columns =
      shownColumns (laidOut select key) := by
    simp only [copyOf, Projection.columns, List.map_map]
    exact List.map_id _
  refine ⟨⟨by rwa [hcopy], fun c hc => ?_, fun c hc => ?_⟩, ?_⟩
  · rw [hcopy] at hc
    refine AliasSet.taken_ofList ?_
    simp only [Projection.aliases, Projection.columns, List.map_map]
    exact List.mem_map_of_mem hc
  · rw [hcopy] at hc
    cases hcolumn : c.expr.column? with
    | none => exact fun ref href htext => absurd htext (href.2 c hc hcolumn)
    | some found =>
      obtain ⟨p, hexpr⟩ := Expr.column?_eq_some.mp hcolumn
      obtain ⟨item, hitem, rfl⟩ := List.mem_map.mp hc
      have hexpr : item.expr = .column found p := hexpr
      have hfound : found.Written :=
        (named_refersTo h.given hwritten item (hsame ▸ hitem)).expr (found, p)
          (by simp [hexpr, Expr.columns])
      change item.expr.Honest _
      rw [hexpr]
      exact fun ref href => ColumnRef.spelledApart_written.honest hfound p ref href.1
  · rw [h.items, ← hsame]
    refine List.forall₂_map_left_iff.mpr (List.forall₂_map_right_iff.mpr
      (List.forall₂_same.mpr fun item _ hitem => ?_))
    refine (Projection.reads_congruent _).self fun c hc => ?_
    obtain ⟨hplain, named, hnamed, hcolumn, hname⟩ := hstays _ hitem c hc
    obtain ⟨p, hexpr⟩ := Expr.column?_eq_some.mp hcolumn
    have hpublished := hapart.published_of_mem (List.mem_map_of_mem (f := fun item : Item =>
      (⟨item.name, item.expr⟩ : PublishedColumn)) hnamed)
    refine ⟨named.expr, ?_, by rw [hexpr]; rfl⟩
    change (if c.1.qualifier.isNone then (Projection.choose _).column? c.1.name else none) = _
    rw [hplain, column?_choose, hcopy, ← published_congr hname]
    exact hpublished

/-! ### What the names show -/

section

variable {known : ColumnRef → Prop} {stays : String × Expr → Prop} {items : List (String × Expr)}
  {shown : List PublishedColumn} {hidden : List (ColumnRef × String)}

theorem names_of_shown {outputs : List (String × Option Expr)}
    (h : List.Forall₂ IsShown items outputs) : outputs.map Prod.fst = items.map Prod.fst := by
  induction h with
  | nil => rfl
  | cons hitem _ ih => rw [List.map_cons, List.map_cons, hitem.1, ih]

theorem offers_of_shown (hshown : List.Forall₂ IsShown l.items (l.sorted body).outputs)
    (hapart : l.items.Pairwise fun a b => Ascii.same a.1 b.1 = false) : Offers l.items [] l := by
  have hnames : l.top.aliases = l.items.map Prod.fst := by
    rw [← l.sorted_names body]
    exact names_of_shown hshown
  refine ⟨rfl, by rw [hnames, List.map_nil, List.append_nil], ?_⟩
  rw [List.map_nil, List.append_nil]
  exact List.pairwise_map.mpr hapart

/-- A name shows what is published under it. -/
theorem Offers.shows (h : Offers items hidden l) {output : String × Option Expr}
    (houtput : output ∈ (l.sorted body).outputs) {e : Expr}
    (he : output.2.map Expr.erase = some e.erase) (p : Nat) :
    (l.sorted body).Shows e (Layer.reference output.1 p) := by
  have hnames : ((l.sorted body).outputs.map Prod.fst).Pairwise fun a b =>
      Ascii.same a b = false := by
    rw [sorted_names, h.aliases_eq]
    exact h.apart
  rw [Model.Shows, Model.origin?_reference (List.pairwise_map.mp hnames) houtput]
  exact he

theorem Carries.shows (h : Carries known stays items shown hidden l)
    (hoffers : Offers items hidden l) (hbody : body.projection = none) {c : PublishedColumn}
    {columns : List PublishedColumn}
    (hmain : l.main.columns = (shown ++ columns).map fun c => (c.name, c.expr))
    (hc : c ∈ shown ++ columns) {e : Expr} (hread : Layer.ReadsThrough l.naming e c.expr) (p : Nat) :
    (l.sorted body).Shows e (Layer.reference c.name p) := by
  have houtput : (c.name, (l.below body).origin? c.expr) ∈ (l.sorted body).outputs := by
    rw [sorted_outputs h.outer, hmain, List.map_map]
    exact List.mem_map_of_mem (f := fun c : PublishedColumn =>
      (c.name, (l.below body).origin? c.expr)) hc
  have hinner : Layer.ReadsThrough l.inner c.expr c.expr := by
    rw [h.inner]
    rfl
  exact hoffers.shows houtput (below_shows hbody hread hinner) p

/-- The name of an item that stays readable shows the item. -/
theorem Carries.shows_item (h : Carries known stays items shown hidden l)
    (hoffers : Offers items hidden l) (hbody : body.projection = none) {item : String × Expr}
    (hitem : item ∈ items) (hstays : stays item) (p : Nat) :
    (l.sorted body).Shows item.2 (Layer.reference item.1 p) := by
  obtain ⟨columns, -, hmain⟩ := h.columns_eq
  obtain ⟨c, hc, hcarried⟩ := exists_mem_of_forall₂ h.carried hitem
  rw [← hcarried.name]
  exact h.shows hoffers hbody hmain (List.mem_append_left _ hc) (hcarried.reads hstays) p

/-- The name of a hidden column shows the column. -/
theorem Carries.shows_hidden (h : Carries known stays items shown hidden l)
    (hoffers : Offers items hidden l) (hbody : body.projection = none)
    {column : ColumnRef × String} (hcolumn : column ∈ hidden) (p : Nat) :
    (l.sorted body).Shows (.column column.1 0) (Layer.reference column.2 p) := by
  obtain ⟨columns, hcolumns, hmain⟩ := h.columns_eq
  obtain ⟨c, hc, hname, hread⟩ := exists_mem_of_forall₂ hcolumns hcolumn
  rw [← hname]
  exact h.shows hoffers hbody hmain (List.mem_append_right _ hc) hread p

end

/-! ### The layers once an order is bound -/

theorem IsLayout.withSampleBy (h : l.IsLayout select scope key) (interval : Option Expr) :
    IsLayout select scope key { l with sampleBy := interval } :=
  ⟨h.resolved, h.given, h.naming, h.projections, h.items, h.wrap, h.orderBy⟩

/-- A list that groups or has windows cannot carry more columns. -/
theorem IsLayout.combining_iff (h : l.IsLayout select scope key) :
    (l.combinesRows || l.outer.isSome) = (select.hasAggregate || select.isAnalytic) := by
  have hprojections := h.projections
  rw [h.isAnalytic] at hprojections
  cases hagg : select.hasAggregate with
  | true =>
    rw [hagg] at hprojections
    have hmain : l.main.isGroupBy = true := by
      rw [show l.main = _ from congrArg (fun p => p.2.1) hprojections]
      rfl
    simp [combinesRows, hmain]
  | false =>
    cases hwindows : select.isAnalytic with
    | true =>
      rw [hagg, hwindows] at hprojections
      have hmain : l.main.isAnalytic = true := by
        rw [show l.main = _ from congrArg (fun p => p.2.1) hprojections]
        change (analyze (laidOut select key)).2.isAnalytic = true
        unfold analyze
        split <;> rfl
      simp [combinesRows, hmain]
    | false =>
      obtain ⟨-, houter, ⟨hmain, -⟩ | ⟨hmain, -⟩⟩ := h.plain hagg hwindows <;>
        simp [combinesRows, hmain, houter, Projection.isGroupBy, Projection.isAnalytic]

/-- An accepted select list shows its items. -/
theorem IsLayout.shown (h : l.IsLayout select scope key) (hwritten : AsWritten select key)
    (hgroups : select.hasAggregate = true → KeepsApart (laidOut select key))
    (hwindows : select.isAnalytic = true → ComputedApart (laidOut select key))
    (hbody : body.projection = none) : List.Forall₂ IsShown l.items (l.sorted body).outputs := by
  cases hagg : select.hasAggregate with
  | true => exact h.shown_grouped hagg hwritten (hgroups hagg) hbody
  | false =>
    cases hanalytic : select.isAnalytic with
    | true => exact (h.shown_analytic hanalytic hwritten (hwindows hanalytic) hbody).2.2
    | false => exact h.shown_plain hagg hanalytic hwritten hbody

end Layers

namespace Clause

/-! ### What an order sorts on -/

/-- What an `order by` column sorts on if it is bound to `bound`: the item that it names, else
the column that it leads to. -/
def SortsOn (scope : Scope) (items : List (String × Expr)) (m : Model) (ref : ColumnRef)
    (bound : Expr) : Prop :=
  match itemNamed? items ref with
  | some item => m.Shows item.2 bound
  | none => ∃ e, m.Shows e bound ∧ scope.IsColumn e ref

/-- What a column of an order has to do with what it is bound to. -/
def IsSortedOn (scope : Scope) (items : List (String × Expr)) (m : Model) (item bound : OrderItem) :
    Prop :=
  bound.descending = item.descending ∧
    ∃ ref, item.expr.column? = some ref ∧ SortsOn scope items m ref bound.expr

/-- The names of items and of hidden columns show what they are the names of. -/
structure ShowsNames (stays : String × Expr → Prop) (items : List (String × Expr))
    (hidden : List (ColumnRef × String)) (m : Model) : Prop where
  items : ∀ item ∈ items, stays item → ∀ p, m.Shows item.2 (Layer.reference item.1 p)
  hidden : ∀ column ∈ hidden, ∀ p, m.Shows (.column column.1 0) (Layer.reference column.2 p)

/-- A column that is bound to a name which means what the column means sorts on it. -/
theorem IsBound.isSortedOn {scope : Scope} {stays : String × Expr → Prop}
    {items : List (String × Expr)} {hidden : List (ColumnRef × String)} {m : Model}
    {item bound : OrderItem} (h : IsBound scope items hidden item bound)
    (hshows : ShowsNames stays items hidden m)
    (hstays : ∀ ref, item.expr.column? = some ref → ∀ it ∈ items,
      Ascii.same it.1 ref.name = true ∨ scope.IsColumn it.2 ref → stays it) :
    IsSortedOn scope items m item bound := by
  obtain ⟨hdescending, ref, p, name, hexpr, hreference, hmeans⟩ := h
  have hcolumn : item.expr.column? = some ref := by rw [hexpr]; rfl
  refine ⟨hdescending, ref, hcolumn, ?_⟩
  rw [hreference]
  unfold Means at hmeans
  unfold SortsOn
  cases hitem : itemNamed? items ref with
  | some it =>
    rw [hitem] at hmeans
    obtain ⟨-, hit, hsame⟩ := itemNamed?_some hitem
    rw [hmeans]
    exact hshows.items it hit (hstays ref hcolumn it hit (.inl hsame)) p
  | none =>
    rw [hitem] at hmeans
    rcases hmeans with ⟨it, hit, rfl, hmeant⟩ | ⟨column, hhidden, rfl, hmeant⟩
    · exact ⟨it.2, hshows.items it hit (hstays ref hcolumn it hit (.inr hmeant)) p, hmeant⟩
    · exact ⟨.column column.1 0, hshows.hidden column hhidden p, hmeant⟩

/-- The names that layers offer which cannot carry more columns show the items. -/
theorem showsNames_of_shown {hidden : List (ColumnRef × String)} {l : Layers} {body : Model}
    (hshown : List.Forall₂ IsShown l.items (l.sorted body).outputs)
    (hstart : Offers l.items [] l) (hoffers : Offers l.items hidden l)
    (stays : String × Expr → Prop) : ShowsNames stays l.items hidden (l.sorted body) := by
  refine ⟨fun item hitem _ p => ?_, fun column hcolumn => ?_⟩
  · obtain ⟨output, houtput, hname, hshows⟩ := exists_mem_of_forall₂ hshown hitem
    exact hname ▸ hstart.shows houtput hshows p
  · have haliases := hoffers.aliases_eq
    rw [hstart.aliases_eq] at haliases
    have hnone : hidden = [] := by simpa using haliases
    rw [hnone] at hcolumn
    cases hcolumn

/-- What keeps the columns of an order apart from each other and from a select list. -/
structure Sortable (scope : Scope) (select : SelectClause) (key : Option Expr)
    (orderBy : List OrderItem) (l : Layers) : Prop where
  written : AsWritten select key
  sampleKey : ∀ k ∈ key, ∀ c ∈ k.columns, ∃ source, scope.LeadsTo c.1 source
  groups : select.hasAggregate = true → KeepsApart (laidOut select key)
  windows : select.isAnalytic = true → ComputedApart (laidOut select key)
  columns : ∀ item ∈ orderBy, ∀ ref, item.expr.column? = some ref → itemNamed? l.items ref = none →
    Orderable scope l.items (shownColumns (laidOut select key)) l.naming ref
  apart : orderBy.Pairwise fun other item => ∀ r ∈ other.expr.column?, ∀ ref ∈ item.expr.column?,
    LeavesFree scope l.items r ref
  copied : ∀ order ∈ orderBy, ∀ ref, order.expr.column? = some ref → ∀ item ∈ l.items,
    Ascii.same item.1 ref.name = true ∨ scope.IsColumn item.2 ref → StaysReadable select key l item

/-- A name that does not begin with another is left free by it. -/
theorem leavesFree_of_not_prefix {scope : Scope} {items : List (String × Expr)}
    {other ref : ColumnRef}
    (h : ¬ (Ascii.lower other.name).toList <+: (Ascii.lower ref.name).toList) :
    LeavesFree scope items other ref := by
  intro _ name hmade hsame
  rw [← Ascii.same_iff.mp hsame] at h
  exact absurd hmade.lower_prefix h

/-- The columns of an order are bound to names that mean what they mean, and the names show
it. -/
theorem orderColumns_shows {select : SelectClause} {scope : Scope} {key : Option Expr}
    {start final : Layers} {orderBy bound : List OrderItem} {body : Model}
    (hlayout : start.IsLayout select scope key)
    (hbound : orderColumns scope orderBy start = .ok (bound, final))
    (hsortable : Sortable scope select key orderBy final) (hbody : body.projection = none) :
    ∃ hidden, List.Forall₂ (IsBound scope final.items hidden) orderBy bound ∧
      ShowsNames (StaysReadable select key final) final.items hidden (final.sorted body) := by
  have hwithin := orderColumns_within hbound
  have hitems : final.items = start.items := hwithin.items
  have hshown := hlayout.shown hsortable.written hsortable.groups hsortable.windows hbody
  have hoffers := offers_of_shown hshown hlayout.apart
  have hplain : (start.combinesRows || start.outer.isSome) = false →
      select.hasAggregate = false ∧ select.isAnalytic = false := by
    rw [hlayout.combining_iff]
    exact Bool.or_eq_false_iff.mp
  have hcopy : final.wrap = true → start.naming = none → start.main.computes = true →
      Copies (ColumnRef.IsPlain (shownColumns (laidOut select key)))
        (StaysReadable select key final) start.items (shownColumns (laidOut select key)) := by
    intro hwrap hnaming hcomputes
    cases hcombines : start.combinesRows || start.outer.isSome with
    | true =>
      rw [orderColumns_combining hcombines hbound, hlayout.wrap] at hwrap
      cases hwrap
    | false =>
      obtain ⟨-, -, ⟨hmain, -⟩ | ⟨-, hall⟩⟩ := hlayout.plain (hplain hcombines).1 (hplain hcombines).2
      · rw [hmain] at hcomputes
        cases hcomputes
      · exact hlayout.copies hsortable.written hnaming fun item hstays =>
          hstays hwrap (hlayout.naming ▸ hnaming) hall
  have hbinds : Binds (StaysReadable select key final) start.items
      (shownColumns (laidOut select key)) [] start :=
    ⟨hoffers, fun hcombines => hlayout.carries (hplain hcombines).1 (hplain hcombines).2
      hsortable.written _⟩
  obtain ⟨hidden, hfinal, hall⟩ := orderColumns_spec hbinds
    (hlayout.resolves hsortable.written hsortable.sampleKey) (hitems ▸ hsortable.columns)
    (hitems ▸ hsortable.apart) (fun _ _ _ _ _ _ hmem => (List.not_mem_nil hmem).elim) hcopy hbound
  rw [hitems]
  refine ⟨hidden, hall, ?_⟩
  cases hcombines : start.combinesRows || start.outer.isSome with
  | true =>
    obtain rfl := orderColumns_combining hcombines hbound
    exact showsNames_of_shown hshown hoffers hfinal.offers _
  | false =>
    have hcarries := hfinal.carries (hwithin.combines.trans hcombines)
    exact ⟨fun item hitem hstays => hcarries.shows_item hfinal.offers hbody hitem hstays,
      fun column hcolumn => hcarries.shows_hidden hfinal.offers hbody hcolumn⟩

/-- **`order by` sorts on what was named.** Every column is bound to a name that leads down to
the item that the column names, or else to the column of a source that it resolves to. -/
theorem orderLayers_sorts {select : SelectClause} {scope : Scope} {key : Option Expr}
    {start l : Layers} {maxColumns : Nat} {orderBy : List OrderItem} {interval : Option Expr}
    {body : Model} (hstart : Layers.ofSelect select scope key = .ok start)
    (h : orderLayers scope maxColumns orderBy { start with sampleBy := interval } = .ok l)
    (hsortable : Sortable scope select key orderBy l) (hbody : body.projection = none) :
    List.Forall₂ (IsSortedOn scope l.items (l.sorted body)) orderBy l.orderBy := by
  have hlayout := (ofSelect_ok hstart).withSampleBy interval
  unfold orderLayers at h
  split at h
  · rename_i hempty
    cases h
    rw [List.isEmpty_iff.mp hempty, hlayout.orderBy]
    exact .nil
  obtain ⟨_, _, h⟩ := Except.bind_eq_ok.mp h
  obtain ⟨⟨bound, final⟩, hbound, h⟩ := Except.bind_eq_ok.mp h
  cases h
  have hfinal : Sortable scope select key orderBy final :=
    ⟨hsortable.written, hsortable.sampleKey, hsortable.groups, hsortable.windows,
      hsortable.columns, hsortable.apart, hsortable.copied⟩
  obtain ⟨hidden, hall, hitems, hhidden⟩ := orderColumns_shows hlayout hbound hfinal hbody
  have hshows : ShowsNames (StaysReadable select key final) final.items hidden
      (({ final with orderBy := bound } : Layers).sorted body) :=
    ⟨fun item hitem hstays p => (hitems item hitem hstays p).of_source rfl rfl,
      fun column hcolumn p => (hhidden column hcolumn p).of_source rfl rfl⟩
  refine ((List.forall₂_and_left _ _).mpr ⟨fun _ hmem => hmem, hall⟩).imp fun item sorted hb => ?_
  exact hb.2.isSortedOn hshows (hsortable.copied item hb.1)

/-- A table of customers. -/
def customers : Table :=
  (((Table.empty "c").withColumn "id" .int).withColumn "x" .int).withColumn "y" .int

/-- A table of orders. -/
def orders : Table :=
  ((Table.empty "o").withColumn "id" .int).withColumn "x" .int

/-- The scope of both tables. -/
def ordersScope : Scope :=
  ⟨[⟨some "c", customers.shownColumns⟩, ⟨some "o", orders.shownColumns⟩]⟩

/-- `select o.x, c.y + o.x z`. -/
def sumsSelect : SelectClause :=
  let x := Expr.column (.qualified "o" "x") 0
  ⟨0, [⟨x, none, none⟩, ⟨.binary .add (.column (.qualified "c" "y") 0) x 0, some ⟨"z", 0⟩, none⟩]⟩

/-- `order by Z, c.id desc, o.x`. -/
def sumsOrder : List OrderItem :=
  [⟨.column (.plain "Z") 0, false⟩, ⟨.column (.qualified "c" "id") 0, true⟩,
    ⟨.column (.qualified "o" "x") 0, false⟩]

theorem leadsTo_id : ordersScope.LeadsTo (.qualified "c" "id") 0 :=
  Scope.leadsTo_of_resolve (p := 0) (r := ⟨0, some .int⟩) rfl

theorem leadsTo_x : ordersScope.LeadsTo (.qualified "o" "x") 1 :=
  Scope.leadsTo_of_resolve (p := 0) (r := ⟨1, some .int⟩) rfl

/-- An item by its name, a hidden column, and an item by what it is written as. -/
theorem orderLayers_sorts_sums :
    ∃ start l, Layers.ofSelect sumsSelect ordersScope none = .ok start ∧
      orderLayers ordersScope 3 sumsOrder { start with sampleBy := none } = .ok l ∧
      l.wrap = true ∧
      List.Forall₂ (IsSortedOn ordersScope l.items (l.sorted (.ofTable "c" customers)))
        sumsOrder l.orderBy := by
  obtain ⟨start, hstart⟩ : ∃ start, Layers.ofSelect sumsSelect ordersScope none = .ok start :=
    ⟨_, rfl⟩
  obtain ⟨l, hl⟩ : ∃ l, orderLayers ordersScope 3 sumsOrder { start with sampleBy := none } = .ok l := by
    cases hstart
    exact ⟨_, rfl⟩
  have hitems : l.items = [("x", .column (.qualified "o" "x") 0),
      ("z", .binary .add (.column (.qualified "c" "y") 0) (.column (.qualified "o" "x") 0) 0)] := by
    cases hstart
    cases hl
    rfl
  have hnaming : (∀ layer ∈ l.naming, ∀ c ∈ layer.columns, Ascii.same c.name "c.id" = false ∧
      Ascii.same c.name "o.x" = false) ∧ l.wrap = true := by
    cases hstart
    cases hl
    decide +kernel
  have hx : ordersScope.IsColumn (.column (.qualified "o" "x") 0) (.qualified "o" "x") :=
    ⟨_, 1, rfl, rfl, leadsTo_x, leadsTo_x⟩
  have hlayer : (laid sumsSelect none).2 ≠ none :=
    Option.isSome_iff_ne_none.mp (by decide +kernel)
  have hsortable : Sortable ordersScope sumsSelect none sumsOrder l := by
    refine ⟨by decide +kernel, fun _ h => (nomatch h), fun h => absurd h (by decide),
      fun h => absurd h (by decide), ?_, ?_, fun _ _ _ _ _ _ _ _ hnone => absurd hnone hlayer⟩
    · rw [hitems]
      simp only [sumsOrder, List.forall_mem_cons]
      refine ⟨?_, ?_, ?_, fun _ h => (nomatch h)⟩
      · rintro _ ⟨⟩ h
        cases h
      · rintro _ ⟨⟩ -
        refine ⟨⟨by decide, ⟨0, leadsTo_id⟩, ?_⟩, by decide +kernel, fun layer hmem c hc hsame => ?_⟩
        · simp only [List.forall_mem_cons]
          exact ⟨fun h => absurd h (by decide), fun h => absurd h (by decide), fun _ h => (nomatch h)⟩
        · exact absurd hsame (Bool.eq_false_iff.mp (hnaming.1 layer hmem c hc).1)
      · rintro _ ⟨⟩ -
        refine ⟨⟨by decide, ⟨1, leadsTo_x⟩, ?_⟩, by decide +kernel, fun layer hmem c hc hsame => ?_⟩
        · simp only [List.forall_mem_cons]
          exact ⟨fun _ => hx, fun h => absurd h (by decide), fun _ h => (nomatch h)⟩
        · exact absurd hsame (Bool.eq_false_iff.mp (hnaming.1 layer hmem c hc).2)
    · have hfree : sumsOrder.Pairwise fun other item => ∀ r ∈ other.expr.column?,
          ∀ ref ∈ item.expr.column?,
            ¬ (Ascii.lower r.name).toList <+: (Ascii.lower ref.name).toList := by
        decide +kernel
      exact hfree.imp fun h r hr ref href => leavesFree_of_not_prefix (h r hr ref href)
  exact ⟨start, l, hstart, hl, hnaming.2, orderLayers_sorts hstart hl hsortable rfl⟩

/-- `select o.x` with `order by c.x`: the name of the item is taken for the column of the other
source. -/
theorem order_of_other_source :
    ∃ start l, Layers.ofSelect ⟨0, [⟨.column (.qualified "o" "x") 0, none, none⟩]⟩ ordersScope none =
        .ok start ∧
      orderLayers ordersScope 1 [⟨.column (.qualified "c" "x") 0, false⟩] start = .ok l ∧
      ¬ List.Forall₂ (IsSortedOn ordersScope l.items (l.sorted (.ofTable "c" customers)))
        [⟨.column (.qualified "c" "x") 0, false⟩] l.orderBy := by
  obtain ⟨start, hstart⟩ : ∃ start, Layers.ofSelect
      ⟨0, [⟨.column (.qualified "o" "x") 0, none, none⟩]⟩ ordersScope none = .ok start := ⟨_, rfl⟩
  obtain ⟨l, hl⟩ : ∃ l, orderLayers ordersScope 1 [⟨.column (.qualified "c" "x") 0, false⟩] start = .ok l := by
    cases hstart
    exact ⟨_, rfl⟩
  have horigin : l.orderBy = [⟨Layer.reference "x" 0, false⟩] ∧
      ((l.sorted (.ofTable "c" customers)).origin? (Layer.reference "x" 0)).map Expr.erase =
        some (.column (.qualified "o" "x") 0) := by
    cases hstart
    cases hl
    exact ⟨rfl, rfl⟩
  refine ⟨start, l, hstart, hl, fun h => ?_⟩
  rw [horigin.1] at h
  obtain ⟨⟨-, _, ⟨⟩, e, hshows, found, source, hcolumn, -, hfound, href⟩, -⟩ :=
    List.forall₂_cons.mp h
  rw [Model.Shows, horigin.2, Option.some.injEq] at hshows
  rw [← Expr.column?_erase, ← hshows] at hcolumn
  cases hcolumn
  obtain rfl : source = 1 := hfound.unique leadsTo_x
  have hx : ordersScope.LeadsTo (.qualified "c" "x") 0 :=
    Scope.leadsTo_of_resolve (p := 0) (r := ⟨0, some .int⟩) rfl
  cases href.unique hx

end Clause

end SeriesQuery
