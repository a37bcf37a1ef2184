import SeriesQuery.Proofs.Select.RowWise
import SeriesQuery.Proofs.Select.Spelled

/-!
References between the layers of a row-wise select list.

A layer may refer to what the layer below it publishes, the lowest one to columns of the scope, and a
`select-choose` only selects. The layers of a list without aggregates and window functions keep to
that (`Layers.Supported`), and go on to do so while columns are hidden behind them, except where a
computing list without a naming layer is copied under itself: the copy is a `select-choose` that
computes, and it hides what the list refers to (`Layers.stacked_hideAll_iff`).
-/

namespace SeriesQuery

open Select Layers

/-! ### Stacks of projections -/

/-- A `select-choose` publishes plain columns only. -/
def Projection.SelectsColumns : Projection → Prop
  | choose columns => ∀ c ∈ columns, c.expr.column?.isSome
  | _ => True

theorem Projection.SelectsColumns.push {p : Projection} (h : p.SelectsColumns) (name : String)
    {e : Expr} (he : e.column?.isSome) : (p.push name e).SelectsColumns := by
  cases p with
  | choose columns =>
    refine List.forall_mem_append.mpr ⟨h, fun c hc => ?_⟩
    obtain rfl := List.mem_singleton.mp hc
    exact he
  | _ => trivial

theorem Projection.isSome_lookup?_plain {p : Projection} {name : String} (h : name ∈ p.aliases) :
    (p.lookup? (.plain name)).isSome := by
  obtain ⟨c, hc, rfl⟩ := List.mem_map.mp h
  change ((p.columns.find? fun other => Ascii.same other.1 c.1).map Prod.snd).isSome = true
  rw [Option.isSome_map, List.find?_isSome]
  exact ⟨c, hc, Ascii.same_self c.1⟩

namespace Model

/-- A reference leads to what a model offers: a column of the scope if it is a row source, else a
column of its projection. -/
def Answers (scope : Scope) (m : Model) (ref : ColumnRef) : Prop :=
  match m.projection with
  | none => ∃ source, scope.LeadsTo ref source
  | some p => (p.lookup? ref).isSome

/-- Every projection down to the row source refers to what the model below it offers, and every
`select-choose` selects plain columns. -/
inductive Stacked (scope : Scope) : Model → Prop where
  | rows {m : Model} (hrows : m.projection = none) : Stacked scope m
  | layer {m below : Model} {p : Projection} (hprojection : m.projection = some p)
      (hsource : m.source = .nested below)
      (hrefs : ∀ c ∈ p.columns, c.2.RefersTo (below.Answers scope)) (hplain : p.SelectsColumns)
      (hbelow : Stacked scope below) : Stacked scope m

theorem Stacked.source {scope : Scope} {m below : Model} {p : Projection} (h : m.Stacked scope)
    (hprojection : m.projection = some p) (hsource : m.source = .nested below) :
    p.SelectsColumns ∧ below.Stacked scope := by
  cases h with
  | rows hrows =>
    rw [hprojection] at hrows
    cases hrows
  | layer hp hs hrefs hplain hbelow =>
    obtain rfl := Option.some.inj (hprojection.symm.trans hp)
    obtain rfl := RowSource.nested.inj (hsource.symm.trans hs)
    exact ⟨hplain, hbelow⟩

end Model

/-! ### Layers that publish what is read from them -/

namespace Layer

/-- The layer publishes a column for every reference of an expression. -/
def Publishes (layer : Layer) (e : Expr) : Prop :=
  e.RefersTo fun ref => ((Projection.choose layer.columns).lookup? ref).isSome

theorem publishes_of_reads {layer : Layer} {e e' : Expr} (h : layer.Reads e e') :
    layer.Publishes e' := by
  obtain ⟨x, hx, -⟩ := h
  exact Expr.isSome_of_substitute? hx

theorem isSome_lookup?_of_prefix {columns more : List PublishedColumn} (h : columns <+: more)
    {ref : ColumnRef} (href : ((Projection.choose columns).lookup? ref).isSome) :
    ((Projection.choose more).lookup? ref).isSome := by
  obtain ⟨x, hx⟩ := Option.isSome_iff_exists.mp href
  obtain ⟨hplain, hx⟩ := Option.ite_none_right_eq_some.mp hx
  rw [column?_choose] at hx
  rw [Projection.lookup?, if_pos hplain, column?_choose, published_of_prefix h hx]
  rfl

theorem publishes_lasting {known : ColumnRef → Prop} (e : Expr) :
    (growth known).Lasting fun layer => layer.Publishes e :=
  fun hext h c hc => isSome_lookup?_of_prefix hext.1 (h c hc)

theorem carry_publishes (e : Expr) :
    (growth fun _ => False).Ensures (fun _ => True) (carry e) fun layer e' => layer.Publishes e' :=
  (carry_readsAlike e).mono fun _ _ ⟨_, hread, _⟩ => publishes_of_reads hread

end Layer

namespace Select

theorem rename_publishes (item : Item) :
    (Layer.growth fun _ => False).Ensures (fun _ => True) (rename item)
      fun layer => item.ReadsAs fun _ e => layer.Publishes e := by
  rw [rename_eq]
  split
  · rename_i hrenamed
    exact Item.publish_ensures (Q := fun layer _ e => layer.Publishes e)
      (Item.isRenamed_eq_true hrenamed).1
      ((Layer.publish_ensures _ item.expr.honest_unknown).mono fun _ _ => Layer.publishes_of_reads)
  · exact Item.carry_ensures (Q := fun layer _ e => layer.Publishes e)
      (fun _ => Layer.publishes_lasting) fun e _ => Layer.carry_publishes e

/-- A naming layer publishes what the items refer to that read from it. -/
theorem renameItems_publishes (items : List Item) :
    ∀ layer ∈ (renameItems items).2, ∀ item ∈ (renameItems items).1, layer.Publishes item.expr := by
  have hrun : (Layer.growth fun _ => False).Ensures (fun _ => True) (items.mapM rename)
      fun layer => List.Forall₂ (fun item => item.ReadsAs fun _ e => layer.Publishes e) items :=
    Growth.Ensures.mapM (fun _ h => h)
      (Item.readsAs_lasting (Q := fun layer _ e => layer.Publishes e) fun _ =>
        Layer.publishes_lasting) fun item _ => rename_publishes item
  rw [renameItems_eq]
  split
  · exact fun _ h => by cases h
  · rintro layer ⟨⟩ item hitem
    obtain ⟨_, -, hread⟩ := exists_mem_of_forall₂ (R := flip _)
      (hrun Layer.empty (Layer.sound_empty _) trivial).2.2.flip hitem
    exact hread.expr

/-- So does the naming layer of a select list. -/
theorem laid_publishes {select : SelectClause} {key : Option Expr} :
    ∀ layer ∈ (laid select key).2, ∀ item ∈ laidOut select key, layer.Publishes item.expr := by
  unfold laidOut laid
  extract_lets items
  split
  · exact renameItems_publishes items
  · exact fun _ h => by cases h

end Select

/-! ### Layers that support each other -/

namespace Layers

variable {select : SelectClause} {scope : Scope} {key : Option Expr} {l : Layers}

/-- A reference of the main layer leads to what the naming layer publishes, or to a column of the
scope if there is none. -/
def Answers (scope : Scope) (naming : Option Layer) (ref : ColumnRef) : Prop :=
  match naming with
  | none => ∃ source, scope.LeadsTo ref source
  | some layer => ((Projection.choose layer.columns).lookup? ref).isSome

/-- The layers of a row-wise list refer to what is below them, and those that select plain columns
select nothing else. -/
structure Supported (scope : Scope) (l : Layers) : Prop where
  inner : l.inner = none
  outer : l.outer = none
  naming : ∀ layer ∈ l.naming, layer.Apart ∧
    layer.PublishesOnly fun ref => ∃ source, scope.LeadsTo ref source
  refs : ∀ c ∈ l.main.columns, c.2.RefersTo (Answers scope l.naming)
  plain : l.main.SelectsColumns
  items : ∀ item ∈ l.items, item.1 ∈ l.main.aliases

/-- Layers that support each other are stacked on a row source. -/
theorem Supported.onto (h : l.Supported scope) {body : Model} (hbody : body.projection = none) :
    (l.onto body).Stacked scope := by
  obtain ⟨hbelow, hanswers⟩ : (l.below body).Stacked scope ∧
      ∀ ref, Answers scope l.naming ref → (l.below body).Answers scope ref := by
    have hrows : ∀ ref, (∃ source, scope.LeadsTo ref source) → body.Answers scope ref := by
      intro ref href
      rwa [Model.Answers, hbody]
    rw [below, h.inner]
    cases hnaming : l.naming with
    | none => exact ⟨.rows hbody, hrows⟩
    | some layer =>
      refine ⟨.layer rfl rfl (fun c hc => ?_) (fun c hc => ?_) (.rows hbody), fun _ href => href⟩
      · obtain ⟨column, hcolumn, rfl⟩ := List.mem_map.mp hc
        obtain ⟨ref, p, hexpr, href⟩ := (h.naming layer hnaming).2 column hcolumn
        intro used hused
        rw [hexpr] at hused
        obtain rfl := List.mem_singleton.mp hused
        exact hrows ref href
      · obtain ⟨ref, p, hexpr, -⟩ := (h.naming layer hnaming).2 c hc
        rw [hexpr]
        rfl
  have hsorted : (l.sorted body).Stacked scope := by
    rw [sorted, h.outer]
    exact .layer rfl rfl (fun c hc ref href => hanswers ref.1 (h.refs c hc ref href)) h.plain hbelow
  rw [onto_eq]
  split
  · refine .layer rfl rfl (fun c hc => ?_) (fun c hc => ?_) hsorted
    · obtain ⟨_, hshown, rfl⟩ := List.mem_map.mp hc
      obtain ⟨item, hitem, rfl⟩ := List.mem_map.mp hshown
      intro ref href
      obtain rfl := List.mem_singleton.mp href
      rw [Model.Answers, sorted, h.outer]
      exact Projection.isSome_lookup?_plain (h.items item hitem)
    · obtain ⟨item, -, rfl⟩ := List.mem_map.mp hc
      rfl
  · exact hsorted

/-! ### Hidden columns -/

/-- The input of the main layer for a hidden column, where the main layer is not copied: a column that
the naming layer publishes, or one of the scope. -/
theorem Supported.hiddenInput (h : l.Supported scope) {ref : ColumnRef} (p : Nat)
    (href : ∃ source, scope.LeadsTo ref source)
    (hcopy : l.naming = none → l.main.computes = false) :
    ∃ naming, (l.hiddenInput (.column ref p)).2 = { l with naming } ∧
      (∀ layer ∈ naming, layer.Apart ∧
        layer.PublishesOnly fun ref => ∃ source, scope.LeadsTo ref source) ∧
      (∀ ref, Answers scope l.naming ref → Answers scope naming ref) ∧
      (l.hiddenInput (.column ref p)).1.RefersTo (Answers scope naming) ∧
      (l.hiddenInput (.column ref p)).1.column?.isSome := by
  obtain ⟨hinner, -, hnaming, -, -, -⟩ := h
  obtain ⟨naming, inner, main, _, _, _, _, _, _, _⟩ := l
  obtain rfl : inner = none := hinner
  cases naming with
  | none =>
    have hmain := hcopy rfl
    refine ⟨none, ?_⟩
    cases main with
    | virtual columns => cases hmain
    | choose | groupBy | analytic =>
      refine ⟨rfl, hnaming, fun _ h => h, fun c hc => ?_, rfl⟩
      obtain rfl := List.mem_singleton.mp hc
      exact href
  | some layer =>
    obtain ⟨hapart, honly⟩ := hnaming layer rfl
    obtain ⟨hsound, hext, hpublishes⟩ := Layer.carry_publishes (.column ref p) layer hapart trivial
    refine ⟨some (Layer.forward (.column ref p) layer).2, rfl, ?_,
      fun _ => Layer.isSome_lookup?_of_prefix hext.1, hpublishes, ?_⟩
    · rintro _ ⟨⟩
      exact ⟨hsound, (Layer.forward_publishesOnly href p layer honly).1⟩
    · change (Layer.forward (.column ref p) layer).1.column?.isSome = true
      rw [Layer.forward_eq]
      split <;> rfl

/-- **A hidden column leaves the layers supported**, if the main layer is not copied under itself for
it. -/
theorem Supported.publishHidden (h : l.Supported scope) {ref : ColumnRef} {p : Nat}
    (href : ∃ source, scope.LeadsTo ref source)
    (hcopy : l.naming = none → l.main.computes = true →
      ∃ c ∈ l.main.columns, c.2.sameText (.column ref p) = true) :
    (l.publishHidden (.column ref p)).2.Supported scope := by
  unfold Layers.publishHidden
  split
  · exact h
  · split
    · exact h
    · rename_i hnone
      have hnew : l.naming = none → l.main.computes = false := fun hnaming =>
        Bool.eq_false_iff.mpr fun hcomputes => by
          obtain ⟨c, hc, hsame⟩ := hcopy hnaming hcomputes
          exact List.find?_eq_none.mp hnone c hc hsame
      obtain ⟨naming, hlayers, hnaming, hanswers, hrouted, hcolumn⟩ := h.hiddenInput p href hnew
      cases hinput : l.hiddenInput (.column ref p) with
      | mk routed below =>
        rw [hinput] at hlayers hrouted hcolumn
        obtain rfl : below = { l with naming := naming } := hlayers
        refine ⟨h.inner, h.outer, hnaming, fun c hc => ?_, ?_, fun item hitem => ?_⟩
        · rw [columns_push] at hc
          rcases List.mem_append.mp hc with hc | hc
          · exact fun used hused => hanswers used.1 (h.refs c hc used hused)
          · obtain rfl := List.mem_singleton.mp hc
            exact hrouted
        · exact h.plain.push _ hcolumn
        · rw [Projection.aliases, columns_push, List.map_append]
          exact List.mem_append_left _ (h.items item hitem)

/-- The layers with columns hidden behind them, one after the other. -/
def hideAll (l : Layers) (columns : List (ColumnRef × Nat)) : Layers :=
  columns.foldl (fun l c => (l.publishHidden (.column c.1 c.2)).2) l

/-- A column that is spelled like one of the main layer changes nothing. -/
theorem publishHidden_eq_self {e : Expr} (h : ∃ c ∈ l.main.columns, c.2.sameText e = true) :
    (l.publishHidden e).2 = l := by
  obtain ⟨c, hc, hsame⟩ := h
  unfold Layers.publishHidden
  split
  · rfl
  · split
    · rfl
    · rename_i hnone
      exact absurd hsame (List.find?_eq_none.mp hnone c hc)

/-- Hidden columns leave the layers supported, if the main layer is not copied under itself for one of
them. -/
theorem Supported.hideAll (h : l.Supported scope) {columns : List (ColumnRef × Nat)}
    (hcolumns : ∀ c ∈ columns, ∃ source, scope.LeadsTo c.1 source)
    (hcopy : l.naming = none → l.main.computes = true → ∀ c ∈ columns,
      ∃ shown ∈ l.main.columns, shown.2.sameText (.column c.1 c.2) = true) :
    (l.hideAll columns).Supported scope := by
  induction columns generalizing l with
  | nil => exact h
  | cons c columns ih =>
    obtain ⟨hfirst, hrest⟩ := List.forall_mem_cons.mp hcolumns
    refine ih (h.publishHidden hfirst fun hnaming hcomputes =>
      hcopy hnaming hcomputes c List.mem_cons_self) hrest fun hnaming hcomputes => ?_
    have hwithin := l.publishHidden_within (.column c.1 c.2)
    have hall := hcopy (hwithin.naming_none hnaming) (hwithin.computes ▸ hcomputes)
    change ∀ other ∈ columns, ∃ shown ∈ (l.publishHidden (.column c.1 c.2)).2.main.columns, _
    rw [publishHidden_eq_self (hall c List.mem_cons_self)]
    exact fun other hother => hall other (List.mem_cons_of_mem _ hother)

/-! ### The copy -/

theorem hideAll_within (l : Layers) (columns : List (ColumnRef × Nat)) :
    l.Within (l.hideAll columns) := by
  induction columns generalizing l with
  | nil => exact .refl l
  | cons c columns ih => exact (l.publishHidden_within _).trans (ih _)

/-- A computing list without a naming layer becomes one, for a column that it does not show. -/
theorem publishHidden_copied (hnaming : l.naming = none) (hcomputes : l.main.computes = true)
    (houter : l.outer = none) {e : Expr} (he : ∀ c ∈ l.main.columns, c.2.sameText e = false) :
    ∃ layer ∈ (l.publishHidden e).2.naming, (copyOf l.main).columns <+: layer.columns := by
  obtain ⟨naming, inner, main, outer, _, _, _, _, _, _⟩ := l
  obtain rfl : naming = none := hnaming
  obtain rfl : outer = none := houter
  cases main with
  | choose | groupBy | analytic => cases hcomputes
  | virtual columns =>
    unfold Layers.publishHidden
    split
    · rename_i hcombines
      cases hcombines
    · split
      · rename_i c hfind
        have hsame := List.find?_some hfind
        rw [he c (List.mem_of_find?_eq_some hfind)] at hsame
        cases hsame
      · exact ⟨_, rfl, (Layer.forward_appends e (copyOf (.virtual columns)) trivial trivial).2.1⟩

/-- The copy stays, whatever is hidden besides. -/
theorem hideAll_copied (hnaming : l.naming = none) (hcomputes : l.main.computes = true)
    (houter : l.outer = none) {columns : List (ColumnRef × Nat)} {c : ColumnRef × Nat}
    (hc : c ∈ columns)
    (hnew : ∀ shown ∈ l.main.columns, shown.2.sameText (.column c.1 c.2) = false) :
    ∃ layer ∈ (l.hideAll columns).naming, (copyOf l.main).columns <+: layer.columns := by
  induction columns with
  | nil => cases hc
  | cons first columns ih =>
    by_cases hfirst : ∃ shown ∈ l.main.columns, shown.2.sameText (.column first.1 first.2) = true
    · rcases List.mem_cons.mp hc with rfl | hc
      · obtain ⟨shown, hshown, hsame⟩ := hfirst
        rw [hnew shown hshown] at hsame
        cases hsame
      · rw [hideAll, List.foldl_cons, publishHidden_eq_self hfirst]
        exact ih hc
    · obtain ⟨layer, hlayer, hcopy⟩ := publishHidden_copied hnaming hcomputes houter
        fun shown hshown => Bool.eq_false_iff.mpr fun hsame => hfirst ⟨shown, hshown, hsame⟩
      obtain ⟨more, hmore, hbegins⟩ := (hideAll_within _ columns).naming layer hlayer
      exact ⟨more, hmore, hcopy.trans hbegins⟩

/-- Whatever layers are there, a stack has columns only in its naming layer. -/
theorem selectsColumns_of_stacked {body : Model} (h : (l.onto body).Stacked scope) :
    ∀ layer ∈ l.naming, (Projection.choose layer.columns).SelectsColumns := by
  intro layer hlayer
  rw [onto_eq] at h
  have hsorted : (l.sorted body).Stacked scope := by
    split at h
    · exact (h.source rfl rfl).2
    · exact h
  have hbelow : (l.below body).Stacked scope := by
    unfold sorted at hsorted
    cases houter : l.outer with
    | none =>
      rw [houter] at hsorted
      exact (hsorted.source rfl rfl).2
    | some outer =>
      rw [houter] at hsorted
      exact ((hsorted.source rfl rfl).2.source rfl rfl).2
  rw [below, hlayer] at hbelow
  cases hinner : l.inner with
  | none =>
    rw [hinner] at hbelow
    exact (hbelow.source rfl rfl).1
  | some inner =>
    rw [hinner] at hbelow
    exact ((hbelow.source rfl rfl).2.source rfl rfl).1

/-! ### The layers of a select list -/

/-- The layers of a row-wise list support each other. -/
theorem IsLayout.supported (h : l.IsLayout select scope key) (hagg : select.hasAggregate = false)
    (hwindows : select.isAnalytic = false)
    (hkey : ∀ k ∈ key, ∀ c ∈ k.columns, ∃ source, scope.LeadsTo c.1 source) :
    l.Supported scope := by
  have hleads : ∀ ref, IsSourceColumn scope key ref → ∃ source, scope.LeadsTo ref source := by
    rintro ref (href | ⟨k, hk, c, hc, rfl⟩)
    · exact href
    · exact hkey k hk c hc
  have hitems : ∀ item ∈ (named select key).1, item.RefersTo (IsSourceColumn scope key) :=
    named_isSourceColumn h.resolved h.given
  have hapart := h.apart_layers
  obtain ⟨hinner, houter, hmain⟩ := h.plain hagg hwindows
  refine ⟨hinner, houter, fun layer hlayer => ⟨hapart.naming layer hlayer, ?_⟩, ?_, ?_, ?_⟩
  · rw [h.naming] at hlayer
    intro c hc
    obtain ⟨ref, p, hexpr, href⟩ := laid_publishesOnly hitems layer hlayer c hc
    exact ⟨ref, p, hexpr, hleads ref href⟩
  · rw [h.main_columns hagg hwindows, h.naming]
    intro c hc
    obtain ⟨item, hitem, rfl⟩ := List.mem_map.mp hc
    cases hlayer : (laid select key).2 with
    | none =>
      rw [laidOut_unnamed hlayer] at hitem
      exact fun used hused => hleads used.1 ((hitems item hitem).expr used hused)
    | some layer => exact laid_publishes layer hlayer item hitem
  · rcases hmain with ⟨hmain, hnaming, hall⟩ | ⟨hmain, -⟩
    · rw [hmain, laidOut_unnamed (h.naming ▸ hnaming)]
      intro c hc
      obtain ⟨item, hitem, rfl⟩ := List.mem_map.mp hc
      exact List.all_eq_true.mp hall item hitem
    · rw [hmain]
      trivial
  · intro item hitem
    have haliases := hapart.shown h.wrap
    rw [top, houter] at haliases
    exact haliases ▸ List.mem_map_of_mem hitem

/-- **Hidden columns keep the layers of a row-wise select list stacked, unless the list is copied under
itself.** For an accepted list without aggregates and window functions, and columns of the scope that
are hidden behind it one after the other: every projection of the assembled model refers to what the
layer below it publishes, the lowest one to columns of the scope, and every `select-choose` selects
plain columns, exactly if the list selects columns itself, has a naming layer, or is written with
every one of the hidden columns. -/
theorem stacked_hideAll_iff (h : Layers.ofSelect select scope key = .ok l)
    (hagg : select.hasAggregate = false) (hwindows : select.isAnalytic = false)
    (hkey : ∀ k ∈ key, ∀ c ∈ k.columns, ∃ source, scope.LeadsTo c.1 source)
    {columns : List (ColumnRef × Nat)}
    (hcolumns : ∀ c ∈ columns, ∃ source, scope.LeadsTo c.1 source) {body : Model}
    (hbody : body.projection = none) :
    ((l.hideAll columns).onto body).Stacked scope ↔
      (l.main.computes = true → l.naming = none → ∀ c ∈ columns,
        ∃ shown ∈ l.main.columns, shown.2.sameText (.column c.1 c.2) = true) := by
  have hlayout := ofSelect_ok h
  have hsupported := hlayout.supported hagg hwindows hkey
  refine ⟨fun hstacked hcomputes hnaming c hc => ?_, fun hcopy =>
    (hsupported.hideAll hcolumns fun hnaming hcomputes => hcopy hcomputes hnaming).onto hbody⟩
  by_contra hnew
  obtain ⟨layer, hlayer, hcopy⟩ := hideAll_copied hnaming hcomputes hsupported.outer hc
    fun shown hshown => Bool.eq_false_iff.mpr fun hsame => hnew ⟨shown, hshown, hsame⟩
  have hplain := selectsColumns_of_stacked hstacked layer hlayer
  -- the copy holds the items as they are, and one of them is not a column
  obtain ⟨-, -, ⟨hmain, -⟩ | ⟨-, hall⟩⟩ := hlayout.plain hagg hwindows
  · rw [hmain] at hcomputes
    cases hcomputes
  · obtain ⟨item, hitem, hitemComputes⟩ := List.all_eq_false.mp hall
    refine hitemComputes (hplain ⟨item.name, item.expr⟩ (hcopy.subset ?_))
    rw [copyOf, hlayout.main_columns hagg hwindows, laidOut_unnamed (hlayout.naming ▸ hnaming),
      List.map_map]
    exact List.mem_map_of_mem hitem

end Layers

/-- Behind `select a b, b a, a + b n`, which has a naming layer, two columns are hidden, and the stack
holds. -/
theorem Layers.stacked_hideAll_swapped :
    ∃ l, Layers.ofSelect swappedSelect numbersScope none = .ok l ∧ l.main.computes = true ∧
      l.naming.isSome ∧ (l.hideAll [(.plain "x", 0), (.qualified "t" "b", 0)]).wrap = true ∧
      ((l.hideAll [(.plain "x", 0), (.qualified "t" "b", 0)]).onto
        (.ofTable "t" numbersTable)).Stacked numbersScope := by
  obtain ⟨l, hl⟩ : ∃ l, Layers.ofSelect swappedSelect numbersScope none = .ok l := ⟨_, rfl⟩
  obtain ⟨hcomputes, hnaming, hwrap⟩ : l.main.computes = true ∧ l.naming.isSome ∧
      (l.hideAll [(.plain "x", 0), (.qualified "t" "b", 0)]).wrap = true := by
    cases hl
    decide +kernel
  have hcolumns : ∀ c ∈ [(ColumnRef.plain "x", 0), (ColumnRef.qualified "t" "b", 0)],
      ∃ source, numbersScope.LeadsTo c.1 source := by
    intro c hc
    simp only [List.mem_cons, List.not_mem_nil, or_false] at hc
    rcases hc with rfl | rfl
    · exact ⟨0, Scope.leadsTo_of_resolve (p := 0) (r := ⟨0, some .int⟩) rfl⟩
    · exact ⟨0, Scope.leadsTo_of_resolve (p := 0) (r := ⟨0, some .int⟩) rfl⟩
  refine ⟨l, hl, hcomputes, hnaming, hwrap, ?_⟩
  refine (Layers.stacked_hideAll_iff hl (by decide) (by decide) (fun _ h => by cases h) hcolumns
    rfl).mpr fun _ hnone => ?_
  rw [hnone] at hnaming
  cases hnaming

/-- `select a + b c`: a computed column alone, without a naming layer. -/
def sumSelect : SelectClause :=
  ⟨0, [⟨.binary .add (.column (.plain "a") 0) (.column (.plain "b") 0) 0, some ⟨"c", 0⟩, none⟩]⟩

/-- With `x` hidden behind it, the list reads from a `select-choose` that computes the sum and does not
publish its operands. -/
theorem Layers.sum_copied_under_itself :
    ∃ l layer, Layers.ofSelect sumSelect numbersScope none = .ok l ∧
      (∃ source, numbersScope.LeadsTo (.plain "x") source) ∧
      (l.hideAll [(.plain "x", 0)]).naming = some layer ∧
      (∃ c ∈ layer.columns, c.expr.column? = none) ∧
      (Projection.choose layer.columns).lookup? (.plain "a") = none ∧
      ¬ ((l.hideAll [(.plain "x", 0)]).onto (.ofTable "t" numbersTable)).Stacked numbersScope := by
  obtain ⟨l, hl⟩ : ∃ l, Layers.ofSelect sumSelect numbersScope none = .ok l := ⟨_, rfl⟩
  have hcopy : (l.hideAll [(.plain "x", 0)]).naming.any (fun layer =>
      (layer.columns.any fun c => c.expr.column?.isNone) &&
        ((Projection.choose layer.columns).lookup? (.plain "a")).isNone) = true := by
    cases hl
    decide +kernel
  obtain ⟨layer, hlayer, hcopy⟩ := (Option.any_eq_true _ _).mp hcopy
  obtain ⟨hcomputed, hlost⟩ := Bool.and_eq_true_iff.mp hcopy
  obtain ⟨c, hc, hcolumn⟩ := List.any_eq_true.mp hcomputed
  rw [Option.isNone_iff_eq_none] at hcolumn hlost
  refine ⟨l, layer, hl, ⟨0, Scope.leadsTo_of_resolve (p := 0) (r := ⟨0, some .int⟩) rfl⟩, hlayer,
    ⟨c, hc, hcolumn⟩, hlost, fun hstacked => ?_⟩
  have hplain := Layers.selectsColumns_of_stacked hstacked layer hlayer c hc
  rw [hcolumn] at hplain
  cases hplain

end SeriesQuery
