import SeriesQuery.Proofs.Select.Naming

/-!
Grouped select lists.

The columns of the groups and the column of the layer on top are laid out item by item. A
column that stands beside aggregate calls stays as it is on top, so it reads what it was only
if it is a key of the groups there; every other part of an item is computed below under a
name that is free (`Select.groupItem_spec`).
-/

namespace SeriesQuery

/-! ### Columns beside aggregate calls -/

namespace Expr

mutual

/-- The column references outside of aggregate calls with their positions, from left to
right. -/
def bareColumns : Expr → List (ColumnRef × Nat)
  | column ref p => [(ref, p)]
  | constant .. | queryRef .. => []
  | unary _ operand _ => operand.bareColumns
  | binary _ left right _ => left.bareColumns ++ right.bareColumns
  | call name args _ => if namesAggregate name then [] else bareColumnsOfList args
  | inList operand list _ => operand.bareColumns ++ bareColumnsOfList list

/-- The column references of the expressions outside of aggregate calls. -/
def bareColumnsOfList : List Expr → List (ColumnRef × Nat)
  | [] => []
  | e :: es => e.bareColumns ++ bareColumnsOfList es

end

theorem bareColumnsOfList_eq_flatMap (es : List Expr) :
    bareColumnsOfList es = es.flatMap bareColumns := by
  induction es with
  | nil => rfl
  | cons e es ih => rw [bareColumnsOfList, List.flatMap_cons, ih]

/-- What is bare in a part is bare in an expression that is no aggregate call. -/
theorem bareColumns_subset_of_mem_parts {e part : Expr} (he : e.isAggregate = false)
    (h : part ∈ e.parts) : part.bareColumns ⊆ e.bareColumns := by
  have hparts : part.bareColumns ⊆ e.parts.flatMap bareColumns :=
    fun c hc => List.mem_flatMap.mpr ⟨part, h, hc⟩
  cases e with
  | column | constant | queryRef => cases h
  | unary op a p => simpa [parts, bareColumns] using hparts
  | binary op a b p => simpa [parts, bareColumns] using hparts
  | call name es p =>
    simp only [isAggregate] at he
    simpa [parts, bareColumns, he, bareColumnsOfList_eq_flatMap] using hparts
  | inList a es p => simpa [parts, bareColumns, bareColumnsOfList_eq_flatMap] using hparts

end Expr

namespace Select

/-! ### Groups that grow -/

namespace Grouping

variable {known : ColumnRef → Prop}

/-- What `e'` refers to in the input of the groups is `e`. -/
abbrev ReadsInput (g : Grouping) (e e' : Expr) : Prop :=
  Layer.ReadsThrough g.inner e e'

/-- What `e'` refers to over the groups is `e` over their input. -/
def Reads (g : Grouping) (e e' : Expr) : Prop :=
  ∃ input, (Projection.groupBy g.main).expand? e' = some input ∧ g.ReadsInput e input

/-- The columns of the groups have names of their own, which are taken. -/
structure Sound (known : ColumnRef → Prop) (g : Grouping) : Prop where
  inner : ∀ layer ∈ g.inner, layer.Sound known
  apart : NamedApart g.main
  taken : ∀ c ∈ g.main, g.aliases.isFree c.name = false

/-- What is read over some groups is read over others. -/
structure Within (s t : Grouping) : Prop where
  input : ∀ e e', s.ReadsInput e e' → t.ReadsInput e e'
  main : s.main <+: t.main

theorem Within.refl (s : Grouping) : s.Within s :=
  ⟨fun _ _ h => h, List.prefix_refl _⟩

theorem Within.trans {s t u : Grouping} (hst : s.Within t) (htu : t.Within u) : s.Within u :=
  ⟨fun e e' h => htu.input e e' (hst.input e e' h), hst.main.trans htu.main⟩

/-- The groups `t` have more columns than `s`, under names that were free in `s` or are
allowed. -/
structure GrowsTo (allowed : String → Prop) (s t : Grouping) : Prop where
  within : s.Within t
  aliases : s.aliases.Within t.aliases
  new : ∀ c ∈ t.main, c ∈ s.main ∨ s.aliases.isFree c.name = true ∨ allowed c.name

/-- Groups grow by columns at the end, whose names were free. -/
def growth (known : ColumnRef → Prop) : Growth Grouping where
  Sound := Sound known
  Extends := GrowsTo fun _ => False
  refl s := ⟨.refl s, .refl _, fun _ h => .inl h⟩
  trans := by
    rintro s t u hst htu
    refine ⟨hst.within.trans htu.within, hst.aliases.trans htu.aliases, fun c hc => ?_⟩
    rcases htu.new c hc with hc | hfree | hnot
    · exact hst.new c hc
    · exact .inr (.inl (hst.aliases.isFree hfree))
    · exact hnot.elim

theorem reads_congruent (g : Grouping) : Expr.Congruent g.Reads :=
  (Layer.readsThrough_congruent g.inner).comp
    (Expr.substitute?_congruent (Projection.groupBy g.main).lookup?)

theorem Reads.of_within {s t : Grouping} {e e' : Expr} (h : s.Reads e e') (hst : s.Within t) :
    t.Reads e e' := by
  obtain ⟨x, hx, hread⟩ := h
  exact ⟨x, expand?_of_prefix hst.main hx, hst.input e x hread⟩

theorem expand?_reference (main : List PublishedColumn) (name : String) (p : Nat) :
    (Projection.groupBy main).expand? (Layer.reference name p) = published main name :=
  column?_choose main name

/-- What the groups publish is read under its name. -/
theorem Sound.reads_of_mem {g : Grouping} (h : g.Sound known) {c : PublishedColumn}
    (hc : c ∈ g.main) {e : Expr} (he : g.ReadsInput e c.expr) (p : Nat) :
    g.Reads e (Layer.reference c.name p) :=
  ⟨c.expr, by rw [expand?_reference, h.apart.published_of_mem hc], he⟩

/-- One more column, under a name that no other has. -/
theorem Sound.push {g : Grouping} (h : g.Sound known) {name : String}
    (hname : ∀ c ∈ g.main, Ascii.same c.name name = false) {aliases : AliasSet}
    (hwithin : g.aliases.Within aliases) (htaken : aliases.isFree name = false)
    {inner : Option Layer} (hinner : ∀ layer ∈ inner, layer.Sound known) (e : Expr) :
    Sound known ⟨aliases, inner, g.main ++ [⟨name, e⟩]⟩ where
  inner := hinner
  apart := h.apart.append hname e
  taken := by
    intro c hc
    rcases List.mem_append.mp hc with hc | hc
    · exact hwithin _ (h.taken c hc)
    · obtain rfl := List.mem_singleton.mp hc
      exact htaken

end Grouping

variable {known : ColumnRef → Prop}

open Grouping

/-! ### Aggregate calls -/

theorem carryInner_eq (e : Expr) (g : Grouping) :
    carryInner e g =
      ((Layer.carryThrough g.inner e).1, { g with inner := (Layer.carryThrough g.inner e).2 }) :=
  rfl

theorem liftCall_eq (call : Expr) (g : Grouping) :
    liftCall call g =
      (Layer.reference (g.aliases.freeName call.defaultName) call.position,
        ⟨g.aliases.insert (g.aliases.freeName call.defaultName),
          (Layer.carryThrough g.inner call).2,
          g.main ++ [⟨g.aliases.freeName call.defaultName, (Layer.carryThrough g.inner call).1⟩]⟩) :=
  rfl

/-- An aggregate call that is lifted out of an item reads what it was. -/
theorem liftCall_ensures (hknown : SpelledApart known) {call : Expr} (hcall : call.RefersTo known) :
    (growth known).Ensures (fun _ => True) (liftCall call) fun g e' => g.Reads call e' := by
  intro g hg _
  obtain ⟨hinner, hmono, hread⟩ := Layer.carryThrough_spec hknown hg.inner hcall
  have hfree := g.aliases.isFree_freeName call.defaultName
  have hname : ∀ c ∈ g.main, Ascii.same c.name (g.aliases.freeName call.defaultName) = false := by
    intro c hc
    rw [Ascii.same_comm]
    exact AliasSet.same_eq_false hfree (hg.taken c hc)
  rw [liftCall_eq]
  have hsound := hg.push hname (g.aliases.within_insert _) (g.aliases.insert_taken _) hinner
    (Layer.carryThrough g.inner call).1
  refine ⟨hsound, ⟨⟨hmono, List.prefix_append _ _⟩, g.aliases.within_insert _, fun c hc => ?_⟩,
    hsound.reads_of_mem (List.mem_append_right _ List.mem_cons_self) hread call.position⟩
  rcases List.mem_append.mp hc with hc | hc
  · exact .inl hc
  · obtain rfl := List.mem_singleton.mp hc
    exact .inr (.inl hfree)

/-- The columns that stand beside aggregate calls are keys of the groups there. -/
def Settled (bare : ColumnRef → Prop) (g : Grouping) : Prop :=
  ∀ ref, bare ref → ∀ p, g.Reads (.column ref p) (.column ref p)

/-- What `e'` refers to over the groups is `e` as soon as the bare columns are settled. -/
def ReadsFinally (bare : ColumnRef → Prop) (g : Grouping) (e e' : Expr) : Prop :=
  ∀ t, g.Within t → Settled bare t → t.Reads e e'

theorem ReadsFinally.of_within {bare : ColumnRef → Prop} {s t : Grouping} {e e' : Expr}
    (h : ReadsFinally bare s e e') (hst : s.Within t) : ReadsFinally bare t e e' :=
  fun u htu => h u (hst.trans htu)

theorem readsFinally_congruent (bare : ColumnRef → Prop) (g : Grouping) :
    Expr.Congruent (ReadsFinally bare g) := by
  have hall : ∀ {es es' : List Expr} {t : Grouping}, g.Within t → Settled bare t →
      List.Forall₂ (ReadsFinally bare g) es es' → List.Forall₂ t.Reads es es' :=
    fun hext hsettled h => h.imp fun _ _ h => h _ hext hsettled
  exact {
    constant := fun text p t _ _ => t.reads_congruent.constant text p
    queryRef := fun text p t _ _ => t.reads_congruent.queryRef text p
    unary := fun op p _ _ ha t hext hs => t.reads_congruent.unary op p (ha t hext hs)
    binary := fun op p _ _ _ _ ha hb t hext hs =>
      t.reads_congruent.binary op p (ha t hext hs) (hb t hext hs)
    call := fun name p _ _ hes t hext hs => t.reads_congruent.call name p (hall hext hs hes)
    inList := fun p _ _ _ _ ha hes t hext hs =>
      t.reads_congruent.inList p (ha t hext hs) (hall hext hs hes) }

/-- An item reads what it was when its aggregate calls are lifted. -/
theorem liftAggregates_ensures (hknown : SpelledApart known) {bare : ColumnRef → Prop} {e : Expr}
    (he : e.RefersTo known) (hbare : ∀ c ∈ e.bareColumns, bare c.1) :
    (growth known).Ensures (fun _ => True) (liftAggregates e)
      fun g e' => ReadsFinally bare g e e' := by
  refine Expr.Congruent.replaceM_ensures
    (D := fun a => a.RefersTo known ∧ ∀ c ∈ a.bareColumns, bare c.1) (fun _ h => h)
    (fun _ _ _ _ hext h => h.of_within hext.within) (readsFinally_congruent bare)
    (fun a hpick ha b hb => ?_) (fun g ref p _ h t _ hs => ?_) (fun a act hact ha => ?_) ⟨he, hbare⟩
  · have hnot : a.isAggregate = false := by
      cases h : a.isAggregate <;> simp_all
    exact ⟨fun c hc => ha.1 c (Expr.columns_subset_of_mem_parts hb hc),
      fun c hc => ha.2 c (Expr.bareColumns_subset_of_mem_parts hnot hb hc)⟩
  · exact hs ref (h.2 (ref, p) List.mem_cons_self) p
  · split at hact
    · cases hact
      exact (liftCall_ensures hknown ha.1).mono fun g e' h t hext _ => h.of_within hext
    · cases hact

/-! ### One item -/

/-- Whether an item computes with aggregates. -/
def Item.isMixed (item : Item) : Bool :=
  item.expr.hasAggregate && !item.expr.isAggregate

/-- An aggregate call is a column of the groups, over what its arguments are carried to. -/
theorem groupItem_call {item : Item} (h : item.expr.isAggregate = true) (g : Grouping) :
    groupItem item g =
      (⟨item.name, Layer.reference item.name item.expr.position⟩,
        ⟨g.aliases, (Layer.carryThrough g.inner item.expr).2,
          g.main ++ [⟨item.name, (Layer.carryThrough g.inner item.expr).1⟩]⟩) := by
  unfold groupItem
  rw [if_pos h]
  rfl

/-- An item that computes with aggregates is computed on top of the groups. -/
theorem groupItem_mixed {item : Item} (h : item.isMixed = true) (g : Grouping) :
    groupItem item g =
      (⟨item.name, (liftAggregates item.expr g).1⟩, (liftAggregates item.expr g).2) := by
  obtain ⟨hhas, hcall⟩ : item.expr.hasAggregate = true ∧ item.expr.isAggregate = false := by
    simpa [Item.isMixed] using h
  unfold groupItem
  rw [if_neg (by simp [hcall]), if_pos hhas]
  rfl

/-- Any other item is a key of the groups. -/
theorem groupItem_key {item : Item} (hcall : item.expr.isAggregate = false)
    (hhas : item.expr.hasAggregate = false) {g : Grouping} {input : Expr} {inner : Option Layer}
    (hrun : keyInput item g = (input, { g with inner := inner })) :
    groupItem item g =
      (⟨item.name, Layer.reference item.name item.expr.position⟩,
        ⟨g.aliases, inner, g.main ++ [⟨item.name, input⟩]⟩) := by
  unfold groupItem
  rw [if_neg (by simp [hcall]), if_neg (by simp [hhas])]
  simp only [bind, StateT.bind, hrun]
  rfl

/-- What is asked of an item of a grouped select list: its references are known, a computed
key is spelled like none of them, and what stands beside its aggregate calls is bare. -/
structure Groupable (known bare : ColumnRef → Prop) (item : Item) : Prop where
  refers : item.expr.RefersTo known
  honest : item.expr.hasAggregate = false → item.isColumn = false → item.expr.Honest known
  bare : item.isMixed = true → ∀ c ∈ item.expr.bareColumns, bare c.1

/-- A key is carried or published in the inner layer, if there is one. -/
theorem keyInput_spec (hknown : SpelledApart known) {bare : ColumnRef → Prop} {item : Item}
    (hitem : Groupable known bare item) (hkey : item.expr.hasAggregate = false) {g : Grouping}
    (hg : g.Sound known) :
    ∃ input inner, keyInput item g = (input, { g with inner := inner }) ∧
      (∀ layer ∈ inner, layer.Sound known) ∧
      (∀ e e', Layer.ReadsThrough g.inner e e' → Layer.ReadsThrough inner e e') ∧
      Layer.ReadsThrough inner item.expr input := by
  obtain ⟨aliases, inner, main⟩ := g
  cases inner with
  | none => exact ⟨item.expr, none, rfl, hg.inner, fun _ _ h => h, rfl⟩
  | some layer =>
    have hlayer := enter_ensures hknown hitem.refers (hitem.honest hkey)
    obtain ⟨hsound, hext, hread⟩ := hlayer layer (hg.inner layer rfl) trivial
    refine ⟨_, some _, rfl, ?_, fun e e' h => Layer.reads_lasting e e' hext h, hread⟩
    rintro l ⟨⟩
    exact hsound

/-- The input of the groups for an item that is not computed on top of them, and the inner
layer that it reads from. -/
theorem groupItem_plain (hknown : SpelledApart known) {bare : ColumnRef → Prop} {item : Item}
    (hitem : Groupable known bare item) (hplain : item.isMixed = false) {g : Grouping}
    (hg : g.Sound known) :
    ∃ input inner, groupItem item g =
        (⟨item.name, Layer.reference item.name item.expr.position⟩,
          ⟨g.aliases, inner, g.main ++ [⟨item.name, input⟩]⟩) ∧
      (∀ layer ∈ inner, layer.Sound known) ∧
      (∀ e e', Layer.ReadsThrough g.inner e e' → Layer.ReadsThrough inner e e') ∧
      Layer.ReadsThrough inner item.expr input := by
  cases hagg : item.expr.isAggregate with
  | true =>
    exact ⟨_, _, groupItem_call hagg g, Layer.carryThrough_spec hknown hg.inner hitem.refers⟩
  | false =>
    have hkey : item.expr.hasAggregate = false := by
      simpa [Item.isMixed, hagg] using hplain
    obtain ⟨input, inner, hrun, hspec⟩ := keyInput_spec hknown hitem hkey hg
    exact ⟨input, inner, groupItem_key hagg hkey hrun, hspec⟩

/-- A column of the groups that is what an item is. -/
def IsColumnOf (g : Grouping) (item : Item) (column : PublishedColumn) : Prop :=
  column.name = item.name ∧ g.ReadsInput item.expr column.expr

/-- What the column that an item becomes on top of the groups has to do with the item. -/
structure Lays (bare : ColumnRef → Prop) (g : Grouping) (item : Item) (column : PublishedColumn) :
    Prop where
  name : column.name = item.name
  mixed : item.isMixed = true → ReadsFinally bare g item.expr column.expr
  plain : item.isMixed = false →
    column.expr = Layer.reference item.name item.expr.position ∧ ∃ c ∈ g.main, IsColumnOf g item c

theorem Lays.of_within {bare : ColumnRef → Prop} {s t : Grouping} {item : Item}
    {column : PublishedColumn} (h : Lays bare s item column) (hst : s.Within t) :
    Lays bare t item column where
  name := h.name
  mixed hmixed := (h.mixed hmixed).of_within hst
  plain hplain := by
    obtain ⟨hexpr, c, hc, hname, hread⟩ := h.plain hplain
    exact ⟨hexpr, c, hst.main.subset hc, hname, hst.input _ _ hread⟩

/-- An item is laid out in the groups, under its own name and under free ones. -/
theorem groupItem_spec (hknown : SpelledApart known) {bare : ColumnRef → Prop} {item : Item}
    (hitem : Groupable known bare item) {g : Grouping} (hg : g.Sound known)
    (htaken : g.aliases.isFree item.name = false)
    (hname : ∀ c ∈ g.main, Ascii.same c.name item.name = false) :
    (groupItem item g).2.Sound known ∧ GrowsTo (· = item.name) g (groupItem item g).2 ∧
      Lays bare (groupItem item g).2 item (groupItem item g).1 ∧
        (item.isMixed = false → ∃ c, (groupItem item g).2.main = g.main ++ [c] ∧
          IsColumnOf (groupItem item g).2 item c) := by
  cases hmixed : item.isMixed with
  | false =>
    obtain ⟨input, inner, hrun, hinner, hmono, hread⟩ := groupItem_plain hknown hitem hmixed hg
    rw [hrun]
    refine ⟨hg.push hname (.refl _) htaken hinner input,
      ⟨⟨hmono, List.prefix_append _ _⟩, .refl _, fun c hc => ?_⟩, ⟨rfl, fun h => ?_, fun _ => ?_⟩,
      fun _ => ⟨_, rfl, rfl, hread⟩⟩
    · rcases List.mem_append.mp hc with hc | hc
      · exact .inl hc
      · obtain rfl := List.mem_singleton.mp hc
        exact .inr (.inr rfl)
    · exact absurd (hmixed.symm.trans h) Bool.false_ne_true
    · exact ⟨rfl, _, List.mem_append_right _ List.mem_cons_self, rfl, hread⟩
  | true =>
    obtain ⟨hsound, hext, hread⟩ :=
      liftAggregates_ensures hknown hitem.refers (hitem.bare hmixed) g hg trivial
    rw [groupItem_mixed hmixed]
    refine ⟨hsound, ⟨hext.within, hext.aliases, fun c hc => ?_⟩,
      ⟨rfl, fun _ => hread, fun h => absurd (h.symm.trans hmixed) Bool.false_ne_true⟩,
      fun h => absurd h.symm Bool.false_ne_true⟩
    exact (hext.new c hc).imp_right (Or.imp_right False.elim)

/-! ### The whole list -/

/-- The items are laid out one after the other. -/
theorem groupItems_spec (hknown : SpelledApart known) {bare : ColumnRef → Prop} {items : List Item}
    (hitems : ∀ item ∈ items, Groupable known bare item) (hapart : ItemsApart items)
    {g : Grouping} (hg : g.Sound known)
    (htaken : ∀ item ∈ items, g.aliases.isFree item.name = false)
    (hnew : ∀ item ∈ items, ∀ c ∈ g.main, Ascii.same c.name item.name = false) :
    let t := (items.mapM groupItem g).2
    t.Sound known ∧ g.Within t ∧ List.Forall₂ (Lays bare t) items (items.mapM groupItem g).1 ∧
      ((∀ item ∈ items, item.isMixed = false) →
        ∃ columns, t.main = g.main ++ columns ∧ List.Forall₂ (IsColumnOf t) items columns) := by
  induction items generalizing g with
  | nil => exact ⟨hg, .refl g, .nil, fun _ => ⟨[], (List.append_nil _).symm, .nil⟩⟩
  | cons item items ih =>
    obtain ⟨hitem, hrest⟩ := List.forall_mem_cons.mp hitems
    obtain ⟨hname, hnames⟩ := List.pairwise_cons.mp hapart
    obtain ⟨hitemTaken, hrestTaken⟩ := List.forall_mem_cons.mp htaken
    obtain ⟨hitemNew, hrestNew⟩ := List.forall_mem_cons.mp hnew
    obtain ⟨hsound, hgrows, hlays, hcolumn⟩ := groupItem_spec hknown hitem hg hitemTaken hitemNew
    -- the names of the items that follow are taken, so the new columns do not have them
    have hafter : ∀ i ∈ items, ∀ c ∈ (groupItem item g).2.main, Ascii.same c.name i.name = false := by
      intro i hi c hc
      rcases hgrows.new c hc with hc | hfree | hsame
      · exact hrestNew i hi c hc
      · exact AliasSet.same_eq_false hfree (hrestTaken i hi)
      · exact hsame ▸ hname i hi
    obtain ⟨hsound', hwithin, hall, hmain⟩ := ih hrest hnames hsound
      (fun i hi => hgrows.aliases _ (hrestTaken i hi)) hafter
    rw [mapM_cons_apply]
    refine ⟨hsound', hgrows.within.trans hwithin, .cons (hlays.of_within hwithin) hall, fun hplain => ?_⟩
    obtain ⟨hitemPlain, hrestPlain⟩ := List.forall_mem_cons.mp hplain
    obtain ⟨columns, hcolumns, hread⟩ := hmain hrestPlain
    obtain ⟨c, hc, hcname, hcread⟩ := hcolumn hitemPlain
    exact ⟨c :: columns, by rw [hcolumns, hc, List.append_assoc]; rfl,
      .cons ⟨hcname, hwithin.input _ _ hcread⟩ hread⟩

/-- A column that stands beside aggregate calls is a key of the groups, published there under
the name that the column has on top. -/
def IsKey (items : List Item) (ref : ColumnRef) : Prop :=
  ref.qualifier = none ∧
    ∃ key ∈ items, key.expr.column? = some ref ∧ Ascii.same key.name ref.name = true

instance (items : List Item) (ref : ColumnRef) : Decidable (IsKey items ref) :=
  inferInstanceAs (Decidable (_ ∧ _))

/-- When all items are laid out, the bare columns that are keys are settled. -/
theorem settled_of_lays {bare : ColumnRef → Prop} {items : List Item}
    {columns : List PublishedColumn} {g : Grouping} (hg : g.Sound known)
    (hlays : List.Forall₂ (Lays bare g) items columns) (hbare : ∀ ref, bare ref → IsKey items ref) :
    Settled bare g := by
  intro ref href p
  obtain ⟨hplain, key, hkey, hcolumn, hname⟩ := hbare ref href
  obtain ⟨q, hexpr⟩ : ∃ q, key.expr = .column ref q := by
    cases he : key.expr with
    | column r q =>
      rw [he] at hcolumn
      cases hcolumn
      exact ⟨q, rfl⟩
    | _ => simp [he, Expr.column?] at hcolumn
  obtain ⟨column, -, hlay⟩ := exists_mem_of_forall₂ hlays hkey
  obtain ⟨-, c, hc, hcname, hread⟩ :=
    hlay.plain (by simp [Item.isMixed, hexpr, Expr.hasAggregate])
  refine ⟨c.expr, ?_, hread.of_erase_eq (by rw [hexpr]; rfl)⟩
  have hpublished : published g.main ref.name = some c.expr := by
    rw [← published_congr hname, ← hcname, hg.apart.published_of_mem hc]
  change (if ref.qualifier.isNone then (Projection.choose g.main).column? ref.name else none) = _
  rw [hplain, column?_choose, hpublished]
  rfl

/-- The columns that make the rows, those of the groups or of a layer on top of them, are what
the items are. -/
def IsTopOf (g : Grouping) (items : List Item) : Option Projection → Prop
  | none => List.Forall₂ (IsColumnOf g) items g.main
  | some outer => ∃ columns, outer = .virtual columns ∧
      List.Forall₂ (fun item c => c.name = item.name ∧ g.Reads item.expr c.expr) items columns

/-- A grouped select list computes its items over the input of the groups, in the groups or
on top of them. -/
theorem group_spec (hknown : SpelledApart known) {bare : ColumnRef → Prop} {aliases : AliasSet}
    {items : List Item} {inner : Option Layer} {main : Projection} {outer : Option Projection}
    (hitems : ∀ item ∈ items, Groupable known bare item) (hapart : ItemsApart items)
    (htaken : ∀ item ∈ items, aliases.isFree item.name = false)
    (hbare : ∀ ref, bare ref → IsKey items ref)
    (h : group aliases items = (inner, main, outer)) :
    ∃ g : Grouping, inner = g.inner ∧ main = .groupBy g.main ∧ g.Sound known ∧
      IsTopOf g items outer := by
  let start : Grouping :=
    ⟨aliases, if items.any fun item => !item.expr.hasAggregate && !item.isColumn then some .empty
      else none, []⟩
  have hstart : start.Sound known := by
    refine ⟨fun layer hlayer => ?_, .nil, fun _ hc => by cases hc⟩
    obtain ⟨-, hlayer⟩ := Option.ite_none_right_eq_some.mp hlayer
    cases hlayer
    exact Layer.sound_empty known
  obtain ⟨hsound, -, hlays, hmain⟩ := groupItems_spec hknown hitems hapart hstart htaken
    fun _ _ _ hc => by cases hc
  have hsettled := settled_of_lays hsound hlays hbare
  have hgroup : group aliases items = ((items.mapM groupItem start).2.inner,
      .groupBy (items.mapM groupItem start).2.main,
      if items.any Item.isMixed then some (.virtual (items.mapM groupItem start).1) else none) :=
    rfl
  rw [hgroup] at h
  cases h
  refine ⟨_, rfl, rfl, hsound, ?_⟩
  cases hneeds : items.any Item.isMixed with
  | false =>
    obtain ⟨columns, hcolumns, hread⟩ := hmain fun item hitem =>
      Bool.eq_false_iff.mpr fun hmixed => List.any_eq_false.mp hneeds item hitem hmixed
    change List.Forall₂ _ items _
    rwa [hcolumns]
  | true =>
    refine ⟨_, rfl, hlays.imp fun item c hlay => ⟨hlay.name, ?_⟩⟩
    cases hmixed : item.isMixed with
    | true => exact hlay.mixed hmixed _ (.refl _) hsettled
    | false =>
      obtain ⟨hexpr, main, hmem, hname, hread⟩ := hlay.plain hmixed
      rw [hexpr, ← hname]
      exact hsound.reads_of_mem hmem hread _

end Select

end SeriesQuery
