import SeriesQuery.Proofs.Select.Published

/-!
Columns that only the order needs.

A list that neither groups nor has windows can carry more columns than its items. A hidden
column is read through the naming layer, which there is then if the list computes; where
there was none, a copy of the main layer takes its place, and the items go on to read what
they did only if they are made of items (`Layers.Carries.publishHidden`).
-/

namespace SeriesQuery

theorem Layer.Sound.mono {known few : ColumnRef → Prop} {layer : Layer} (h : layer.Sound known)
    (hfew : ∀ ref, few ref → known ref) : layer.Sound few :=
  ⟨h.apart, h.taken, fun c hc ref href => h.honest c hc ref (hfew ref href)⟩

/-- Layers grow at the end, whatever is carried through them. -/
def Layer.appending : Growth Layer where
  Sound _ := True
  Extends s t := s.columns <+: t.columns
  refl _ := List.prefix_refl _
  trans := List.IsPrefix.trans

theorem Layer.forward_appends (e : Expr) :
    Layer.appending.Ensures (fun _ => True) (Layer.forward e) fun _ _ => True := by
  intro layer _ _
  refine ⟨trivial, ?_, trivial⟩
  rw [Layer.forward_eq]
  split
  · exact List.prefix_refl _
  · exact List.prefix_append _ _

theorem Layer.carry_appends (e : Expr) :
    Layer.appending.Ensures (fun _ => True) (Layer.carry e) fun _ _ => True :=
  Expr.Congruent.replaceColumnsM_ensures (Q := fun _ _ _ => True) (fun _ h => h)
    (fun _ _ _ _ _ h => h) (fun _ => .all) fun _ _ => Layer.forward_appends _

/-- Whether a projection computes its columns row by row. -/
def Projection.computes : Projection → Bool
  | virtual _ => true
  | _ => false

namespace Layers

/-- What the main layer publishes for an item: the item as it is written or what reads it, and
what reads it in any case if the item is one that stays readable. -/
structure IsCarried (naming : Option Layer) (stays : String × Expr → Prop) (item : String × Expr)
    (c : PublishedColumn) : Prop where
  name : c.name = item.1
  written : c.expr.erase = item.2.erase ∨ Layer.ReadsThrough naming item.2 c.expr
  reads : stays item → Layer.ReadsThrough naming item.2 c.expr

/-- What the main layer publishes for a hidden column. -/
def IsHidden (naming : Option Layer) (column : ColumnRef × String) (c : PublishedColumn) : Prop :=
  c.name = column.2 ∧ Layer.ReadsThrough naming (.column column.1 0) c.expr

/-- How the layers of a list that neither groups nor has windows carry its items and, behind
them, hidden columns. -/
structure Carries (known : ColumnRef → Prop) (stays : String × Expr → Prop)
    (items : List (String × Expr)) (shown : List PublishedColumn)
    (hidden : List (ColumnRef × String)) (l : Layers) : Prop where
  inner : l.inner = none
  outer : l.outer = none
  main : ∃ columns, List.Forall₂ (IsHidden l.naming) hidden columns ∧
    (l.main = .choose (shown ++ columns) ∧ l.naming = none ∨
      l.main = .virtual (shown ++ columns) ∧ (l.naming = none → columns = []))
  sound : ∀ layer ∈ l.naming, layer.Sound known
  carried : List.Forall₂ (IsCarried l.naming stays) items shown
  refs : ∀ column ∈ hidden, known column.1

/-- A copy of the main layer under it leaves what the items that stay readable are. -/
structure Copies (known : ColumnRef → Prop) (stays : String × Expr → Prop)
    (items : List (String × Expr)) (shown : List PublishedColumn) : Prop where
  sound : (copyOf (.virtual shown)).Sound known
  reads : List.Forall₂ (fun item c => stays item → (copyOf (.virtual shown)).Reads item.2 c.expr)
    items shown

variable {known : ColumnRef → Prop} {stays : String × Expr → Prop} {items : List (String × Expr)}
  {shown : List PublishedColumn} {hidden : List (ColumnRef × String)} {l : Layers}

theorem IsCarried.mono {naming more : Option Layer} {item : String × Expr} {c : PublishedColumn}
    (h : IsCarried naming stays item c)
    (hmore : ∀ e e', Layer.ReadsThrough naming e e' → Layer.ReadsThrough more e e') :
    IsCarried more stays item c :=
  ⟨h.name, h.written.imp_right (hmore _ _), fun hstays => hmore _ _ (h.reads hstays)⟩

/-- The naming layer once a hidden column has been brought up, and what is published for the
column. -/
structure BringsUp (known : ColumnRef → Prop) (stays : String × Expr → Prop)
    (items : List (String × Expr)) (shown : List PublishedColumn)
    (hidden : List (ColumnRef × String)) (l : Layers) (ref : ColumnRef) (naming : Option Layer)
    (routed : Expr) : Prop where
  sound : ∀ layer ∈ naming, layer.Sound known
  reads : Layer.ReadsThrough naming (.column ref 0) routed
  carried : List.Forall₂ (IsCarried naming stays) items shown
  main : ∃ columns, List.Forall₂ (IsHidden naming) hidden columns ∧
    (l.main = .choose (shown ++ columns) ∧ naming = none ∨
      l.main = .virtual (shown ++ columns) ∧ naming ≠ none)

/-- The input of the main layer for a hidden column. -/
theorem Carries.hiddenInput (h : Carries known stays items shown hidden l)
    (hknown : SpelledApart known) {ref : ColumnRef} (href : known ref)
    (hcopy : l.naming = none → l.main.computes = true → Copies known stays items shown) (p : Nat) :
    ∃ naming, (l.hiddenInput (.column ref p)).2 = { l with naming } ∧
      BringsUp known stays items shown hidden l ref naming (l.hiddenInput (.column ref p)).1 := by
  obtain ⟨hinner, -, ⟨columns, hcolumns, hmain⟩, hsound, hshown, -⟩ := h
  obtain ⟨naming, inner, main, _, _, _, _, _, _, _⟩ := l
  obtain rfl : inner = none := hinner
  rcases hmain with ⟨rfl, rfl⟩ | ⟨rfl, hnone⟩
  · exact ⟨none, rfl, hsound, rfl, hshown, columns, hcolumns, .inl ⟨rfl, rfl⟩⟩
  cases naming with
  | some layer =>
    obtain ⟨hlayer, hmono, hread⟩ := Layer.carryThrough_spec hknown hsound
      (e := .column ref p) fun c hc => by
        obtain rfl := List.mem_singleton.mp hc
        exact href
    refine ⟨_, rfl, hlayer, hread.of_erase_eq rfl, hshown.imp fun _ _ h => h.mono hmono, columns, ?_,
      .inr ⟨rfl, fun h => by cases h⟩⟩
    exact hcolumns.imp fun _ _ h => ⟨h.1, hmono _ _ h.2⟩
  | none =>
    obtain rfl : columns = [] := hnone rfl
    obtain rfl : hidden = [] := List.forall₂_nil_right_iff.mp hcolumns
    obtain ⟨hcopySound, hcopyReads⟩ := hcopy rfl rfl
    obtain ⟨hlayer, hext, hread⟩ := Layer.forward_ensures hknown href p _ hcopySound trivial
    refine ⟨some (Layer.forward (.column ref p) (copyOf (.virtual (shown ++ [])))).2, rfl, ?_, ?_, ?_,
      [], .nil, .inr ⟨rfl, fun h => by cases h⟩⟩
    · rw [List.append_nil]
      rintro _ ⟨⟩
      exact hlayer
    · rw [List.append_nil]
      obtain ⟨x, hx, hxe⟩ := hread
      exact ⟨x, hx, hxe⟩
    · rw [List.append_nil]
      refine List.Forall₂.mp (fun item c hcarried hcopied => ?_) hshown hcopyReads
      exact ⟨hcarried.name, .inl (hcarried.written.elim id id),
        fun hstays => Layer.reads_lasting _ _ hext (hcopied hstays)⟩

theorem computes_push (p : Projection) (name : String) (e : Expr) :
    (p.push name e).computes = p.computes := by
  cases p <;> rfl

theorem combines_push (l : Layers) (name : String) (e : Expr) (wrap : Bool) :
    (({ l with main := l.main.push name e, wrap := wrap } : Layers).combinesRows ||
      l.outer.isSome) = (l.combinesRows || l.outer.isSome) := by
  cases hmain : l.main <;> simp [combinesRows, hmain, Projection.push, Projection.isGroupBy,
    Projection.isAnalytic]

/-- Layers that come of others while an order is bound: the naming layer has grown, and hidden
columns are taken away at the end if they were. -/
structure Within (s t : Layers) : Prop where
  items : t.items = s.items
  wrap : s.wrap = true → t.wrap = true
  computes : t.main.computes = s.main.computes
  combines : (t.combinesRows || t.outer.isSome) = (s.combinesRows || s.outer.isSome)
  naming : ∀ layer ∈ s.naming, ∃ more ∈ t.naming, layer.columns <+: more.columns

theorem Within.naming_none {s t : Layers} (h : s.Within t) (hnone : t.naming = none) :
    s.naming = none := by
  cases hlayer : s.naming with
  | none => rfl
  | some layer =>
    obtain ⟨more, hmore, -⟩ := h.naming layer hlayer
    rw [hnone] at hmore
    cases hmore

theorem Within.refl (l : Layers) : l.Within l :=
  ⟨rfl, id, rfl, rfl, fun layer h => ⟨layer, h, List.prefix_refl _⟩⟩

theorem Within.trans {s t u : Layers} (hst : s.Within t) (htu : t.Within u) : s.Within u := by
  refine ⟨htu.items.trans hst.items, fun h => htu.wrap (hst.wrap h),
    htu.computes.trans hst.computes, htu.combines.trans hst.combines, fun layer hlayer => ?_⟩
  obtain ⟨more, hmore, hbegins⟩ := hst.naming layer hlayer
  obtain ⟨most, hmost, hrest⟩ := htu.naming more hmore
  exact ⟨most, hmost, hbegins.trans hrest⟩

theorem bringUp_within (l : Layers) (e : Expr) : l.Within (l.bringUp e).2 := by
  refine ⟨rfl, id, rfl, rfl, fun layer hlayer => ?_⟩
  obtain ⟨naming, inner, main, outer, items, wrap, timestamp, sampleBy, orderBy, limit⟩ := l
  obtain rfl : naming = some layer := hlayer
  exact ⟨(Layer.carry e layer).2, rfl, (Layer.carry_appends e layer trivial trivial).2.1⟩

theorem hiddenInput_within (l : Layers) (e : Expr) : l.Within (l.hiddenInput e).2 := by
  unfold hiddenInput
  split
  · rename_i hnaming _
    refine ⟨rfl, id, rfl, rfl, fun layer hlayer => ?_⟩
    rw [hnaming] at hlayer
    cases hlayer
  · exact l.bringUp_within e

theorem publishHidden_within (l : Layers) (e : Expr) : l.Within (l.publishHidden e).2 := by
  unfold publishHidden
  split
  · exact .refl l
  · split
    · exact .refl l
    · have hinput := l.hiddenInput_within e
      exact ⟨hinput.items, fun _ => rfl, (computes_push _ _ _).trans hinput.computes,
        (combines_push _ _ _ _).trans hinput.combines, hinput.naming⟩

/-! ### One hidden column -/

theorem columns_push (p : Projection) (name : String) (e : Expr) :
    (p.push name e).columns = p.columns ++ [(name, e)] := by
  cases p <;> simp [Projection.push, Projection.columns]

theorem Carries.columns_eq (h : Carries known stays items shown hidden l) :
    ∃ columns, List.Forall₂ (IsHidden l.naming) hidden columns ∧
      l.main.columns = (shown ++ columns).map fun c => (c.name, c.expr) := by
  obtain ⟨columns, hcolumns, ⟨hmain, -⟩ | ⟨hmain, -⟩⟩ := h.main <;>
    exact ⟨columns, hcolumns, by rw [hmain]; rfl⟩

theorem Carries.not_combinesRows (h : Carries known stays items shown hidden l) :
    (l.combinesRows || l.outer.isSome) = false := by
  obtain ⟨_, -, ⟨hmain, -⟩ | ⟨hmain, -⟩⟩ := h.main <;>
    simp [combinesRows, hmain, h.outer, Projection.isGroupBy, Projection.isAnalytic]

/-- The layers with one more hidden column. -/
def withHidden (l : Layers) (naming : Option Layer) (name : String) (routed : Expr) : Layers :=
  { l with naming := naming, main := l.main.push name routed, wrap := true }

/-- What is brought up is carried besides what is carried already. -/
theorem BringsUp.carries (h : Carries known stays items shown hidden l) {ref : ColumnRef}
    (href : known ref) {naming : Option Layer} {routed : Expr}
    (hbrings : BringsUp known stays items shown hidden l ref naming routed) (name : String) :
    Carries known stays items shown (hidden ++ [(ref, name)]) (l.withHidden naming name routed) := by
  obtain ⟨columns, hcolumns, hmain⟩ := hbrings.main
  refine ⟨h.inner, h.outer, ⟨columns ++ [⟨name, routed⟩],
    List.rel_append hcolumns (.cons ⟨rfl, hbrings.reads⟩ .nil), ?_⟩, hbrings.sound,
    hbrings.carried, ?_⟩
  · rcases hmain with ⟨hmain, hnaming⟩ | ⟨hmain, hnaming⟩
    · exact .inl ⟨by rw [withHidden, hmain, ← List.append_assoc]; rfl, hnaming⟩
    · exact .inr ⟨by rw [withHidden, hmain, ← List.append_assoc]; rfl, fun h => absurd h hnaming⟩
  · intro column hcolumn
    rcases List.mem_append.mp hcolumn with hcolumn | hcolumn
    · exact h.refs column hcolumn
    · obtain rfl := List.mem_singleton.mp hcolumn
      exact href

/-- A hidden column is offered under a name that is new. -/
theorem Offers.withHidden (h : Offers items hidden l) (houter : l.outer = none)
    (naming : Option Layer) (ref : ColumnRef) {name : String} (routed : Expr)
    (hname : (AliasSet.ofList l.main.aliases).isFree name = true) :
    Offers items (hidden ++ [(ref, name)]) (l.withHidden naming name routed) := by
  have htop : l.main.aliases = items.map Prod.fst ++ hidden.map Prod.snd := by
    rw [← h.aliases_eq, top, houter]
    rfl
  refine ⟨h.items_eq, ?_, ?_⟩
  · change ((l.outer.getD (l.main.push name routed)).columns.map Prod.fst) = _
    rw [houter, Option.getD_none, columns_push, List.map_append, List.map_append, ← List.append_assoc,
      ← htop]
    rfl
  · rw [List.map_append, ← List.append_assoc]
    refine List.pairwise_append.mpr ⟨h.apart, List.pairwise_singleton _ _, fun a ha b hb => ?_⟩
    obtain rfl := List.mem_singleton.mp hb
    rw [Ascii.same_comm]
    exact AliasSet.same_eq_false hname (AliasSet.taken_ofList (htop ▸ ha))

/-- A source column that only the order needs is one that the main layer publishes already, or
it is hidden behind the others. -/
theorem Carries.publishHidden (h : Carries known stays items shown hidden l)
    (hoffers : Offers items hidden l) (hknown : SpelledApart known) {ref : ColumnRef}
    (href : known ref) {p : Nat} {name : String} {t : Layers}
    (hpublish : l.publishHidden (.column ref p) = (some name, t))
    (hcopy : t.wrap = true → l.naming = none → l.main.computes = true →
      Copies known stays items shown) :
    (t = l ∧ ∃ c ∈ l.main.columns, c.1 = name ∧ c.2.text = ref.text) ∨
      Carries known stays items shown (hidden ++ [(ref, name)]) t ∧
        Offers items (hidden ++ [(ref, name)]) t ∧ AliasSet.MadeOf ref.name name := by
  unfold Layers.publishHidden at hpublish
  rw [h.not_combinesRows, if_neg Bool.false_ne_true] at hpublish
  cases hfind : l.main.columns.find? fun c => c.2.sameText (.column ref p) with
  | some c =>
    rw [hfind] at hpublish
    cases hpublish
    have htext : c.2.text = (Expr.column ref p).text := by
      simpa [Expr.sameText] using List.find?_some hfind
    exact .inl ⟨rfl, c, List.mem_of_find?_eq_some hfind, rfl, htext⟩
  | none =>
    have hbrings := h.hiddenInput hknown href (p := p)
    cases hrouted : l.hiddenInput (.column ref p) with
    | mk routed below =>
      rw [hfind, hrouted] at hpublish
      have hwrap : t.wrap = true := congrArg Layers.wrap (Prod.mk.inj hpublish).2.symm
      obtain ⟨naming, hbelow, hbrings⟩ := hbrings (hcopy hwrap)
      rw [hrouted] at hbelow hbrings
      obtain rfl : below = { l with naming := naming } := hbelow
      cases hpublish
      exact .inr ⟨hbrings.carries h href _, hoffers.withHidden h.outer naming ref _
        (AliasSet.isFree_freeName _ _), AliasSet.madeOf_freeName _ _⟩

/-! ### Columns that are spelled like a reference -/

theorem isColumn_congr {scope : Scope} {a b : Expr} (h : a.erase = b.erase) {ref : ColumnRef}
    (hb : scope.IsColumn b ref) : scope.IsColumn a ref := by
  obtain ⟨found, source, hcolumn, hfound⟩ := hb
  exact ⟨found, source, by rw [← Expr.column?_erase, h, Expr.column?_erase]; exact hcolumn, hfound⟩

/-- What reads a column is a reference. -/
theorem column?_of_reads {naming : Option Layer} {ref : ColumnRef} {e : Expr}
    (h : Layer.ReadsThrough naming (.column ref 0) e) : ∃ found, e.column? = some found := by
  cases naming with
  | none =>
    refine ⟨ref, ?_⟩
    rw [← Expr.column?_erase, h]
    rfl
  | some layer =>
    obtain ⟨x, hx, hxe⟩ := h
    refine Option.ne_none_iff_exists'.mp fun hcol => ?_
    rw [Projection.expand?, Expr.substitute?_of_parts hcol] at hx
    obtain ⟨es, -, rfl⟩ := Option.map_eq_some_iff.mp hx
    have hnone := congrArg Expr.column? hxe
    rw [Expr.column?_erase, Expr.column?_withParts, hcol] at hnone
    cases hnone

/-- Every column of the naming layer that has the text of a reference for its name is the column
that the reference leads to. -/
def NamesApart (scope : Scope) (naming : Option Layer) (ref : ColumnRef) : Prop :=
  ∀ layer ∈ naming, ∀ c ∈ layer.columns, Ascii.same c.name ref.text = true →
    scope.IsColumn c.expr ref

theorem NamesApart.of_within {scope : Scope} {s t : Layers} {ref : ColumnRef} (h : s.Within t)
    (ht : NamesApart scope t.naming ref) : NamesApart scope s.naming ref := by
  intro layer hlayer c hc
  obtain ⟨more, hmore, hbegins⟩ := h.naming layer hlayer
  exact ht more hmore c (hbegins.subset hc)

/-- What reads from the naming layer and is spelled like a reference is its column. -/
theorem NamesApart.isColumn {scope : Scope} {layer : Layer} {ref found : ColumnRef}
    (h : NamesApart scope (some layer) ref) {e read : Expr} (hread : layer.Reads e read)
    (hfound : read.column? = some found) (htext : found.text = ref.text) :
    scope.IsColumn e ref := by
  obtain ⟨p, rfl⟩ := Expr.column?_eq_some.mp hfound
  obtain ⟨x, hx, hxe⟩ := hread
  obtain ⟨hplain, hx⟩ := Option.ite_none_right_eq_some.mp hx
  rw [column?_choose] at hx
  obtain ⟨c, hc, rfl⟩ := Option.map_eq_some_iff.mp hx
  refine isColumn_congr hxe.symm (h layer rfl c (List.mem_of_find?_eq_some hc) ?_)
  have hname : found.name = ref.text := by
    rw [← htext, ColumnRef.text, Option.isNone_iff_eq_none.mp hplain]
  rw [← hname]
  exact List.find?_some (p := fun c : PublishedColumn => Ascii.same c.name found.name) hc

/-- An item that is carried to the text of a reference, and is not written so itself, is the column
that the reference leads to. -/
theorem IsCarried.isColumn {scope : Scope} {naming : Option Layer} {item : String × Expr}
    {c : PublishedColumn} (h : IsCarried naming stays item c) {ref : ColumnRef}
    (hnaming : NamesApart scope naming ref)
    (hwritten : ∀ written, item.2.column? = some written → Ascii.same written.text ref.text = false)
    {found : ColumnRef} (hfound : c.expr.column? = some found) (htext : found.text = ref.text) :
    scope.IsColumn item.2 ref := by
  have hnot : c.expr.erase ≠ item.2.erase := by
    intro heq
    have hitem : item.2.column? = some found := by
      rw [← Expr.column?_erase, ← heq, Expr.column?_erase, hfound]
    have hdiffer := hwritten found hitem
    rw [htext, Ascii.same_self] at hdiffer
    cases hdiffer
  have hread := h.written.resolve_left hnot
  cases naming with
  | none => exact absurd hread hnot
  | some layer => exact hnaming.isColumn hread hfound htext

/-- What a hidden column reads is spelled like a reference only if that leads to the column. -/
theorem IsHidden.isColumn {scope : Scope} {naming : Option Layer} {column : ColumnRef × String}
    {c : PublishedColumn} (h : IsHidden naming column c) {ref : ColumnRef}
    (hnaming : NamesApart scope naming ref) (hsame : column.1.text = ref.text → column.1 = ref)
    (hleads : ∃ source, scope.LeadsTo ref source) {found : ColumnRef}
    (hfound : c.expr.column? = some found) (htext : found.text = ref.text) :
    scope.IsColumn (.column column.1 0) ref := by
  cases naming with
  | none =>
    have hcolumn : some found = some column.1 := by
      rw [← hfound, ← Expr.column?_erase, h.2]
      rfl
    obtain rfl : found = column.1 := Option.some.inj hcolumn
    obtain rfl := hsame htext
    obtain ⟨source, hsource⟩ := hleads
    exact ⟨_, source, rfl, Ascii.same_self _, hsource, hsource⟩
  | some layer => exact hnaming.isColumn h.2 hfound htext

/-- A column of the main layer that is spelled like a reference which no item is written as is
the column that the reference leads to. -/
theorem Carries.means_of_text {scope : Scope} (h : Carries known stays items shown hidden l)
    (hknown : SpelledApart known) {ref : ColumnRef} (href : known ref)
    (hleads : ∃ source, scope.LeadsTo ref source)
    (hcomputed : ∀ c ∈ shown, c.expr.column? = none → c.expr.text ≠ ref.text)
    (hwritten : ∀ item ∈ items, ∀ written, item.2.column? = some written →
      Ascii.same written.text ref.text = false)
    (hnaming : NamesApart scope l.naming ref) {c : String × Expr} (hc : c ∈ l.main.columns)
    (htext : c.2.text = ref.text) :
    (∃ item ∈ items, item.1 = c.1 ∧ scope.IsColumn item.2 ref) ∨
      ∃ column ∈ hidden, column.2 = c.1 ∧ scope.IsColumn (.column column.1 0) ref := by
  have hspelled : ∀ found, c.2.column? = some found → found.text = ref.text := by
    intro found hfound
    obtain ⟨p, hexpr⟩ := Expr.column?_eq_some.mp hfound
    rw [← htext, hexpr]
    rfl
  obtain ⟨columns, hcolumns, hmain⟩ := h.columns_eq
  rw [hmain, List.map_append] at hc
  rcases List.mem_append.mp hc with hc | hc
  · obtain ⟨c, hshown, rfl⟩ := List.mem_map.mp hc
    obtain ⟨item, hitem, hcarried⟩ := exists_mem_of_forall₂ (R := flip _) h.carried.flip hshown
    refine .inl ⟨item, hitem, hcarried.name.symm, ?_⟩
    cases hfound : c.expr.column? with
    | none => exact absurd htext (hcomputed c hshown hfound)
    | some found => exact hcarried.isColumn hnaming (hwritten item hitem) hfound (hspelled found hfound)
  · obtain ⟨c, hshown, rfl⟩ := List.mem_map.mp hc
    obtain ⟨column, hcolumn, hhidden⟩ :=
      exists_mem_of_forall₂ (R := flip (IsHidden l.naming)) hcolumns.flip hshown
    obtain ⟨found, hfound⟩ := column?_of_reads hhidden.2
    refine .inr ⟨column, hcolumn, hhidden.1.symm, ?_⟩
    exact hhidden.isColumn hnaming (hknown _ _ (h.refs column hcolumn) href) hleads hfound
      (hspelled found hfound)

end Layers

end SeriesQuery
