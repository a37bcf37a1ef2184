import SeriesQuery.Proofs.Alias
import SeriesQuery.Proofs.Select.Expansion

/-!
Layers while they grow.

A layer never changes what it publishes, so a reference that has been made to it keeps its
meaning. What is carried through a layer reads as what it was before (`Layer.carry_ensures`),
provided that no reference is spelled like a computed column of the layer.
-/

namespace SeriesQuery

/-! ### What columns publish -/

/-- A name that is published once publishes its column. -/
theorem Projection.column?_of_mem {p : Projection}
    (hapart : p.columns.Pairwise fun a b => Ascii.same a.1 b.1 = false) {c : String × Expr}
    (hc : c ∈ p.columns) : p.column? c.1 = some c.2 := by
  rw [column?]
  generalize p.columns = columns at hapart hc
  induction columns with
  | nil => cases hc
  | cons first columns ih =>
    obtain ⟨hfirst, hrest⟩ := List.pairwise_cons.mp hapart
    rcases List.mem_cons.mp hc with rfl | hc
    · simp
    · rw [List.find?_cons, hfirst c hc]
      exact ih hrest hc

/-- What the first column of a name publishes, in any case. -/
def published (columns : List PublishedColumn) (name : String) : Option Expr :=
  (columns.find? fun c => Ascii.same c.name name).map PublishedColumn.expr

theorem column?_choose (columns : List PublishedColumn) (name : String) :
    (Projection.choose columns).column? name = published columns name := by
  rw [Projection.column?, Projection.columns, List.find?_map, Option.map_map]
  rfl

theorem published_of_prefix {columns more : List PublishedColumn} (h : columns <+: more)
    {name : String} {e : Expr} (he : published columns name = some e) :
    published more name = some e := by
  obtain ⟨rest, rfl⟩ := h
  obtain ⟨c, hc, rfl⟩ := Option.map_eq_some_iff.mp he
  rw [published, List.find?_append, hc]
  rfl

/-- Every name is published once, in any case. -/
def NamedApart (columns : List PublishedColumn) : Prop :=
  columns.Pairwise fun a b => Ascii.same a.name b.name = false

theorem NamedApart.published_of_mem {columns : List PublishedColumn} (h : NamedApart columns)
    {c : PublishedColumn} (hc : c ∈ columns) : published columns c.name = some c.expr := by
  have hcolumns : (Projection.choose columns).columns.Pairwise
      fun a b => Ascii.same a.1 b.1 = false := List.pairwise_map.mpr h
  rw [← column?_choose]
  exact Projection.column?_of_mem (c := (c.name, c.expr)) hcolumns (List.mem_map_of_mem hc)

theorem NamedApart.append {columns : List PublishedColumn} (h : NamedApart columns)
    {name : String} (hname : ∀ c ∈ columns, Ascii.same c.name name = false) (e : Expr) :
    NamedApart (columns ++ [⟨name, e⟩]) :=
  List.pairwise_append.mpr ⟨h, List.pairwise_singleton _ _, fun c hc _ hlast =>
    List.mem_singleton.mp hlast ▸ hname c hc⟩

/-- What a projection gives for an expression, one with more columns gives. -/
theorem expand?_of_prefix {columns more : List PublishedColumn} (h : columns <+: more) {e x : Expr}
    (he : (Projection.choose columns).expand? e = some x) :
    (Projection.choose more).expand? e = some x := by
  refine Expr.substitute?_mono (fun ref y hy => ?_) he
  simp only [Projection.lookup?, column?_choose, Option.ite_none_right_eq_some] at hy ⊢
  exact ⟨hy.1, published_of_prefix h hy.2⟩

/-- Names that are the same publish the same. -/
theorem published_congr {columns : List PublishedColumn} {a b : String}
    (h : Ascii.same a b = true) : published columns a = published columns b := by
  have hpred : (fun c : PublishedColumn => Ascii.same c.name a) = fun c => Ascii.same c.name b := by
    funext c
    rw [Ascii.same, Ascii.same, Ascii.same_iff.mp h]
  rw [published, published, hpred]

/-! ### References that are known by their texts -/

/-- The references of an expression are among those known. -/
def Expr.RefersTo (known : ColumnRef → Prop) (e : Expr) : Prop :=
  ∀ ref ∈ e.columns, known ref.1

instance (known : ColumnRef → Prop) [DecidablePred known] (e : Expr) :
    Decidable (e.RefersTo known) :=
  inferInstanceAs (Decidable (∀ ref ∈ e.columns, known ref.1))

/-- References that are spelled alike are the same. -/
def SpelledApart (known : ColumnRef → Prop) : Prop :=
  ∀ a b, known a → known b → a.text = b.text → a = b

/-- An expression that is spelled like one of the references is that reference. -/
def Expr.Honest (known : ColumnRef → Prop) (e : Expr) : Prop :=
  ∀ ref, known ref → e.text = ref.text → e.erase = .column ref 0

theorem SpelledApart.honest {known : ColumnRef → Prop} (h : SpelledApart known) {ref : ColumnRef}
    (href : known ref) (p : Nat) : (Expr.column ref p).Honest known := by
  intro other hother htext
  rw [h ref other href hother htext]
  rfl

namespace Layer

/-! ### Layers that grow -/

/-- The columns of a layer have names of their own, which are taken, and none of them is
spelled like a reference that it is not. -/
structure Sound (known : ColumnRef → Prop) (layer : Layer) : Prop where
  apart : NamedApart layer.columns
  taken : ∀ c ∈ layer.columns, layer.aliases.isFree c.name = false
  honest : ∀ c ∈ layer.columns, c.expr.Honest known

/-- Layers grow by columns at the end and by names. -/
def growth (known : ColumnRef → Prop) : Growth Layer where
  Sound := Sound known
  Extends s t := s.columns <+: t.columns ∧ s.aliases.Within t.aliases
  refl _ := ⟨List.prefix_refl _, .refl _⟩
  trans hst htu := ⟨hst.1.trans htu.1, hst.2.trans htu.2⟩

theorem sound_empty (known : ColumnRef → Prop) : Layer.empty.Sound known where
  apart := List.Pairwise.nil
  taken _ h := by cases h
  honest _ h := by cases h

/-- What `e'` refers to in a layer is `e`. -/
abbrev Reads (layer : Layer) (e e' : Expr) : Prop :=
  (Projection.choose layer.columns).Reads e e'

theorem Sound.reads_of_mem {known : ColumnRef → Prop} {layer : Layer} (h : layer.Sound known)
    {c : PublishedColumn} (hc : c ∈ layer.columns) (p : Nat) :
    layer.Reads c.expr (reference c.name p) := by
  refine Projection.reads_reference ?_ p
  rw [column?_choose]
  exact h.apart.published_of_mem hc

/-- A column under a name made free for it. -/
theorem Sound.push {known : ColumnRef → Prop} {layer : Layer} (h : layer.Sound known)
    (base : String) {e : Expr} (he : e.Honest known) :
    Layer.Sound known ⟨layer.columns ++ [⟨layer.aliases.freeName base, e⟩],
      layer.aliases.insert (layer.aliases.freeName base)⟩ where
  apart := h.apart.append (fun c hc => by
    rw [Ascii.same_comm]
    exact AliasSet.same_eq_false (layer.aliases.isFree_freeName base) (h.taken c hc)) e
  taken := by
    intro c hc
    rcases List.mem_append.mp hc with hc | hc
    · exact layer.aliases.within_insert _ _ (h.taken c hc)
    · obtain rfl := List.mem_singleton.mp hc
      exact layer.aliases.insert_taken _
  honest := by
    intro c hc
    rcases List.mem_append.mp hc with hc | hc
    · exact h.honest c hc
    · obtain rfl := List.mem_singleton.mp hc
      exact he

section

variable {known : ColumnRef → Prop}

theorem reads_lasting (e e' : Expr) : (growth known).Lasting fun layer => layer.Reads e e' :=
  fun hext ⟨x, hx, hxe⟩ => ⟨x, expand?_of_prefix hext.1 hx, hxe⟩

/-- A published expression is what is read under its name. -/
theorem publish_ensures (base : String) {e : Expr} (he : e.Honest known) :
    (growth known).Ensures (fun _ => True) (publish base e) fun layer e' => layer.Reads e e' := by
  intro layer hlayer _
  have hpush := hlayer.push base he
  exact ⟨hpush, ⟨List.prefix_append _ _, layer.aliases.within_insert _⟩,
    hpush.reads_of_mem (List.mem_append_right _ List.mem_cons_self) e.position⟩

theorem forward_eq (e : Expr) (layer : Layer) :
    forward e layer =
      match layer.columns.find? fun c => c.expr.sameText e with
      | some c => (reference c.name e.position, layer)
      | none => publish e.defaultName e layer := by
  change (match layer.columns.find? fun c => c.expr.sameText e with
    | some c => pure (reference c.name e.position)
    | none => publish e.defaultName e : StateM Layer Expr) layer = _
  cases layer.columns.find? fun c => c.expr.sameText e <;> rfl

/-- A reference that is carried through a layer reads as it did. -/
theorem forward_ensures (hknown : SpelledApart known) {ref : ColumnRef} (href : known ref) (p : Nat) :
    (growth known).Ensures (fun _ => True) (forward (.column ref p))
      fun layer e' => layer.Reads (.column ref p) e' := by
  intro layer hlayer _
  rw [forward_eq]
  split
  · rename_i c hfind
    have hc := List.mem_of_find?_eq_some hfind
    have htext : c.expr.text = (Expr.column ref p).text := by
      simpa [Expr.sameText] using List.find?_some hfind
    refine ⟨hlayer, (growth known).refl layer, ?_⟩
    obtain ⟨x, hx, hxe⟩ := hlayer.reads_of_mem hc p
    exact ⟨x, hx, hxe.trans (hlayer.honest c hc ref href htext)⟩
  · exact publish_ensures ref.name (hknown.honest href p) layer hlayer trivial

/-- An expression that is carried through a layer reads as it did. -/
theorem carry_ensures (hknown : SpelledApart known) {e : Expr} (he : e.RefersTo known) :
    (growth known).Ensures (fun _ => True) (carry e) fun layer e' => layer.Reads e e' :=
  Expr.Congruent.replaceColumnsM_ensures (fun _ _ => trivial) reads_lasting
    (fun _ => Projection.reads_congruent _)
    fun c hc => forward_ensures hknown (he c hc) c.2

end

/-! ### Layers that may be absent -/

/-- What `e'` refers to through a layer, if there is one, is `e`. -/
def ReadsThrough : Option Layer → Expr → Expr → Prop
  | none, e, e' => e'.erase = e.erase
  | some layer, e, e' => layer.Reads e e'

theorem readsThrough_congruent (layer : Option Layer) :
    Expr.Congruent (ReadsThrough layer) := by
  cases layer with
  | some layer => exact Projection.reads_congruent _
  | none => exact .erase

/-- Positions of what is read do not count. -/
theorem ReadsThrough.of_erase_eq {layer : Option Layer} {a b e : Expr} (h : ReadsThrough layer a e)
    (hab : a.erase = b.erase) : ReadsThrough layer b e := by
  cases layer with
  | none => exact Eq.trans h hab
  | some layer =>
    obtain ⟨x, hx, hxe⟩ := h
    exact ⟨x, hx, hxe.trans hab⟩

/-- A layer that an expression is carried through still reads as before, and so does the
expression. -/
theorem carryThrough_spec {known : ColumnRef → Prop} (hknown : SpelledApart known)
    {layer : Option Layer} (hlayer : ∀ l ∈ layer, l.Sound known) {e : Expr}
    (he : e.RefersTo known) :
    (∀ l ∈ (carryThrough layer e).2, l.Sound known) ∧
      (∀ a a', ReadsThrough layer a a' → ReadsThrough (carryThrough layer e).2 a a') ∧
        ReadsThrough (carryThrough layer e).2 e (carryThrough layer e).1 := by
  cases layer with
  | none => exact ⟨hlayer, fun _ _ h => h, rfl⟩
  | some layer =>
    obtain ⟨hsound, hext, hread⟩ := carry_ensures hknown he layer (hlayer layer rfl) trivial
    refine ⟨?_, fun a a' h => reads_lasting a a' hext h, hread⟩
    rintro l ⟨⟩
    exact hsound

end Layer

end SeriesQuery
