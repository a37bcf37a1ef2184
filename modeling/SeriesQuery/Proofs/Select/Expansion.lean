import SeriesQuery.Proofs.Expr.Replacement
import SeriesQuery.Proofs.Positions.Expr
import SeriesQuery.Select.Layers

/-!
Columns followed down through projections.

An expression over the columns of a projection is one over those of its source, if every
reference is replaced by what the projection publishes under its name; `Model.origin?` goes
on in this way until the row source. `Projection.Reads` says that the one expression is what
becomes of the other, where positions do not count.
-/

namespace SeriesQuery

/-! ### References replaced -/

namespace Expr

/-- The expression with what `f` gives for every reference in its place, if it gives
something for each. -/
def substitute? (f : ColumnRef → Option Expr) (e : Expr) : Option Expr :=
  e.replaceColumnsM (m := Option) fun ref _ => f ref

variable {f : ColumnRef → Option Expr}

theorem substitute?_of_parts {e : Expr} (h : e.column? = none) :
    e.substitute? f = (e.parts.mapM (substitute? f)).map e.withParts :=
  replaceColumnsM_of_parts h

/-! ### Positions -/

/-- Forgetting positions and replacing references go together. -/
theorem map_erase_substitute? (e : Expr) :
    (e.substitute? f).map erase = e.erase.substitute? fun ref => (f ref).map erase := by
  induction e using inductColumns with
  | column ref p => rfl
  | other e hcol ih =>
    have hparts : (e.parts.mapM (substitute? f)).map (List.map erase) =
        e.erase.parts.mapM (substitute? fun ref => (f ref).map erase) := by
      rw [parts_erase, List.mapM_map]
      exact (map_mapM (substitute? f) erase e.parts).trans (mapM_congr ih)
    rw [substitute?_of_parts hcol, substitute?_of_parts (by simpa using hcol), ← hparts,
      Option.map_map, Option.map_map]
    exact congrArg (Option.map · _) (funext fun es => erase_withParts e es)

/-- Expressions that differ in positions only stay so. -/
theorem map_erase_substitute?_congr {a b : Expr} (h : a.erase = b.erase) :
    (a.substitute? f).map erase = (b.substitute? f).map erase := by
  rw [map_erase_substitute?, map_erase_substitute?, h]

/-! ### Parts -/

/-- What is put in the place of an expression is put together of what is put in the places
of its parts. -/
theorem substitute?_congruent (f : ColumnRef → Option Expr) :
    Congruent fun x e => e.substitute? f = some x := by
  refine Congruent.of_withParts fun e es hcol hes => ?_
  rw [substitute?_of_parts (by simp [hcol]), parts_withParts hes.length_eq,
    mapM_eq_some_iff.mpr hes.flip, Option.map_some,
    withParts_withParts hes.length_eq hes.length_eq.symm, withParts_parts]

/-- What more references are given for does not change what was there. -/
theorem substitute?_mono {g : ColumnRef → Option Expr} (h : ∀ ref x, f ref = some x → g ref = some x)
    {e e' : Expr} (he : e.substitute? f = some e') : e.substitute? g = some e' :=
  (substitute?_congruent g).flip.of_replaceColumnsM (fun ref _ x hx => h ref x hx) he

/-- What two replacements give for an expression differs if they differ in one of its
references. -/
theorem substitute?_eq_iff {g : ColumnRef → Option Expr} {e x : Expr}
    (h : e.substitute? f = some x) :
    e.substitute? g = some x ↔ ∀ c ∈ e.columns, g c.1 = f c.1 := by
  refine Congruent.of_replaceColumnsM
    (Q := fun e x => e.substitute? g = some x ↔ ∀ c ∈ e.columns, g c.1 = f c.1)
    (Congruent.of_withParts fun e es hcol hes => ?_) (fun ref p x hx => ?_) h
  · have hparts : e.parts.mapM (substitute? g) = some es ↔
        ∀ a ∈ e.parts, ∀ c ∈ a.columns, g c.1 = f c.1 := by
      rw [mapM_eq_some_iff]
      generalize e.parts = parts at hes
      induction hes with
      | nil => simp
      | cons ha _ ih => rw [List.forall₂_cons, List.forall_mem_cons, ha, ih]
    rw [substitute?_of_parts hcol, columns_of_parts hcol, List.forall_mem_flatMap, ← hparts,
      Option.map_eq_some_iff]
    refine ⟨fun ⟨es', hes', heq⟩ => ?_, fun h => ⟨es, h, rfl⟩⟩
    have hlength := (mapM_eq_some_iff.mp hes').length_eq
    rwa [← parts_withParts hes.length_eq, ← heq, parts_withParts hlength]
  · change g ref = some x ↔ ∀ c ∈ [(ref, p)], g c.1 = f c.1
    rw [List.forall_mem_singleton, hx]

/-- References replaced one after the other are replaced at once. -/
theorem bind_substitute? (g : ColumnRef → Option Expr) (e : Expr) :
    (e.substitute? f).bind (substitute? g) =
      e.substitute? fun ref => (f ref).bind (substitute? g) := by
  cases he : e.substitute? f with
  | some x =>
    refine Congruent.of_replaceColumnsM (Congruent.replacesAlike
      (fun ref _ => (f ref).bind (substitute? g)) fun ref _ => g ref) (fun ref p x hx => ?_) he
    change x.substitute? g = (f ref).bind (substitute? g)
    rw [hx, Option.bind_some]
  | none =>
    -- a reference that nothing is given for is one in both
    by_contra hne
    have hsome := isSome_replaceColumnsM.mp (Option.isSome_iff_ne_none.mpr (Ne.symm hne))
    have : (e.substitute? f).isSome := isSome_replaceColumnsM.mpr fun c hc =>
      Option.isSome_of_isSome_bind (hsome c hc)
    simp [he] at this

/-- Something is given for every reference of an expression that all are replaced in. -/
theorem isSome_of_substitute? {e e' : Expr} (he : e.substitute? f = some e') :
    ∀ c ∈ e.columns, (f c.1).isSome :=
  isSome_replaceColumnsM.mp (Option.isSome_of_eq_some he)

end Expr

/-! ### Expressions over another source -/

namespace Projection

/-- What a reference stands for in the source of a projection: what is published under its
name, where a reference has no qualifier. -/
def lookup? (p : Projection) (ref : ColumnRef) : Option Expr :=
  if ref.qualifier.isNone then p.column? ref.name else none

/-- An expression over the columns of a projection as one over those of its source; none if
it refers to a column that the projection does not publish. -/
def expand? (p : Projection) (e : Expr) : Option Expr :=
  e.substitute? p.lookup?

/-- What `e'` refers to through a projection is `e`. -/
def Reads (p : Projection) (e e' : Expr) : Prop :=
  ∃ x, p.expand? e' = some x ∧ x.erase = e.erase

theorem reads_congruent (p : Projection) : Expr.Congruent p.Reads :=
  Expr.Congruent.erase.comp (Expr.substitute?_congruent p.lookup?)

theorem reads_reference {p : Projection} {name : String} {e : Expr} (h : p.column? name = some e)
    (q : Nat) : p.Reads e (Layer.reference name q) :=
  ⟨e, h, rfl⟩

/-- What is read through a projection refers to it without qualifiers. -/
theorem Reads.unqualified {p : Projection} {e e' : Expr} (h : p.Reads e e') :
    ∀ c ∈ e'.columns, c.1.qualifier = none := by
  obtain ⟨x, hx, -⟩ := h
  intro c hc
  have hsome := Expr.isSome_of_substitute? hx c hc
  unfold lookup? at hsome
  split at hsome
  · rename_i hnone
    simpa using hnone
  · cases hsome

end Projection

namespace Model

/-- An expression over the columns of a model as one over those of the row source below its
projections. -/
def origin? : Model → Expr → Option Expr
  | { projection := none, .. }, e => some e
  | { projection := some p, source := .table .., .. }, e => p.expand? e
  | { projection := some p, source := .nested body, .. }, e => (p.expand? e).bind body.origin?

/-- The names that a model publishes, with what is published under them over the row source
below its projections. -/
def outputs (m : Model) : List (String × Option Expr) :=
  match m.projection, m.source with
  | none, _ => []
  | some p, .table .. => p.columns.map fun c => (c.1, some c.2)
  | some p, .nested body => p.columns.map fun c => (c.1, body.origin? c.2)

/-- What `e'` refers to over the columns of a model is `e` over its row source. -/
def Shows (m : Model) (e e' : Expr) : Prop :=
  (m.origin? e').map Expr.erase = some e.erase

theorem origin?_of_source {m n : Model} (hp : n.projection = m.projection)
    (hs : n.source = m.source) (e : Expr) : n.origin? e = m.origin? e := by
  obtain ⟨p, source, _, _, _, _, _, _, _, _, _⟩ := m
  obtain ⟨p', source', _, _, _, _, _, _, _, _, _⟩ := n
  obtain rfl : p' = p := hp
  obtain rfl : source' = source := hs
  cases p' <;> cases source' <;> rfl

theorem Shows.of_source {m n : Model} {e e' : Expr} (h : m.Shows e e')
    (hp : n.projection = m.projection) (hs : n.source = m.source) : n.Shows e e' := by
  rw [Shows, origin?_of_source hp hs]
  exact h

/-- A row source shows what it is. -/
theorem shows_rowSource {m : Model} (hm : m.projection = none) (e : Expr) : m.Shows e e := by
  obtain ⟨p, _, _, _, _, _, _, _, _, _, _⟩ := m
  obtain rfl : p = none := hm
  rfl

theorem map_erase_origin?_congr (m : Model) {a b : Expr} (h : a.erase = b.erase) :
    (m.origin? a).map Expr.erase = (m.origin? b).map Expr.erase := by
  induction m using nestedInduct generalizing a b with
  | step m ih =>
    obtain ⟨p, source, _, _, _, _, _, _, _, _, _⟩ := m
    cases p with
    | none => simpa [origin?] using h
    | some p =>
      have hexpand : (p.expand? a).map Expr.erase = (p.expand? b).map Expr.erase :=
        Expr.map_erase_substitute?_congr h
      cases source with
      | table name table => exact hexpand
      | nested body =>
        have hbody := fun x y => ih body rfl (a := x) (b := y)
        simp only [origin?]
        cases ha : p.expand? a with
        | none =>
          rw [ha] at hexpand
          rw [Option.map_eq_none_iff.mp hexpand.symm]
        | some x =>
          rw [ha] at hexpand
          obtain ⟨y, hy, hyx⟩ := Option.map_eq_some_iff.mp hexpand.symm
          rw [hy]
          exact hbody x y hyx.symm

/-- What a projection reads, and what its source shows for that. -/
theorem Shows.select {m : Model} {p : Projection} {e e' e'' : Expr} (hm : m.Shows e e')
    (hp : p.Reads e' e'') : (Model.select p m).Shows e e'' := by
  obtain ⟨x, hx, hxe⟩ := hp
  change ((p.expand? e'').bind m.origin?).map Expr.erase = some e.erase
  rw [hx, Option.bind_some, map_erase_origin?_congr m hxe]
  exact hm

end Model

end SeriesQuery
