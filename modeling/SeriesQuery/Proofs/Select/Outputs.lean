import SeriesQuery.Proofs.Select.Grouping
import SeriesQuery.Proofs.Select.Layout

/-!
What a grouped select list puts out.

The columns of the top projection, followed down to the row source, are the expressions of
the select list in the order they are written, under the names they are given or made of
their default names (`Layers.outputs_grouped`).
-/

namespace SeriesQuery

namespace Select

/-- A grouped select list keeps its columns apart: no computed item is spelled like a
reference, and what stands beside aggregate calls is a key of the groups. -/
structure KeepsApart (items : List Item) : Prop where
  computed : ComputedApart items
  keys : ∀ item ∈ items, item.isMixed = true → ∀ c ∈ item.expr.bareColumns, IsKey items c.1

theorem KeepsApart.groupable {items : List Item} (h : KeepsApart items) {item : Item}
    (hitem : item ∈ items) :
    Groupable (RefersIn items) (fun ref => ∃ mixed ∈ items, mixed.isMixed = true ∧
      ∃ c ∈ mixed.expr.bareColumns, c.1 = ref) item where
  refers := (RefersIn.refersTo hitem).expr
  honest _ hcomputed := h.computed.honest hitem hcomputed
  bare hmixed c hc := ⟨item, hitem, hmixed, c, hc, rfl⟩

/-- What a column of a model has to do with an item: it has the name that the item is given,
or one made of its default name, and it is what is written for the item. -/
def IsOutput (item : SelectItem) (output : String × Option Expr) : Prop :=
  (match item.givenName with
    | some given => output.1 = given.name
    | none => AliasSet.MadeOf item.expr.defaultName output.1) ∧
  output.2.map Expr.erase = some item.expr.erase

end Select

open Select

namespace Layers

variable {select : SelectClause} {scope : Scope} {key : Option Expr} {l : Layers} {body : Model}

/-- A grouped select list shows its items. -/
theorem IsLayout.shown_grouped (h : l.IsLayout select scope key)
    (hagg : select.hasAggregate = true) (hwritten : AsWritten select key)
    (hgroups : KeepsApart (laidOut select key)) (hbody : body.projection = none) :
    List.Forall₂ IsShown l.items (l.sorted body).outputs := by
  obtain ⟨-, hapart, htaken⟩ : _ ∧ ItemsApart (named select key).1 ∧ _ := named_spec h.given
  have hlaid := isLaidOut h.given hwritten
  have hnames := names_of_readsAs hlaid.reads
  have hgroup : group (named select key).2 (laidOut select key) = (l.inner, l.main, l.outer) := by
    rw [h.projections, hagg]
    rfl
  obtain ⟨g, hinner, hmain, hg, htop⟩ := group_spec hlaid.spelled
    (fun item hitem => hgroups.groupable hitem) (hapart.of_names hnames)
    (taken_of_names htaken hnames)
    (fun ref ⟨item, hitem, hmixed, c, hc, hcr⟩ => hcr ▸ hgroups.keys item hitem hmixed c hc) hgroup
  cases houter : l.outer with
  | none =>
    rw [houter] at htop
    refine shown_of_main houter hbody ?_
    rw [hmain, hinner]
    refine List.forall₂_map_right_iff.mpr
      (forall₂_comp (h.reads hwritten) htop fun item read c hread hc => ?_)
    exact ⟨hc.1.trans hread.1, read.expr, hread.2, hc.2⟩
  | some outer =>
    rw [houter] at htop
    obtain ⟨columns, rfl, hcolumns⟩ := htop
    rw [sorted_outputs_of_outer houter]
    refine List.forall₂_map_right_iff.mpr (List.forall₂_map_right_iff.mpr
      (forall₂_comp (h.reads hwritten) hcolumns fun item read c hread hc => ⟨hc.1.trans hread.1, ?_⟩))
    obtain ⟨input, hexpand, hinput⟩ := hc.2
    have hinput' : Layer.ReadsThrough l.inner read.expr input := by
      rw [hinner]
      exact hinput
    exact (below_shows hbody hread.2 hinput').select ⟨input, hmain ▸ hexpand, rfl⟩

/-- **Outputs of a grouped select list.** The columns of the top projection, followed down to
the row source, are the expressions of the select list behind its sample key. -/
theorem outputs_grouped (h : Layers.ofSelect select scope key = .ok l)
    (hagg : select.hasAggregate = true) (hwritten : AsWritten select key)
    (hgroups : KeepsApart (laidOut select key)) (hbody : body.projection = none) :
    List.Forall₂ IsOutput (keyed key select.items) (l.onto body).outputs := by
  have hlayout := ofSelect_ok h
  have hshown := hlayout.shown_grouped hagg hwritten hgroups hbody
  rw [hlayout.items] at hshown
  rw [onto_eq, hlayout.wrap, if_neg Bool.false_ne_true]
  refine forall₂_comp (named_spec hlayout.given).1 (List.forall₂_map_left_iff.mp hshown)
    fun item n output hn houtput => ⟨?_, ?_⟩
  · rw [houtput.1]
    exact hn.2.2
  · rw [← hn.1]
    exact houtput.2

end Layers

/-- A table of numbers. -/
def numbersTable : Table :=
  ((((Table.empty "t").withColumn "a" .int).withColumn "b" .int).withColumn "x" .int)

/-- The scope of the table alone. -/
def numbersScope : Scope :=
  ⟨[⟨some "t", numbersTable.shownColumns⟩]⟩

/-- `select a k, a + b n, sum(x) + a total`: a key, a computed key, and a key beside an
aggregate. -/
def totalsSelect : SelectClause :=
  let a := Expr.column (.plain "a") 0
  ⟨0, [⟨a, some ⟨"k", 0⟩, none⟩,
    ⟨.binary .add a (.column (.plain "b") 0) 0, some ⟨"n", 0⟩, none⟩,
    ⟨.binary .add (.call "sum" [.column (.plain "x") 0] 0) a 0, some ⟨"total", 0⟩, none⟩]⟩

/-- Every layer is there, and the three columns are what is written. -/
theorem Layers.outputs_grouped_totals :
    ∃ l, Layers.ofSelect totalsSelect numbersScope none = .ok l ∧
      l.naming.isSome ∧ l.inner.isSome ∧ l.outer.isSome ∧
      List.Forall₂ IsOutput totalsSelect.items (l.onto (.ofTable "t" numbersTable)).outputs := by
  obtain ⟨l, hl⟩ : ∃ l, Layers.ofSelect totalsSelect numbersScope none = .ok l := ⟨_, rfl⟩
  have hgroups : KeepsApart (laidOut totalsSelect none) :=
    ⟨by decide +kernel, by decide +kernel⟩
  have hlayers : l.naming.isSome ∧ l.inner.isSome ∧ l.outer.isSome := by
    cases hl
    decide +kernel
  exact ⟨l, hl, hlayers.1, hlayers.2.1, hlayers.2.2,
    Layers.outputs_grouped hl (by decide) (by decide +kernel) hgroups rfl⟩

/-- `select sum(b) s, a b, sum(x) + a c`: the key `a` is published as `b`. -/
def renamedKeySelect : SelectClause :=
  let a := Expr.column (.plain "a") 0
  ⟨0, [⟨.call "sum" [.column (.plain "b") 0] 0, some ⟨"s", 0⟩, none⟩, ⟨a, some ⟨"b", 0⟩, none⟩,
    ⟨.binary .add (.call "sum" [.column (.plain "x") 0] 0) a 0, some ⟨"c", 0⟩, none⟩]⟩

/-- The layer on top of the groups refers to the key by the name it has below them, which
the groups do not publish. -/
theorem Layers.renamed_key_not_published :
    ∃ l, Layers.ofSelect renamedKeySelect numbersScope none = .ok l ∧
      ¬ List.Forall₂ IsOutput renamedKeySelect.items
        (l.onto (.ofTable "t" numbersTable)).outputs := by
  obtain ⟨l, hl⟩ : ∃ l, Layers.ofSelect renamedKeySelect numbersScope none = .ok l := ⟨_, rfl⟩
  have hlost : ∀ output ∈ (l.onto (.ofTable "t" numbersTable)).outputs,
      output.1 = "c" → output.2.isNone := by
    cases hl
    decide +kernel
  refine ⟨l, hl, fun h => ?_⟩
  obtain ⟨output, houtput, hname, hexpr⟩ :=
    exists_mem_of_forall₂ h (List.mem_of_getElem? (i := 2) rfl)
  rw [Option.isNone_iff_eq_none.mp (hlost output houtput hname)] at hexpr
  cases hexpr

end SeriesQuery
