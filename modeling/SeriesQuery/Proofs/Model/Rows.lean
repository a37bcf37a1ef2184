import Mathlib.Data.Multiset.Dedup
import SeriesQuery.Proofs.Expr.Replacement
import SeriesQuery.Proofs.Interpretation
import SeriesQuery.Pushdown

/-!
The rows of a model.

A row gives values to named columns in an order, and the rows of a model are a bag. Filters
keep rows, `select-choose` and `select-virtual` compute one row from each, and
`select-group-by` makes one row of all rows that agree on the columns without aggregates
(`group_nodup`, `groupRow_eq_iff`). How a table, an aggregate function, a join, a limit,
`latest by`, `sample by` or a window function comes by its rows or values is left open, and
so is what a qualified reference reads in a row of joined sources.
-/

namespace SeriesQuery

/-- A row: the columns by name, in order. -/
abbrev Row (Value : Type) := List (String × Value)

/-- What references read in a row. -/
abbrev Reading (Value : Type) := Row Value → ColumnRef → Value

/-- What expressions stand for, and where rows come from that are not made one by one. -/
structure RowSemantics (Value : Type) extends Interpretation Value where
  /-- The rows of the table of a name. -/
  table : String → Multiset (Row Value)
  /-- The value of a column with aggregates over the rows of a group. -/
  aggregate : Expr → Multiset (Row Value) → Value
  /-- The rows of a model that looks at several rows or several sources at a time. -/
  produce : Model → Multiset (Row Value)
  /-- What references read in a row of joined sources. -/
  readJoined : Reading Value

/-- Whether the rows of a model are not made from one row, or one group, of its source. -/
def Model.combinesRows (m : Model) : Bool :=
  m.keepsFiltersOut || !m.joins.isEmpty

/-- Whether the columns of a model are computed from joined sources. -/
def Model.readsJoined (m : Model) : Bool :=
  m.nested?.any fun body => body.projection.isNone && !body.joins.isEmpty

/-- Signs of conjunction hold when both sides do. -/
def Interpretation.Conjoins {Value : Type} (I : Interpretation Value) : Prop :=
  ∀ a b, I.Holds (I.binary .and a b) ↔ I.Holds a ∧ I.Holds b

namespace RowSemantics

variable {Value : Type} (S : RowSemantics Value)

/-! ### One row -/

/-- What a reference reads in a row of one source: the first column of its name, in any
case. -/
def read : Reading Value := fun row ref =>
  ((row.find? fun c => Ascii.same c.1 ref.name).map Prod.snd).getD S.null

/-- What the columns of a model read in the rows of its source. -/
def reading (m : Model) : Reading Value :=
  if m.readsJoined then S.readJoined else S.read

/-- The value of an expression in a row. -/
def valueAt (R : Reading Value) (row : Row Value) (e : Expr) : Value :=
  S.value (R row) e

/-- A row of one source fulfils a condition. -/
def Fulfils (row : Row Value) (condition : Expr) : Prop :=
  S.Holds (S.valueAt S.read row condition)

/-- A row of one source passes a filter, if there is one. -/
def Passes (filter : Option Expr) (row : Row Value) : Prop :=
  ∀ condition ∈ filter, S.Fulfils row condition

/-- The row that columns compute from a row. -/
def compute (R : Reading Value) (columns : List PublishedColumn) (row : Row Value) : Row Value :=
  columns.map fun c => (c.name, S.valueAt R row c.expr)

/-! ### Groups -/

/-- Two rows belong to one group: they agree on the columns without aggregates. -/
def Alike (R : Reading Value) (columns : List PublishedColumn) (a b : Row Value) : Prop :=
  ∀ c ∈ columns, c.expr.hasAggregate = false → S.valueAt R a c.expr = S.valueAt R b c.expr

open Classical in
/-- The group of a row. -/
noncomputable def members (R : Reading Value) (columns : List PublishedColumn)
    (rows : Multiset (Row Value)) (row : Row Value) : Multiset (Row Value) :=
  rows.filter (S.Alike R columns row)

/-- The row that is made of the group of a row. -/
noncomputable def groupRow (R : Reading Value) (columns : List PublishedColumn)
    (rows : Multiset (Row Value)) (row : Row Value) : Row Value :=
  columns.map fun c =>
    (c.name,
      if c.expr.hasAggregate then S.aggregate c.expr (S.members R columns rows row)
      else S.valueAt R row c.expr)

open Classical in
/-- The rows of the groups. -/
noncomputable def group (R : Reading Value) (columns : List PublishedColumn)
    (rows : Multiset (Row Value)) : Multiset (Row Value) :=
  (rows.map (S.groupRow R columns rows)).dedup

/-! ### Models -/

open Classical in
/-- The rows of a source that the filters of a model keep. -/
noncomputable def kept (m : Model) (source : Multiset (Row Value)) : Multiset (Row Value) :=
  (source.filter (S.Passes m.filter)).filter (S.Passes m.constFilter)

/-- The rows of a model whose source has the given rows. -/
noncomputable def rowsOver (m : Model) (source : Multiset (Row Value)) : Multiset (Row Value) :=
  if m.combinesRows then S.produce m
  else
    match m.projection with
    | none => S.kept m source
    | some (.choose columns) | some (.virtual columns) =>
      (S.kept m source).map (S.compute (S.reading m) columns)
    | some (.groupBy columns) => S.group (S.reading m) columns (S.kept m source)
    | some (.analytic _) => S.produce m

/-- The rows of a model. -/
noncomputable def rows : Model → Multiset (Row Value)
  | m@{ source := .table name _, .. } => S.rowsOver m (S.table name)
  | m@{ source := .nested inner, .. } => S.rowsOver m (rows inner)

/-- The rows that a model reads. -/
noncomputable def sourceRows : RowSource Model → Multiset (Row Value)
  | .table name _ => S.table name
  | .nested inner => S.rows inner

theorem rows_eq (m : Model) : S.rows m = S.rowsOver m (S.sourceRows m.source) := by
  obtain ⟨_, source, _, _, _, _, _, _, _, _, _⟩ := m
  cases source <;> rfl

variable {S}

section Shapes

variable {m : Model} {source : Multiset (Row Value)} (hrows : m.combinesRows = false)

include hrows

theorem rowsOver_plain (hp : m.projection = none) : S.rowsOver m source = S.kept m source := by
  simp only [rowsOver, hrows, hp, Bool.false_eq_true, if_false]

theorem rowsOver_computed {columns : List PublishedColumn}
    (hp : m.projection = some (.choose columns) ∨ m.projection = some (.virtual columns)) :
    S.rowsOver m source = (S.kept m source).map (S.compute (S.reading m) columns) := by
  rcases hp with hp | hp <;> simp only [rowsOver, hrows, hp, Bool.false_eq_true, if_false]

theorem rowsOver_grouped {columns : List PublishedColumn}
    (hp : m.projection = some (.groupBy columns)) :
    S.rowsOver m source = S.group (S.reading m) columns (S.kept m source) := by
  simp only [rowsOver, hrows, hp, Bool.false_eq_true, if_false]

end Shapes

/-! ### Laws of groups -/

variable {R : Reading Value} {columns : List PublishedColumn}

theorem Alike.symm {a b : Row Value} (h : S.Alike R columns a b) : S.Alike R columns b a :=
  fun c hc hkey => (h c hc hkey).symm

theorem Alike.trans {a b c : Row Value} (hab : S.Alike R columns a b)
    (hbc : S.Alike R columns b c) : S.Alike R columns a c :=
  fun d hd hkey => (hab d hd hkey).trans (hbc d hd hkey)

/-- Rows of one group, and only these, make the same row. -/
theorem groupRow_eq_iff {rows : Multiset (Row Value)} {a b : Row Value} :
    S.groupRow R columns rows a = S.groupRow R columns rows b ↔ S.Alike R columns a b := by
  classical
  constructor
  · intro h c hc hkey
    have hcolumn := (List.map_inj_left.mp h) c hc
    simpa [hkey] using hcolumn
  · intro h
    have hgroup : S.members R columns rows a = S.members R columns rows b :=
      Multiset.filter_congr fun row _ => ⟨h.symm.trans, h.trans⟩
    refine List.map_inj_left.mpr fun c hc => ?_
    cases hkey : c.expr.hasAggregate with
    | true => simp [hgroup]
    | false => simp [h c hc hkey]

theorem mem_group {rows : Multiset (Row Value)} {row : Row Value} :
    row ∈ S.group R columns rows ↔ ∃ member ∈ rows, S.groupRow R columns rows member = row := by
  simp [group]

/-- No group has two rows. -/
theorem group_nodup (rows : Multiset (Row Value)) : (S.group R columns rows).Nodup := by
  classical exact Multiset.nodup_dedup _

end RowSemantics

end SeriesQuery
