import SeriesQuery.Text.Ascii

/-!
Base tables: their columns, designated timestamp and partitioning.
-/

namespace SeriesQuery

/-- The type of a column. -/
inductive ColumnType where
  | boolean
  | byte
  | short
  | int
  | long
  | float
  | double
  | string
  | symbol
  | binary
  | date
  | timestamp
deriving DecidableEq, Repr, Inhabited

namespace ColumnType

/-- Every column type. -/
def all : List ColumnType :=
  [boolean, byte, short, int, long, float, double, string, symbol, binary, date, timestamp]

/-- The name of the type in statements and files. -/
def name : ColumnType → String
  | boolean => "BOOLEAN"
  | byte => "BYTE"
  | short => "SHORT"
  | int => "INT"
  | long => "LONG"
  | float => "FLOAT"
  | double => "DOUBLE"
  | string => "STRING"
  | symbol => "SYMBOL"
  | binary => "BINARY"
  | date => "DATE"
  | timestamp => "TIMESTAMP"

/-- The type with the given name, in any case. -/
def ofName? (name : String) : Option ColumnType :=
  all.find? fun t => Ascii.same t.name name

theorem ofName?_name (t : ColumnType) : ofName? t.name = some t := by
  cases t <;> decide

end ColumnType

/-- How a table is split into files. -/
inductive Partition where
  | none
  | day
  | month
  | year
deriving DecidableEq, Repr, Inhabited

namespace Partition

/-- Every way to split a table. -/
def all : List Partition :=
  [none, day, month, year]

/-- The name of the partitioning in statements and files. -/
def name : Partition → String
  | none => "NONE"
  | day => "DAY"
  | month => "MONTH"
  | year => "YEAR"

/-- The partitioning with the given name, in any case. -/
def ofName? (name : String) : Option Partition :=
  all.find? fun p => Ascii.same p.name name

theorem ofName?_name (p : Partition) : ofName? p.name = some p := by
  cases p <;> decide

end Partition

/-- A column of a base table. -/
structure Column where
  name : String
  type : ColumnType
  indexed : Bool
  /-- How many values an index block holds; zero when the column has no index. -/
  indexBlockCapacity : Nat
deriving DecidableEq, Repr, Inhabited

/-- What the compiler knows about a base table. -/
structure Table where
  name : String
  columns : List Column
  /-- The place of the designated timestamp among the columns. -/
  timestampIndex : Option Nat
  partitionBy : Partition
deriving DecidableEq, Repr, Inhabited

namespace Table

/-- A table without columns. -/
def empty (name : String) : Table :=
  ⟨name, [], none, .none⟩

/-- The table with one more column. -/
def withColumn (t : Table) (name : String) (type : ColumnType) : Table :=
  { t with columns := t.columns ++ [⟨name, type, false, 0⟩] }

/-- The table with one more column, which has an index. -/
def withIndexedColumn (t : Table) (name : String) (type : ColumnType) (capacity : Nat) :
    Table :=
  { t with columns := t.columns ++ [⟨name, type, true, capacity⟩] }

/-- The place of the column with the given name, in any case. -/
def columnIndex? (t : Table) (name : String) : Option Nat :=
  t.columns.findIdx? fun c => Ascii.same c.name name

/-- The column with the given name, in any case. -/
def column? (t : Table) (name : String) : Option Column :=
  t.columns.find? fun c => Ascii.same c.name name

/-- The table with the named column as its designated timestamp; without one if it
has no such column. -/
def withTimestamp (t : Table) (name : String) : Table :=
  { t with timestampIndex := t.columnIndex? name }

/-- The table with one more column `timestamp`, which becomes its designated
timestamp unless an earlier column has that name. -/
def withDefaultTimestamp (t : Table) : Table :=
  (t.withColumn "timestamp" .timestamp).withTimestamp "timestamp"

/-- The name of the designated timestamp. -/
def designatedTimestamp? (t : Table) : Option String :=
  t.timestampIndex.bind fun i => t.columns[i]?.map Column.name

end Table

end SeriesQuery
