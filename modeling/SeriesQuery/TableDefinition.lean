import SeriesQuery.Error
import SeriesQuery.Json
import SeriesQuery.Settings
import SeriesQuery.Statement

/-!
Table definitions: what a `create table` statement declares, checked and with every
block size filled in.
-/

namespace SeriesQuery

/-- A column of a defined table. -/
structure ColumnDefinition where
  name : String
  type : ColumnType
  indexed : Bool
  /-- How many values an index block holds; zero when the column has no index. -/
  indexBlockSize : Nat
deriving DecidableEq, Repr, Inhabited

/-- A defined table. -/
structure TableDefinition where
  name : String
  columns : List ColumnDefinition
  /-- The place of the designated timestamp among the columns. -/
  timestampIndex : Option Nat
  partitionBy : Partition
  /-- How many records the table is expected to hold. -/
  recordHint : Option Nat
deriving DecidableEq, Repr, Inhabited

namespace TableDefinition

/-! ### Checking a declaration -/

/-- Whether a column has the given name, in any case. -/
def hasName (name : String) (c : ColumnDefinition) : Bool :=
  Ascii.same c.name name

/-- A declared column, with `blockSize` for an index without one. -/
def defineColumn (blockSize : Nat) (d : ColumnDeclaration) : ColumnDefinition :=
  match d.index with
  | some spec => ⟨d.name.name, d.type, true, spec.blockSize.getD blockSize⟩
  | none => ⟨d.name.name, d.type, false, 0⟩

/-- The columns behind those already defined; no name may come twice. -/
def defineColumns (blockSize : Nat) :
    List ColumnDefinition → List ColumnDeclaration → Except SqlError (List ColumnDefinition)
  | defined, [] => .ok defined
  | defined, d :: ds =>
    if defined.any (hasName d.name.name) then
      .error ⟨d.name.position, .duplicateColumn d.name.name⟩
    else defineColumns blockSize (defined ++ [defineColumn blockSize d]) ds

/-- The columns with an index on the first one of the given name. -/
def addIndex (blockSize : Nat) (name : String) : List ColumnDefinition → List ColumnDefinition
  | [] => []
  | c :: cs =>
    if hasName name c then { c with indexed := true, indexBlockSize := blockSize } :: cs
    else c :: addIndex blockSize name cs

/-- The columns with the indexes declared after them, each on a declared column. -/
def addIndexes (blockSize : Nat) :
    List IndexDeclaration → List ColumnDefinition → Except SqlError (List ColumnDefinition)
  | [], columns => .ok columns
  | d :: ds, columns =>
    if columns.any (hasName d.column.name) then
      addIndexes blockSize ds (addIndex (d.spec.blockSize.getD blockSize) d.column.name columns)
    else .error ⟨d.column.position, .invalidColumn d.column.name⟩

/-- The place of the designated timestamp, a declared column of type `TIMESTAMP`. -/
def findTimestamp (columns : List ColumnDefinition) :
    Option Ident → Except SqlError (Option Nat)
  | none => .ok none
  | some timestamp =>
    match columns.zipIdx.find? fun c => hasName timestamp.name c.1 with
    | none => .error ⟨timestamp.position, .invalidColumn timestamp.name⟩
    | some (c, index) =>
      if c.type = .timestamp then .ok (some index)
      else .error ⟨timestamp.position, .notATimestamp timestamp.name⟩

/-- The table that a declaration defines. -/
def ofDeclaration (settings : CompilerSettings) (d : TableDeclaration) :
    Except SqlError TableDefinition := do
  let defined ← defineColumns settings.indexValueBlockSize [] d.columns
  let columns ← addIndexes settings.indexValueBlockSize d.indexes defined
  let timestampIndex ← findTimestamp columns d.timestamp
  return {
    name := d.name.name
    columns, timestampIndex
    partitionBy := (d.partitionBy.map Prod.fst).getD .none
    recordHint := d.recordHint }

/-! ### Looking at a definition -/

/-- The column with the given name, in any case. -/
def column? (t : TableDefinition) (name : String) : Option ColumnDefinition :=
  t.columns.find? (hasName name)

/-- The columns with an index. -/
def indexedColumns (t : TableDefinition) : List ColumnDefinition :=
  t.columns.filter ColumnDefinition.indexed

/-! ### Text -/

/-- The text of a column. -/
def columnText (c : ColumnDefinition) : String :=
  let declared := c.name ++ " " ++ c.type.name
  if c.indexed then declared ++ " index block size " ++ toString c.indexBlockSize else declared

/-- The text of the designated timestamp. -/
def timestampText (t : TableDefinition) : String :=
  match t.timestampIndex.bind fun i => t.columns[i]? with
  | some c => " timestamp(" ++ c.name ++ ")"
  | none => ""

/-- The text of the expected number of records. -/
def recordHintText (t : TableDefinition) : String :=
  match t.recordHint with
  | some n => " record hint " ++ toString n
  | none => ""

/-- The canonical text of a definition. -/
def text (t : TableDefinition) : String :=
  "create table " ++ t.name ++ " (" ++ ", ".intercalate (t.columns.map columnText) ++ ")" ++
    t.timestampText ++ " partition by " ++ t.partitionBy.name ++ t.recordHintText

/-! ### JSON -/

/-- A column as a value. -/
def columnToJson (c : ColumnDefinition) : Json :=
  .object [("name", .string c.name), ("column_type", .string c.type.name),
    ("indexed", .bool c.indexed), ("index_block_size", .number c.indexBlockSize)]

/-- A definition as a value. -/
def toJson (t : TableDefinition) : Json :=
  .object [
    ("name", .string t.name),
    ("columns", .ofList columnToJson t.columns),
    ("timestamp_index", .ofOption .number t.timestampIndex),
    ("partition_by", .string t.partitionBy.name),
    ("record_hint", .ofOption .number t.recordHint)]

end TableDefinition

end SeriesQuery
