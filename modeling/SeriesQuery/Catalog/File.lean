import SeriesQuery.Catalog
import SeriesQuery.Toml.Reader

/-!
Catalog files: TOML documents with one `[[table]]` for each table.

    [[table]]
    name = "trades"
    timestamp = "ts"
    partition_by = "DAY"
    columns = [
      { name = "ts", type = "TIMESTAMP" },
      { name = "sym", type = "SYMBOL", indexed = true, block_size = 128 },
    ]

Only the names of tables and columns and the types are required. Types and
partitionings are in capitals; members that mean nothing here are passed over.
-/

namespace SeriesQuery

namespace Catalog

/-- The type of a column. -/
def typeOfToml? (value : Toml) : Option ColumnType :=
  value.choice?.bind fun name => ColumnType.all.find? fun t => t.name == name

/-- How a table is split. -/
def partitionOfToml? (value : Toml) : Option Partition :=
  value.choice?.bind fun name => Partition.all.find? fun p => p.name == name

/-- A column of a table. -/
def columnOfToml? (value : Toml) : Option Column := do
  let fields ← value.fields? ["name", "type", "indexed", "block_size"]
  return {
    name := ← Toml.required? fields "name" Toml.string?
    type := ← Toml.required? fields "type" typeOfToml?
    indexed := ← Toml.field? fields "indexed" Toml.boolean? false
    indexBlockCapacity := ← Toml.field? fields "block_size" (Toml.natBelow? UInt32.size) 0 }

/-- A table of a catalog file before its timestamp is looked for. -/
structure TableEntry where
  /-- The table without a designated timestamp. -/
  table : Table
  /-- The name of the column that is to be the designated timestamp. -/
  timestamp : Option String
deriving DecidableEq, Repr, Inhabited

/-- An entry of a catalog file. -/
def entryOfToml? (value : Toml) : Option TableEntry := do
  let fields ← value.fields? ["name", "timestamp", "partition_by", "columns"]
  let name ← Toml.required? fields "name" Toml.string?
  let timestamp ← Toml.field? fields "timestamp" (fun t => t.string?.map some) none
  let partitionBy ← Toml.field? fields "partition_by" partitionOfToml? .none
  let columns ← Toml.field? fields "columns" (Toml.listOf? columnOfToml?) []
  return ⟨⟨name, columns, none, partitionBy⟩, timestamp⟩

/-- The entries of a catalog file. -/
def entriesOfToml? (document : Toml) : Option (List TableEntry) := do
  let fields ← document.fields? ["table"]
  Toml.field? fields "table" (Toml.listOf? entryOfToml?) []

/-- The table of an entry, whose timestamp must be one of its columns. -/
def TableEntry.toTable (e : TableEntry) : Except CatalogError Table :=
  match e.timestamp with
  | none => .ok e.table
  | some name =>
    match e.table.columnIndex? name with
    | some _ => .ok (e.table.withTimestamp name)
    | none => .error (.unknownTimestamp e.table.name name)

/-- The catalog with the tables of entries in it, each of which must be new. -/
def insertEntries : List TableEntry → Catalog → Except CatalogError Catalog
  | [], c => .ok c
  | e :: es, c => do insertEntries es (← c.insertNew (← e.toTable))

/-- The catalog that the text of a catalog file describes. -/
def ofToml (text : String) : Except CatalogError Catalog :=
  match (Toml.ofText? text).bind entriesOfToml? with
  | some entries => insertEntries entries empty
  | none => .error .malformed

end Catalog

end SeriesQuery
