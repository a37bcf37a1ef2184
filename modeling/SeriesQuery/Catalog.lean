import SeriesQuery.ReadError
import SeriesQuery.Table

/-!
The tables that statements may refer to.

Names are looked up without regard to case, and no two tables of a catalog have
the same name in that sense.
-/

namespace SeriesQuery

/-- Why a catalog cannot be had, or a table not put into it. -/
inductive CatalogError where
  | unreadable (error : ReadError)
  | malformed
  | duplicateTable (name : String)
  | unknownTimestamp (table column : String)
deriving DecidableEq, Repr, Inhabited

/-- The text of a catalog error. -/
def CatalogError.message : CatalogError → String
  | unreadable error => "Failed to read catalog file: " ++ error.message
  | malformed => "Failed to parse catalog file: TOML parse error"
  | duplicateTable name => "Duplicate table: " ++ name
  | unknownTimestamp table column =>
      "Table '" ++ table ++ "' has no column '" ++ column ++ "' to use as timestamp"

/-- Tables, each under its name in lower case. -/
structure Catalog where
  entries : List (String × Table)
deriving DecidableEq, Repr, Inhabited

namespace Catalog

/-- The catalog without tables. -/
def empty : Catalog :=
  ⟨[]⟩

/-- The table with the given name, in any case. -/
def table? (c : Catalog) (name : String) : Option Table :=
  c.entries.lookup (Ascii.lower name)

/-- The catalog with the table in it, in place of any other of its name. -/
def insert (c : Catalog) (t : Table) : Catalog :=
  ⟨c.entries.filter (fun e => e.1 != Ascii.lower t.name) ++ [(Ascii.lower t.name, t)]⟩

/-- The catalog with the table in it; its name must be free. -/
def insertNew (c : Catalog) (t : Table) : Except CatalogError Catalog :=
  match c.table? t.name with
  | some _ => .error (.duplicateTable t.name)
  | none => .ok (c.insert t)

/-- How many tables there are. -/
def size (c : Catalog) : Nat :=
  c.entries.length

/-- The names of the tables in the order of their characters. -/
def names (c : Catalog) : List String :=
  (c.entries.map fun e => e.2.name).mergeSort (fun a b => decide (a ≤ b))

end Catalog

end SeriesQuery
