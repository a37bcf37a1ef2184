import SeriesQuery.Error
import SeriesQuery.Model.Columns

/-!
Name resolution within one query level.

A scope lists the sources of a level in the order they are declared, the master
first. A reference is looked up in the columns of all of them, or of the one it
is qualified by; it never reaches another level.
-/

namespace SeriesQuery

/-- Where a reference leads: a source of the scope and the type of its column. -/
structure Resolution where
  source : Nat
  type : Option ColumnType
deriving DecidableEq, Repr, Inhabited

/-- The column of a source with the given name, in any case. -/
def ScopeEntry.column? (e : ScopeEntry) (name : String) : Option ShownColumn :=
  ShownColumn.find? e.columns name

/-- The sources of one query level. -/
structure Scope where
  entries : List ScopeEntry
deriving DecidableEq, Repr, Inhabited

namespace Scope

/-- The scope without sources. -/
def empty : Scope :=
  ⟨[]⟩

/-- Whether a qualifier, in any case, names a source. -/
def hasName (s : Scope) (qualifier : String) : Bool :=
  s.entries.any fun e => e.isNamed qualifier

/-- The scope with one more source. Its alias must not name an earlier source; a
table without an alias may repeat a name. -/
def declare (s : Scope) (name : Option String) (given : Option Ident)
    (columns : List ShownColumn) : Except SqlError Scope :=
  match given with
  | some a =>
    if s.hasName a.name then .error ⟨a.position, .duplicateAlias a.name⟩
    else .ok ⟨s.entries ++ [⟨name, columns⟩]⟩
  | none => .ok ⟨s.entries ++ [⟨name, columns⟩]⟩

/-- The sources that a qualifier names, with their places. -/
def named (s : Scope) (qualifier : String) : List (ScopeEntry × Nat) :=
  s.entries.zipIdx.filter fun e => e.1.isNamed qualifier

/-- The sources that have a column of the given name, with their places: where the
column leads for each of them. -/
def holders (s : Scope) (name : String) : List Resolution :=
  s.entries.zipIdx.filterMap fun e => (e.1.column? name).map fun c => ⟨e.2, c.type⟩

/-- Where a reference written at `position` leads. A qualifier must name one source,
and that source must have the column; without a qualifier, one source alone may
have it. -/
def resolve (s : Scope) (ref : ColumnRef) (position : Nat) : Except SqlError Resolution :=
  match ref.qualifier with
  | some qualifier =>
    match s.named qualifier with
    | [] => .error ⟨position, .invalidTableName qualifier⟩
    | [(entry, source)] =>
      match entry.column? ref.name with
      | some c => .ok ⟨source, c.type⟩
      | none => .error ⟨position, .invalidColumn ref.text⟩
    | _ => .error ⟨position, .ambiguousColumn ref.text⟩
  | none =>
    match s.holders ref.name with
    | [] => .error ⟨position, .invalidColumn ref.name⟩
    | [resolved] => .ok resolved
    | _ => .error ⟨position, .ambiguousColumn ref.name⟩

/-- The sources that references lead to, in ascending order and each once; the first
reference that leads nowhere is the error. -/
def sourcesOf (s : Scope) : List (ColumnRef × Nat) → Except SqlError (List Nat)
  | [] => .ok []
  | (ref, position) :: refs =>
    match s.resolve ref position with
    | .error e => .error e
    | .ok resolved =>
      match s.sourcesOf refs with
      | .error e => .error e
      | .ok sources => .ok (insertSource resolved.source sources)
where
  /-- A source put into an ascending list. -/
  insertSource (source : Nat) : List Nat → List Nat
    | [] => [source]
    | s :: rest =>
      if source < s then source :: s :: rest
      else if source = s then s :: rest
      else s :: insertSource source rest

/-- The sources whose columns an expression refers to, in ascending order. -/
def sourcesIn (s : Scope) (e : Expr) : Except SqlError (List Nat) :=
  s.sourcesOf e.columns

end Scope

end SeriesQuery
