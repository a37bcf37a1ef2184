import SeriesQuery.Toml

/-!
A document while it is read.

What a table may still be given depends on how it came about: a header opens a table
once, a longer header brings the tables on its way into being without opening them,
and dotted keys make tables that only dotted keys can add to. Tables and arrays
written as one value take nothing more.
-/

namespace SeriesQuery.Toml

/-- The names that lead to a member: those of the tables on the way and its own. -/
structure KeyPath where
  parents : List String
  key : String
deriving DecidableEq, Repr, Inhabited

/-- How a table came about. -/
inductive Origin where
  /-- It has a header of its own. -/
  | header
  /-- It is on the way of a longer header. -/
  | implied
  /-- It is on the way of a dotted key. -/
  | dotted
deriving DecidableEq, Repr, Inhabited

/-- A part of a document. -/
inductive Node where
  /-- A value written in one place. -/
  | closed (value : Toml)
  | table (origin : Origin) (members : List (String × Node))
  /-- Tables under one name, of which only the latest takes members. -/
  | tables (earlier : List Toml) (latest : List (String × Node))
deriving Repr, Inhabited

/-- The members of a table. -/
abbrev Members := List (String × Node)

namespace Members

/-- The members with the node under `key`, in place of any other there. -/
def put (key : String) (node : Node) : Members → Members
  | [] => [(key, node)]
  | (name, other) :: members =>
    if name = key then (key, node) :: members else (name, other) :: put key node members

/-- Applies `change` to the members of the table that `path` leads to, and tells it how
that table came about. Missing tables on the way come about as `fresh`; tables that
`mayEnter` refuses are not entered. -/
def alterAt (fresh : Origin) (mayEnter : Origin → Bool)
    (change : Origin → Members → Option Members) :
    Origin → List String → Members → Option Members
  | origin, [], members => change origin members
  | _, key :: path, members =>
    match members.lookup key with
    | none => do
      let inner ← alterAt fresh mayEnter change fresh path []
      return put key (.table fresh inner) members
    | some (.table origin inner) =>
      if mayEnter origin then do
        let inner ← alterAt fresh mayEnter change origin path inner
        return put key (.table origin inner) members
      else none
    | some (.tables earlier latest) => do
      let latest ← alterAt fresh mayEnter change .header path latest
      return put key (.tables earlier latest) members
    | some (.closed _) => none

end Members

mutual

/-- The value of a finished node. -/
def Node.close : Node → Toml
  | .closed value => value
  | .table _ members => .table (closeMembers members)
  | .tables earlier latest => .array (earlier ++ [.table (closeMembers latest)])

/-- The values of finished members. -/
def closeMembers : Members → List (String × Toml)
  | [] => []
  | (key, node) :: members => (key, node.close) :: closeMembers members

end

namespace Members

/-- Adds a member under a key that is free. -/
def add (key : String) (value : Toml) (members : Members) : Option Members :=
  match members.lookup key with
  | some _ => none
  | none => some (members ++ [(key, .closed value)])

/-- Defines the member that a dotted key names. Tables with a header are not entered,
and the one that takes the member is made by dotted keys. -/
def define (path : KeyPath) (value : Toml) (members : Members) : Option Members :=
  alterAt .dotted (fun origin => origin ≠ .header)
    (fun origin inner =>
      if path.parents = [] ∨ origin = .dotted then add path.key value inner else none)
    .header path.parents members

/-- Opens the table that a header names. -/
def openTable (path : KeyPath) (members : Members) : Option Members :=
  alterAt .implied (fun _ => true)
    (fun _ inner =>
      match inner.lookup path.key with
      | none => some (put path.key (.table .header []) inner)
      | some (.table .implied kept) => some (put path.key (.table .header kept) inner)
      | _ => none)
    .header path.parents members

/-- Opens one more of the tables that a doubled header names. -/
def appendTable (path : KeyPath) (members : Members) : Option Members :=
  alterAt .implied (fun _ => true)
    (fun _ inner =>
      match inner.lookup path.key with
      | none => some (put path.key (.tables [] []) inner)
      | some (.tables earlier latest) =>
        some (put path.key (.tables (earlier ++ [.table (closeMembers latest)]) []) inner)
      | _ => none)
    .header path.parents members

/-- Defines a member of the table that the latest header has opened. -/
def defineIn (current : List String) (path : KeyPath) (value : Toml) (members : Members) :
    Option Members :=
  alterAt .implied (fun _ => true) (fun _ inner => define path value inner) .header current
    members

end Members

end SeriesQuery.Toml
