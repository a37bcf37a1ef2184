import SeriesQuery.CommandLine.Run
import SeriesQuery.Settings.Variables

/-!
Surroundings held in memory: the files of one directory, in which a run takes place,
the variables and the standard input.
-/

namespace SeriesQuery

/-- The files of a directory: the parts of their paths in it, and their texts. -/
structure Directory where
  files : List (List String × String)
deriving DecidableEq, Repr, Inhabited

namespace Directory

/-- A place that a path leads to. -/
inductive Place where
  /-- The place in the directory that the given names lead to. -/
  | inside (names : List String)
  /-- A directory that the directory lies in. -/
  | above
  /-- A place outside of the directory that nothing is at. -/
  | elsewhere
deriving DecidableEq, Repr, Inhabited

namespace Place

/-- The place that a part of a path leads to from a place where a directory is. -/
def step (part : String) : Place → Place
  | inside names =>
    if part = "" ∨ part = "." then inside names
    else if part ≠ ".." then inside (names ++ [part])
    else if names = [] then above
    else inside names.dropLast
  | above => if part = "" ∨ part = "." ∨ part = ".." then above else elsewhere
  | elsewhere => elsewhere

end Place

/-- What is at a place. -/
inductive Content where
  | file (text : String)
  | directory
  | nothing
deriving DecidableEq, Repr, Inhabited

/-- The parts of a path between its slashes. -/
def parts (path : String) : List String :=
  (cut path.toList).map String.ofList
where
  /-- The characters between slashes. -/
  cut : List Char → List (List Char)
    | [] => [[]]
    | c :: cs =>
      match c, cut cs with
      | '/', pieces => [] :: pieces
      | c, piece :: pieces => (c :: piece) :: pieces
      | c, [] => [[c]]

/-- The directory with the given files. -/
def ofFiles (files : List (String × String)) : Directory :=
  ⟨files.map fun (path, text) => (parts path, text)⟩

/-- What is at a place. A place that a file lies below is a directory, and so is the
directory itself. -/
def content (d : Directory) : Place → Content
  | .inside names =>
    match d.files.lookup names with
    | some text => .file text
    | none =>
      if names = [] ∨ d.files.any (fun f => names.isPrefixOf f.1) then .directory else .nothing
  | .above => .directory
  | .elsewhere => .nothing

/-- How many bytes a name may have. -/
def maxNameSize : Nat := 255

/-- How many bytes a path may have. -/
def maxPathSize : Nat := 4095

/-- The text of the file that the parts of a path lead to. -/
def walk (d : Directory) (here : Place) : List String → Except ReadError String
  | [] =>
    match d.content here with
    | .file text => .ok text
    | .directory => .error .isADirectory
    | .nothing => .error .notFound
  | part :: rest =>
    match d.content here with
    | .file _ => .error .notADirectory
    | .nothing => .error .notFound
    | .directory =>
      if part.utf8ByteSize > maxNameSize then .error .nameTooLong
      else d.walk (here.step part) rest

/-- The text of the file at a path. What lies outside of the directory is not known, but
for the directories above it. -/
def read (d : Directory) (path : String) : Except ReadError String :=
  if path.toList.contains '\x00' then .error .nulInPath
  else if path = "" then .error .notFound
  else if path.utf8ByteSize > maxPathSize then .error .nameTooLong
  else d.walk (if path.toList.head? = some '/' then .above else .inside []) (parts path)

/-- The surroundings of a run in the directory. -/
def surroundings (d : Directory) (environment : Variables) (input : String) :
    Surroundings Id where
  readFile path := d.read path
  readInput := Except.ok (ε := ReadError) input
  valueOf? name := environment.value? name

end Directory

end SeriesQuery
