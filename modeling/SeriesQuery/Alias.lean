import SeriesQuery.Text.Ascii

/-!
Names that are taken in one projection, without regard to case.

A name that is taken is made free by a number after it, the least that will do.
Among one more candidates than there are taken names one is free, so the search
is over that many.
-/

namespace SeriesQuery

/-- The names that are taken, in lower case. -/
structure AliasSet where
  taken : List String
deriving DecidableEq, Repr, Inhabited

namespace AliasSet

/-- No name is taken. -/
def empty : AliasSet :=
  ⟨[]⟩

/-- Whether a name is still free. -/
def isFree (s : AliasSet) (name : String) : Bool :=
  !s.taken.contains (Ascii.lower name)

/-- The set with one more name taken. -/
def insert (s : AliasSet) (name : String) : AliasSet :=
  if s.isFree name then ⟨Ascii.lower name :: s.taken⟩ else s

/-- The set with the given names taken. -/
def ofList (aliases : List String) : AliasSet :=
  aliases.foldl insert empty

/-- Takes a name and says whether it was free. -/
def claim (s : AliasSet) (name : String) : Bool × AliasSet :=
  (s.isFree name, s.insert name)

/-- The name `base` with the number `n` after it. -/
def numbered (base : String) (n : Nat) : String :=
  base ++ toString n

/-- The least positive number that makes `base` free. -/
def freeNumber (s : AliasSet) (base : String) : Nat :=
  ((List.range (s.taken.length + 1)).find? fun n => s.isFree (numbered base (n + 1))).getD 0 + 1

/-- A free name made of `base`: `base` itself, or with the least number that will
do. -/
def freeName (s : AliasSet) (base : String) : String :=
  if s.isFree base then base else numbered base (s.freeNumber base)

/-- Takes a free name made of `base`. -/
def claimFresh (s : AliasSet) (base : String) : String × AliasSet :=
  (s.freeName base, s.insert (s.freeName base))

end AliasSet

end SeriesQuery
