import SeriesQuery.CommandLine.Run

/-!
The program.
-/

namespace SeriesQuery

/-- The number of a system error, which is given as it is or negated. -/
def errorNumber (code : UInt32) : Nat :=
  min code.toNat (-code).toNat

/-- Why the system could not read a file. -/
def ReadError.ofSystem : IO.Error → ReadError
  | .noFileOrDirectory .. => .notFound
  | .inappropriateType _ code _ =>
    if errorNumber code = 21 then .isADirectory else .notADirectory
  | .invalidArgument _ code _ => if errorNumber code = 36 then .nameTooLong else .nulInPath
  | .permissionDenied .. => .permissionDenied
  | .userError _ => .notUtf8
  | e => .other (toString e)

/-- The result of reading, with an error of the system as a value. -/
def readResult (action : IO String) : IO (Except ReadError String) := do
  try
    return .ok (← action)
  catch e =>
    return .error (.ofSystem e)

/-- All that is left of a stream. -/
partial def readAll (stream : IO.FS.Stream) (text : String) : IO String := do
  let line ← stream.getLine
  if line.isEmpty then return text else readAll stream (text ++ line)

/-- The surroundings of the running program. -/
def systemSurroundings : Surroundings IO where
  readFile path := readResult (IO.FS.readFile path)
  readInput := readResult (do readAll (← IO.getStdin) "")
  valueOf? name := IO.getEnv name

end SeriesQuery

open SeriesQuery in
/-- Runs the program and prints what it answers. -/
def main (arguments : List String) : IO UInt32 := do
  let outcome ← CommandLine.runArguments systemSurroundings arguments
  for line in outcome.output do
    IO.println line
  for line in outcome.errors do
    IO.eprintln line
  return outcome.status.toUInt32
