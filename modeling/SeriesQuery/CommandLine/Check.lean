import SeriesQuery.Cache
import SeriesQuery.Fingerprint
import SeriesQuery.Text.Blank
import SeriesQuery.Text.Lines

/-!
Checking the statements of a text, one a line.

A statement that compiles to the model of an earlier one is told so, as far back as
the cache remembers. Blank lines and lines that start with a comment are passed
over.
-/

namespace SeriesQuery

/-- What is found about a statement. -/
inductive Verdict where
  | new
  /-- The statement has the model of the one on an earlier line. -/
  | sameAs (line : Nat)
  | failed (error : SqlError)
deriving DecidableEq, Repr, Inhabited

namespace Verdict

/-- The text of a verdict. -/
def text : Verdict → String
  | new => "ok"
  | sameAs line => "ok (same model as line " ++ toString line ++ ")"
  | failed _ => "error"

/-- The error of a statement that does not compile. -/
def error? : Verdict → Option SqlError
  | failed e => some e
  | _ => none

end Verdict

namespace Check

/-- Whether a line without blanks at its ends is a statement. -/
def isStatement (line : String) : Bool :=
  match line.toList with
  | [] => false
  | '-' :: '-' :: _ => false
  | _ => true

/-- The statements of a text with the numbers of their lines, from 1. -/
def statements (text : String) : List (Nat × String) :=
  ((Text.lines text).zipIdx 1).filterMap fun (line, number) =>
    let sql := Text.trim line
    if isStatement sql then some (number, sql) else none

/-- The verdict on the statement of a line, with a cache of the lines where models have
been seen. -/
def verdict (env : Environment) (seen : Cache Nat) (line : Nat) (sql : String) :
    Verdict × Cache Nat :=
  match compile env sql with
  | .error e => (.failed e, seen)
  | .ok compiled =>
    match seen.peek compiled.fingerprint with
    | (some first, seen) => (.sameAs first, seen)
    | (none, seen) => (.new, (seen.put compiled.fingerprint line).2)

/-- The verdicts on statements, with the numbers of their lines. -/
def verdicts (env : Environment) : Cache Nat → List (Nat × String) → List (Nat × Verdict)
  | _, [] => []
  | seen, (line, sql) :: rest =>
    let (v, seen) := verdict env seen line sql
    (line, v) :: verdicts env seen rest

/-- The report of a verdict. -/
def report (line : Nat) (v : Verdict) : String :=
  Text.padLeft 4 (toString line) ++ ": " ++ v.text

end Check

end SeriesQuery
