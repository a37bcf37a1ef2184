/-!
Why a file cannot be read.
-/

namespace SeriesQuery

/-- Why a file cannot be read. -/
inductive ReadError where
  | notFound
  /-- What should be a directory on the way to the file is none. -/
  | notADirectory
  | isADirectory
  | permissionDenied
  /-- The path, or a name in it, is longer than the system allows. -/
  | nameTooLong
  /-- The path has a character in it that no path may have. -/
  | nulInPath
  | notUtf8
  | other (message : String)
deriving DecidableEq, Repr, Inhabited

namespace ReadError

/-- The text of an error. -/
def message : ReadError → String
  | notFound => "No such file or directory (os error 2)"
  | notADirectory => "Not a directory (os error 20)"
  | isADirectory => "Is a directory (os error 21)"
  | permissionDenied => "Permission denied (os error 13)"
  | nameTooLong => "File name too long (os error 36)"
  | nulInPath => "file name contained an unexpected NUL byte"
  | notUtf8 => "stream did not contain valid UTF-8"
  | other message => message

/-- Whether nothing is at the place of the file, or can be there. -/
def isMissing : ReadError → Bool
  | notFound | notADirectory | nameTooLong | nulInPath => true
  | _ => false

end ReadError

end SeriesQuery
