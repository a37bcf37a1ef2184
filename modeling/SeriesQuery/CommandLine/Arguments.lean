/-!
The arguments of the command line.

    [OPTIONS] compile <SQL> [--format text|json]
    [OPTIONS] check [FILE]

The options `--catalog`, `--config` and `--verbose` may stand before the command and
after it; what stands after it wins. At each of the two places an option may be
given once.
-/

namespace SeriesQuery

/-- How a compiled statement is printed. -/
inductive OutputFormat where
  | text
  | json
deriving DecidableEq, Repr, Inhabited

/-- What the program is to do. -/
inductive Command where
  /-- Compile one statement and print it. -/
  | compile (sql : String) (format : OutputFormat)
  /-- Compile the statements of a file, or of the standard input, one a line. -/
  | check (file : Option String)
deriving DecidableEq, Repr, Inhabited

/-- A command with its options. -/
structure Invocation where
  /-- The catalog file. -/
  catalog : Option String
  /-- The settings file. -/
  config : Option String
  verbose : Bool
  command : Command
deriving DecidableEq, Repr, Inhabited

/-- Why arguments do not make an invocation. -/
inductive Refusal where
  | helpAsked
  | versionAsked
  /-- The arguments are wrong. -/
  | misuse (message : String)
deriving DecidableEq, Repr, Inhabited

namespace CommandLine

/-! ### Options -/

/-- An option. -/
inductive Flag where
  | catalog
  | config
  | format
  | verbose
  | help
  | version
deriving DecidableEq, Repr, Inhabited

namespace Flag

/-- The name after two dashes. -/
def longName : Flag → String
  | catalog => "catalog"
  | config => "config"
  | format => "format"
  | verbose => "verbose"
  | help => "help"
  | version => "version"

/-- The letter after one dash. -/
def letter? : Flag → Option Char
  | catalog | config => none
  | format => some 'f'
  | verbose => some 'v'
  | help => some 'h'
  | version => some 'V'

/-- Whether a value follows the option. -/
def takesValue : Flag → Bool
  | catalog | config | format => true
  | verbose | help | version => false

end Flag

/-- The places where arguments stand. -/
inductive Level where
  | beforeCommand
  | compile
  | check
deriving DecidableEq, Repr, Inhabited

namespace Level

/-- The options that may be given. -/
def flags : Level → List Flag
  | beforeCommand => [.catalog, .config, .verbose, .help, .version]
  | compile => [.catalog, .config, .verbose, .help, .format]
  | check => [.catalog, .config, .verbose, .help]

end Level

/-- What the arguments of one place have given so far. -/
structure Given where
  catalog : Option String
  config : Option String
  format : Option OutputFormat
  verbose : Bool
  /-- The argument that is not part of an option. -/
  operand : Option String
deriving DecidableEq, Repr, Inhabited

namespace Given

/-- Nothing is given. -/
def nothing : Given :=
  ⟨none, none, none, false, none⟩

/-- A path, of which there must be no other. -/
def path (flag : Flag) (earlier : Option String) (value : String) :
    Except Refusal (Option String) :=
  if earlier.isSome then .error (.misuse ("--" ++ flag.longName ++ " is given twice"))
  else if value = "" then .error (.misuse ("--" ++ flag.longName ++ " needs a path"))
  else .ok (some value)

/-- The format of a name, of which there must be no other. -/
def formatOf (earlier : Option OutputFormat) (value : String) :
    Except Refusal (Option OutputFormat) :=
  if earlier.isSome then .error (.misuse "--format is given twice")
  else if value = "text" then .ok (some .text)
  else if value = "json" then .ok (some .json)
  else .error (.misuse ("unknown format: " ++ value))

/-- What is given with one more option and its value. -/
def set (g : Given) (flag : Flag) (value : String) : Except Refusal Given :=
  match flag with
  | .catalog => do return { g with catalog := ← path flag g.catalog value }
  | .config => do return { g with config := ← path flag g.config value }
  | .format => do return { g with format := ← formatOf g.format value }
  | .verbose =>
    if g.verbose then .error (.misuse "--verbose is given twice")
    else .ok { g with verbose := true }
  | .help => .error .helpAsked
  | .version => .error .versionAsked

/-- What is given with an argument that is not part of an option, of which there must be
no other. The one of `check` is a path. -/
def addOperand (level : Level) (argument : String) (g : Given) : Except Refusal Given :=
  if g.operand.isSome then .error (.misuse "too many arguments")
  else if level = .check ∧ argument = "" then .error (.misuse "a file needs a path")
  else .ok { g with operand := some argument }

end Given

/-! ### Reading arguments -/

/-- Whether an argument is an option, by the dash it starts with. A dash alone is
none. -/
def isOption (argument : String) : Bool :=
  argument.toList.head? == some '-' && argument != "-"

/-- What is given with an option written by its long name, and the option if its value
is still to come. -/
def readLong (level : Level) (text : List Char) (g : Given) :
    Except Refusal (Given × Option Flag) :=
  let name := String.ofList (text.takeWhile fun c => c != '=')
  match level.flags.find? fun flag => flag.longName == name, text.dropWhile fun c => c != '=' with
  | none, _ => .error (.misuse ("unknown option: --" ++ name))
  | some flag, [] =>
    if flag.takesValue then .ok (g, some flag) else do return (← g.set flag "", none)
  | some flag, _ :: value =>
    if flag.takesValue then do return (← g.set flag (String.ofList value), none)
    else .error (.misuse ("--" ++ name ++ " takes no value"))

/-- The value that stands right after the letter of an option. -/
def attachedValue : List Char → String
  | '=' :: value => String.ofList value
  | value => String.ofList value

/-- What is given with options written by their letters, and the last one if its value
is still to come. -/
def readLetters (level : Level) : List Char → Given → Except Refusal (Given × Option Flag)
  | [], g => .ok (g, none)
  | c :: cs, g =>
    match level.flags.find? fun flag => flag.letter? == some c with
    | none => .error (.misuse ("unknown option: -" ++ String.ofList [c]))
    | some flag =>
      if flag.takesValue then
        if cs = [] then .ok (g, some flag)
        else do return (← g.set flag (attachedValue cs), none)
      else do readLetters level cs (← g.set flag "")

/-- What an option gives, and the option if its value is still to come. -/
def readOption (level : Level) (argument : String) (g : Given) :
    Except Refusal (Given × Option Flag) :=
  match argument.toList with
  | '-' :: '-' :: text => readLong level text g
  | _ :: letters => readLetters level letters g
  | [] => .ok (g, none)

/-- What arguments give, where `pending` is an option that waits for its value. Before
the command the first argument that is no option ends them; it and what follows is
answered too. -/
def read (level : Level) : Option Flag → List String → Given → Except Refusal (Given × List String)
  | none, [], g => .ok (g, [])
  | some flag, [], _ => .error (.misuse ("--" ++ flag.longName ++ " needs a value"))
  | some flag, argument :: arguments, g =>
    if isOption argument then .error (.misuse ("--" ++ flag.longName ++ " needs a value"))
    else do read level none arguments (← g.set flag argument)
  | none, argument :: arguments, g =>
    if argument = "--" then
      if level = .beforeCommand then .error (.misuse "a command is needed")
      else do return (← arguments.foldlM (fun g argument => g.addOperand level argument) g, [])
    else if isOption argument then do
      let (g, pending) ← readOption level argument g
      read level pending arguments g
    else if level = .beforeCommand then .ok (g, argument :: arguments)
    else do read level none arguments (← g.addOperand level argument)

/-! ### Commands -/

/-- The command that what is given at its place makes. -/
def command (level : Level) (g : Given) : Except Refusal Command :=
  match level, g.operand with
  | .compile, some sql => .ok (.compile sql (g.format.getD .text))
  | .compile, none => .error (.misuse "a statement is needed")
  | .check, file => .ok (.check file)
  | .beforeCommand, _ => .error (.misuse "a command is needed")

/-- The place after the command of a name. -/
def level? : String → Option Level
  | "compile" => some .compile
  | "check" => some .check
  | _ => none

/-- The refusal of a request for help on the commands of given names. -/
def helpRefusal : List String → Refusal
  | [] => .helpAsked
  | [name] =>
    if (level? name).isSome || name == "help" then .helpAsked
    else .misuse ("unknown command: " ++ name)
  | _ => .misuse "too many arguments"

end CommandLine

/-- The invocation that arguments make. -/
def Invocation.ofArguments (arguments : List String) : Except Refusal Invocation := do
  let (before, rest) ← CommandLine.read .beforeCommand none arguments .nothing
  match rest with
  | [] => throw (.misuse "a command is needed")
  | name :: arguments =>
    if name = "help" then throw (CommandLine.helpRefusal arguments)
    match CommandLine.level? name with
    | none => throw (.misuse ("unknown command: " ++ name))
    | some level =>
      let (after, _) ← CommandLine.read level none arguments .nothing
      return {
        catalog := after.catalog <|> before.catalog
        config := after.config <|> before.config
        verbose := before.verbose || after.verbose
        command := ← CommandLine.command level after }

end SeriesQuery
