import SeriesQuery.Catalog.File
import SeriesQuery.CommandLine.Arguments
import SeriesQuery.CommandLine.Check
import SeriesQuery.Settings.Expansion
import SeriesQuery.Settings.File

/-!
What a command does.

A run asks for the texts of files and the values of variables, and answers what to
print and a status: 0 if all is well, 1 if a statement or a file is not, 2 if the
arguments are not.
-/

namespace SeriesQuery

/-- What a run may ask for. -/
structure Surroundings (m : Type → Type) where
  /-- The text of the file at a path. -/
  readFile : String → m (Except ReadError String)
  /-- The text of the standard input. -/
  readInput : m (Except ReadError String)
  /-- The value of a variable. -/
  valueOf? : String → m (Option String)

/-- The end of a run. -/
structure Outcome where
  status : Nat
  /-- The lines for the standard output. -/
  output : List String
  /-- The lines for the standard error. -/
  errors : List String
deriving DecidableEq, Repr, Inhabited

namespace Outcome

/-- The end of a run that cannot go on. -/
def failure (message : String) : Outcome :=
  ⟨1, [], [message]⟩

/-- How the program is called. -/
def usage : List String :=
  [ "Usage: chronoql [OPTIONS] <COMMAND>",
    "",
    "Commands:",
    "  compile <SQL>   Compile one statement and print its model",
    "  check [FILE]    Compile one statement per line and report each one's status",
    "",
    "Options:",
    "      --catalog <CATALOG>  Catalog file describing the tables",
    "      --config <CONFIG>    Settings file",
    "  -f, --format <FORMAT>    Output format of compile: text or json",
    "  -v, --verbose            Print the fingerprint of a compiled statement",
    "  -h, --help               Print help",
    "  -V, --version            Print version" ]

/-- The end of a run that arguments do not start. -/
def ofRefusal : Refusal → Outcome
  | .helpAsked => ⟨0, usage, []⟩
  | .versionAsked => ⟨0, ["chronoql 0.1.0"], []⟩
  | .misuse message => ⟨2, [], ("error: " ++ message) :: "" :: usage⟩

end Outcome

namespace CommandLine

/-! ### Commands -/

/-- The lines that report an error of a statement. -/
def errorLines (e : SqlError) : List String :=
  ["Error: " ++ e.message, "  at position " ++ toString e.position]

/-- The text of a compiled statement in a format. -/
def formatted (format : OutputFormat) (c : Compiled) : String :=
  match format with
  | .text => c.text
  | .json => c.toJson.pretty

/-- Compiles a statement and prints it. -/
def runCompile (env : Environment) (verbose : Bool) (sql : String) (format : OutputFormat) :
    Outcome :=
  match compile env sql with
  | .error e => ⟨1, [], errorLines e⟩
  | .ok c =>
    let note := if verbose then ["-- fingerprint: " ++ c.fingerprint] else []
    ⟨0, formatted format c :: note, []⟩

/-- Checks the statements of a text. -/
def runCheck (env : Environment) (settings : CacheSettings) (text : String) : Outcome :=
  match Cache.ofSettings settings with
  | .error e => .failure ("Error creating cache: " ++ e.message)
  | .ok cache =>
    let verdicts := Check.verdicts env cache (Check.statements text)
    let errors := verdicts.filterMap fun (_, v) => v.error?
    let output := verdicts.map fun (line, v) => Check.report line v
    if errors.isEmpty then ⟨0, output, []⟩
    else ⟨1, output,
      errors.flatMap errorLines ++ [toString errors.length ++ " statement(s) failed"]⟩

section Run

variable {m : Type → Type} [Monad m] (s : Surroundings m)

/-! ### Settings -/

/-- The settings of a file whose text has been asked for. -/
def settingsOf (path : String) (text : Except ReadError String) : Except SettingsError Settings :=
  match text with
  | .ok text => Settings.ofToml text
  | .error e => .error (if e.isMissing then .notFound path else .unreadable e)

/-- The settings of the first of several files that is there; the standard ones if none
is. -/
def settingsOfFirst : List String → m (Except SettingsError Settings)
  | [] => return .ok .standard
  | path :: paths => do
    let text ← s.readFile path
    match settingsOf path text with
    | .error (.notFound _) => settingsOfFirst paths
    | result => return result

/-- The settings file in the user's configuration directory. -/
def userFile? : m (Option String) := do
  let directory ← s.valueOf? "XDG_CONFIG_HOME"
  match directory.filter fun d => d.toList.head? == some '/' with
  | some directory => return some (directory ++ "/chronoql/config.toml")
  | none =>
    let home ← s.valueOf? "HOME"
    return (home.filter fun d => d != "").map fun d => d ++ "/.config/chronoql/config.toml"

/-- The settings: of the file that is given, else of the one that a variable names, else
of the first that is there of one in the current directory and one of the user. -/
def settingsFor (config : Option String) : m (Except SettingsError Settings) := do
  match config with
  | some path => return settingsOf path (← s.readFile path)
  | none =>
    match ← s.valueOf? "CHRONOQL_CONFIG" with
    | some path => return settingsOf path (← s.readFile path)
    | none => settingsOfFirst s ("chronoql.toml" :: (← userFile? s).toList)

/-! ### The catalog -/

/-- The catalog of a file whose text has been asked for. -/
def catalogOf (path : String) (text : Except ReadError String) : Except String Catalog :=
  let catalog := match text with
    | .ok text => Catalog.ofToml text
    | .error e => .error (.unreadable e)
  catalog.mapError fun e => "'" ++ path ++ "': " ++ e.message

/-- The path of the catalog in the settings, with its variables replaced. -/
def configuredCatalog (settings : Settings) : m (Except SettingsError (Option String)) := do
  let names := variableNames (settings.catalog.getD "")
  let values ← names.mapM s.valueOf?
  return settings.catalogPath fun name => (names.zip values).lookup name |>.join

/-- The catalog: of the file that is given, else of the one in the settings, else
empty. -/
def catalogFor (given : Option String) (settings : Settings) : m (Except String Catalog) := do
  match ← configuredCatalog s settings with
  | .error e => return .error e.message
  | .ok configured =>
    match given <|> configured with
    | some path => return catalogOf path (← s.readFile path)
    | none => return .ok .empty

/-! ### The whole run -/

/-- The text of the statements to check. -/
def readStatements : Option String → m (Except ReadError String)
  | some path => s.readFile path
  | none => s.readInput

/-- Does what an invocation says. -/
def run (invocation : Invocation) : m Outcome := do
  match ← settingsFor s invocation.config with
  | .error e => return .failure ("Error loading settings: " ++ e.message)
  | .ok settings =>
    match ← catalogFor s invocation.catalog settings with
    | .error message => return .failure ("Error loading catalog: " ++ message)
    | .ok catalog =>
      let env := Environment.of catalog settings.compiler
      match invocation.command with
      | .compile sql format => return runCompile env invocation.verbose sql format
      | .check file =>
        match ← readStatements s file with
        | .error e => return .failure ("Error reading statements: " ++ e.message)
        | .ok text => return runCheck env settings.cache text

/-- Runs the program with the given arguments. -/
def runArguments (arguments : List String) : m Outcome :=
  match Invocation.ofArguments arguments with
  | .error refusal => return .ofRefusal refusal
  | .ok invocation => run s invocation

end Run

end CommandLine

end SeriesQuery
