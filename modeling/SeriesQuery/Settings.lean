import SeriesQuery.ReadError

/-!
Settings of the compiler and of the statement cache.
-/

namespace SeriesQuery

/-- Why settings cannot be had. -/
inductive SettingsError where
  | notFound (path : String)
  | unreadable (error : ReadError)
  | malformed
  | missingVariable (name : String)
  | invalid (reason : String)
deriving DecidableEq, Repr, Inhabited

/-- The text of a settings error. -/
def SettingsError.message : SettingsError → String
  | notFound path => "Config file not found: " ++ path
  | unreadable error => "Failed to read config file: " ++ error.message
  | malformed => "Failed to parse config file: TOML parse error"
  | missingVariable name => "Missing environment variable: " ++ name
  | invalid reason => "Invalid configuration: " ++ reason

/-- Settings of the compiler. -/
structure CompilerSettings where
  /-- How many columns an `order by` may list. -/
  maxOrderByColumns : Nat
  /-- The block size of an index declared without one. -/
  indexValueBlockSize : Nat
  /-- Whether a join without criteria adds a condition `n = n` to the constant filter. -/
  synthesizeCrossJoinSentinels : Bool
deriving DecidableEq, Repr, Inhabited

/-- The settings of a compiler that is given none. -/
def CompilerSettings.standard : CompilerSettings :=
  ⟨1560, 256, false⟩

/-- The size of the statement cache: how many rows, and how many blocks in a row. -/
structure CacheSettings where
  blocks : Nat
  rows : Nat
deriving DecidableEq, Repr, Inhabited

/-- The settings of a cache that is given none. -/
def CacheSettings.standard : CacheSettings :=
  ⟨8, 64⟩

/-- All settings. -/
structure Settings where
  /-- The file that holds the tables; variables in it are still to be replaced. -/
  catalog : Option String
  compiler : CompilerSettings
  cache : CacheSettings
deriving DecidableEq, Repr, Inhabited

namespace Settings

/-- The settings where none are given. -/
def standard : Settings :=
  ⟨none, .standard, .standard⟩

/-- Whether a number is a power of two. -/
def isPowerOfTwo (n : Nat) : Bool :=
  n.nextPowerOfTwo == n

/-- The error of a size that is no power of two. -/
def notAPowerOfTwo (name : String) (value : Nat) : SettingsError :=
  .invalid (name ++ " must be a power of two, got " ++ toString value)

/-- Checks settings and names the first one that cannot be used. -/
def validate (s : Settings) : Except SettingsError Unit :=
  if s.compiler.maxOrderByColumns = 0 then
    .error (.invalid "compiler.max_order_by_columns must be positive")
  else if s.compiler.indexValueBlockSize = 0 then
    .error (.invalid "compiler.index_value_block_size must be positive")
  else if !isPowerOfTwo s.cache.blocks then
    .error (notAPowerOfTwo "cache.blocks" s.cache.blocks)
  else if !isPowerOfTwo s.cache.rows then
    .error (notAPowerOfTwo "cache.rows" s.cache.rows)
  else .ok ()

end Settings

end SeriesQuery
