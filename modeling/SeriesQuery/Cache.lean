import SeriesQuery.Settings

/-!
A bounded cache.

A key belongs to one row, which its hash decides, and a row holds a limited number
of entries, the newest first. A full row gives up its oldest entry for a new key.
The cache counts the lookups that found something and those that did not, and
keeps a gauge of its size.
-/

namespace SeriesQuery

/-- Why a cache cannot be made or its metrics not be registered. -/
inductive CacheError where
  | invalidGeometry (blocks rows : Nat)
  /-- The name of a metric is not allowed, or it is taken. -/
  | metrics (name : String)
deriving DecidableEq, Repr, Inhabited

/-- The text of a cache error. -/
def CacheError.message : CacheError → String
  | invalidGeometry blocks rows =>
      "Invalid cache geometry: " ++ toString blocks ++ " blocks x " ++ toString rows ++ " rows"
  | metrics name => "Metrics error: " ++ name

/-! ### Metrics -/

/-- What a cache reports. -/
structure CacheMetrics where
  /-- What the names of the metrics start with. -/
  scope : String
  /-- How many entries the cache holds. -/
  size : Nat
  /-- How many lookups have found an entry. -/
  hits : Nat
  /-- How many lookups have found nothing. -/
  misses : Nat
deriving DecidableEq, Repr, Inhabited

namespace CacheMetrics

/-- The name of the gauge of the size. -/
def sizeName (m : CacheMetrics) : String :=
  m.scope ++ "_size"

/-- The name of the counter of hits. -/
def hitsName (m : CacheMetrics) : String :=
  m.scope ++ "_hits_total"

/-- The name of the counter of misses. -/
def missesName (m : CacheMetrics) : String :=
  m.scope ++ "_misses_total"

/-- A character that the name of a metric may start with. -/
def isNameStart (c : Char) : Bool :=
  c.isAlpha || c == '_' || c == ':'

/-- Whether the name of a metric is allowed. -/
def isName (name : String) : Bool :=
  match name.toList with
  | [] => false
  | c :: cs => isNameStart c && cs.all fun c => isNameStart c || c.isDigit

/-- The metrics of a cache without entries that has never been looked into. -/
def ofScope (scope : String) : Except CacheError CacheMetrics :=
  let m : CacheMetrics := ⟨scope, 0, 0, 0⟩
  if isName m.sizeName then .ok m else .error (.metrics m.sizeName)

/-- The metrics after one more lookup. -/
def record (m : CacheMetrics) (hit : Bool) : CacheMetrics :=
  if hit then { m with hits := m.hits + 1 } else { m with misses := m.misses + 1 }

end CacheMetrics

/-- The names of the metrics that are registered. -/
structure MetricsRegistry where
  registered : List String
deriving DecidableEq, Repr, Inhabited

namespace MetricsRegistry

/-- Nothing is registered. -/
def empty : MetricsRegistry :=
  ⟨[]⟩

/-- Registers a name, which must be free. -/
def add (r : MetricsRegistry) (name : String) : Except CacheError MetricsRegistry :=
  if name ∈ r.registered then .error (.metrics name) else .ok ⟨r.registered ++ [name]⟩

/-- Registers the metrics of a cache. -/
def register (r : MetricsRegistry) (m : CacheMetrics) : Except CacheError MetricsRegistry := do
  (← (← r.add m.sizeName).add m.hitsName).add m.missesName

/-- The registered names in the order of their characters. -/
def names (r : MetricsRegistry) : List String :=
  r.registered.mergeSort fun a b => decide (a ≤ b)

end MetricsRegistry

/-! ### The cache -/

/-- A hash of keys: the 64-bit FNV-1a hash of their bytes. -/
def keyHash (key : String) : Nat :=
  (key.toUTF8.toList.foldl
    (fun (h : UInt64) b => (h ^^^ b.toUInt64) * 0x100000001b3) 0xcbf29ce484222325).toNat

/-- A cache of values under keys. -/
structure Cache (α : Type) where
  /-- The hash that decides the row of a key. -/
  hash : String → Nat
  /-- How many entries a row may hold. -/
  blocks : Nat
  /-- The entries of each row, the newest first. -/
  rows : List (List (String × α))
  metrics : CacheMetrics

namespace Cache

variable {α : Type}

/-- An empty cache of `blocks` entries in each of `rows` rows, both rounded up to
powers of two. -/
def ofGeometry (hash : String → Nat) (metrics : CacheMetrics) (blocks rows : Nat) :
    Except CacheError (Cache α) :=
  if blocks = 0 ∨ rows = 0 then
    .error (.invalidGeometry blocks rows)
  else
    .ok {
      hash
      blocks := blocks.nextPowerOfTwo
      rows := List.replicate rows.nextPowerOfTwo []
      metrics := { metrics with size := 0 } }

/-- What the names of the metrics of a statement cache start with. -/
def standardScope : String := "chronoql_cache"

/-- An empty cache of the size that settings give. -/
def ofSettings (settings : CacheSettings) : Except CacheError (Cache α) := do
  let metrics ← CacheMetrics.ofScope standardScope
  ofGeometry keyHash metrics settings.blocks settings.rows

/-- How many entries the cache can hold. -/
def capacity (c : Cache α) : Nat :=
  c.blocks * c.rows.length

/-- How many entries the cache holds. -/
def size (c : Cache α) : Nat :=
  c.rows.flatten.length

/-- Whether the cache holds no entry. -/
def isEmpty (c : Cache α) : Bool :=
  c.rows.all List.isEmpty

/-- The number of the row that a key belongs to. -/
def rowIndex (c : Cache α) (key : String) : Nat :=
  c.hash key % c.rows.length

/-- The row that a key belongs to. -/
def row (c : Cache α) (key : String) : List (String × α) :=
  c.rows.getD (c.rowIndex key) []

/-- The cache with another row for a key, and the gauge set to its size. -/
def setRow (c : Cache α) (key : String) (row : List (String × α)) : Cache α :=
  let c := { c with rows := c.rows.set (c.rowIndex key) row }
  { c with metrics := { c.metrics with size := c.size } }

/-- A row without the entry of a key. -/
def without (key : String) (row : List (String × α)) : List (String × α) :=
  row.eraseP fun e => e.1 == key

/-- Puts a value under a key, and answers the value that gives way to it: the one the
key had, else the oldest of the row if that is full. -/
def put (c : Cache α) (key : String) (value : α) : Option α × Cache α :=
  let row := c.row key
  match row.lookup key with
  | some old => (some old, c.setRow key ((key, value) :: without key row))
  | none =>
    if row.length = c.blocks then
      (row.getLast?.map Prod.snd, c.setRow key ((key, value) :: row.dropLast))
    else
      (none, c.setRow key ((key, value) :: row))

/-- The cache after one more lookup. -/
def record (c : Cache α) (hit : Bool) : Cache α :=
  { c with metrics := c.metrics.record hit }

/-- The value under a key. -/
def peek (c : Cache α) (key : String) : Option α × Cache α :=
  let found := (c.row key).lookup key
  (found, c.record found.isSome)

/-- The value under a key, which is taken out. -/
def poll (c : Cache α) (key : String) : Option α × Cache α :=
  let found := (c.row key).lookup key
  (found, (c.record found.isSome).setRow key (without key (c.row key)))

/-- The cache without its entries. -/
def clear (c : Cache α) : Cache α :=
  { c with
    rows := c.rows.map fun _ => []
    metrics := { c.metrics with size := 0 } }

end Cache

end SeriesQuery
