import SeriesQuery.Settings
import SeriesQuery.Toml.Reader

/-!
Settings files: TOML documents in which every member may be missing.

    catalog = "tables.toml"

    [compiler]
    max_order_by_columns = 1560
    index_value_block_size = 256
    synthesize_cross_join_sentinels = false

    [cache]
    blocks = 8
    rows = 64
-/

namespace SeriesQuery

/-- Settings of the compiler. -/
def CompilerSettings.ofToml? (value : Toml) : Option CompilerSettings := do
  let fields ← value.fields?
    ["max_order_by_columns", "index_value_block_size", "synthesize_cross_join_sentinels"]
  return {
    maxOrderByColumns := ←
      Toml.field? fields "max_order_by_columns" (Toml.natBelow? UInt64.size)
        standard.maxOrderByColumns
    indexValueBlockSize := ←
      Toml.field? fields "index_value_block_size" (Toml.natBelow? UInt32.size)
        standard.indexValueBlockSize
    synthesizeCrossJoinSentinels := ←
      Toml.field? fields "synthesize_cross_join_sentinels" Toml.boolean?
        standard.synthesizeCrossJoinSentinels }

/-- The size of the statement cache. -/
def CacheSettings.ofToml? (value : Toml) : Option CacheSettings := do
  let fields ← value.fields? ["blocks", "rows"]
  return {
    blocks := ← Toml.field? fields "blocks" (Toml.natBelow? UInt64.size) standard.blocks
    rows := ← Toml.field? fields "rows" (Toml.natBelow? UInt64.size) standard.rows }

namespace Settings

/-- Settings as a document gives them. -/
def ofDocument? (document : Toml) : Option Settings := do
  let fields ← document.fields? ["catalog", "compiler", "cache"]
  return {
    catalog := ← Toml.field? fields "catalog" (fun t => t.string?.map some) none
    compiler := ← Toml.field? fields "compiler" CompilerSettings.ofToml? .standard
    cache := ← Toml.field? fields "cache" CacheSettings.ofToml? .standard }

/-- The settings that the text of a settings file gives, if they can be used. -/
def ofToml (text : String) : Except SettingsError Settings :=
  match (Toml.ofText? text).bind ofDocument? with
  | none => .error .malformed
  | some settings =>
    match settings.validate with
    | .ok _ => .ok settings
    | .error e => .error e

end Settings

end SeriesQuery
