import SeriesQuery.Proofs.TableDefinition.RoundTrip

/-!
The columns and indexes of a defined table.

A column may be given an index where it is declared and, any number of times, after the columns;
the index that is written last decides its block size (`addIndexes_eq_map`, `foldl_withIndex`). The
settings fill in block sizes where none is written, and those that pass their check fill in none
that is zero (`Settings.blockSize_pos`). So an index has a block size unless the last one that is
written for its column is declared with `block size 0`, which nothing rejects
(`ofDeclaration_consistent`).
-/

namespace SeriesQuery

/-- Settings that can be used have a block size to fill in. -/
theorem Settings.blockSize_pos {settings : Settings} (h : settings.validate = .ok ()) :
    0 < settings.compiler.indexValueBlockSize := by
  unfold Settings.validate at h
  split at h
  · cases h
  · split at h
    · cases h
    · omega

/-- The indexes declared for a column, in the order they are written: its own, and those after the
columns that name it. -/
def TableDeclaration.indexesOf (d : TableDeclaration) (c : ColumnDeclaration) : List IndexSpec :=
  c.index.toList ++
    (d.indexes.filter fun i => Ascii.same c.name.name i.column.name).map IndexDeclaration.spec

/-- What a declaration says of one of its columns, and what the defined column says. -/
structure TableDeclaration.Defines (d : TableDeclaration) (c : ColumnDeclaration)
    (column : ColumnDefinition) : Prop where
  name : column.name = c.name.name
  type : column.type = c.type
  indexed : column.indexed = true ↔
    c.index.isSome ∨ ∃ i ∈ d.indexes, Ascii.same c.name.name i.column.name = true
  /-- Only an index has a block size. -/
  indexed_of_blockSize : 0 < column.indexBlockSize → column.indexed = true
  /-- Every index has one, unless zero is the last that is written for the column. -/
  blockSize_iff : (0 < column.indexBlockSize ↔ column.indexed = true) ↔
    (d.indexesOf c).getLast? ≠ some ⟨some 0⟩

namespace TableDefinition

variable {blockSize : Nat} {columns defined : List ColumnDefinition}

/-! ### Indexes declared one after the other -/

/-- The column with an index, with `blockSize` where none is written. -/
def withIndex (blockSize : Nat) (c : ColumnDefinition) (spec : IndexSpec) : ColumnDefinition :=
  { c with indexed := true, indexBlockSize := spec.blockSize.getD blockSize }

/-- The last index decides. -/
theorem foldl_withIndex (specs : List IndexSpec) (c : ColumnDefinition) :
    specs.foldl (withIndex blockSize) c =
      { c with
        indexed := c.indexed || !specs.isEmpty
        indexBlockSize := (specs.getLast?.map (·.blockSize.getD blockSize)).getD c.indexBlockSize } := by
  induction specs generalizing c with
  | nil => simp
  | cons spec specs ih =>
    rw [List.foldl_cons, ih, List.getLast?_cons]
    cases specs.getLast? <;> simp [withIndex]

theorem defineColumn_eq_foldl (d : ColumnDeclaration) :
    defineColumn blockSize d =
      d.index.toList.foldl (withIndex blockSize) ⟨d.name.name, d.type, false, 0⟩ := by
  unfold defineColumn
  cases d.index <;> rfl

/-- Where names differ, an index goes to the column of its name and to no other. -/
theorem addIndex_eq_map {spec : IndexSpec} {name : String} (hnames : NamesDiffer columns) :
    addIndex (spec.blockSize.getD blockSize) name columns =
      columns.map fun c => if hasName name c then withIndex blockSize c spec else c := by
  induction columns with
  | nil => rfl
  | cons c columns ih =>
    obtain ⟨hc, hcolumns⟩ := List.pairwise_cons.mp hnames
    by_cases hname : hasName name c = true
    · have hothers : ∀ c' ∈ columns, hasName name c' = false := by
        intro c' hc'
        by_contra hsame
        have hback : Ascii.same name c'.name = true :=
          (Ascii.same_comm _ _).trans (Bool.of_not_eq_false hsame)
        have hdiffer : Ascii.same c.name c'.name = false := hc _ (List.mem_map_of_mem hc')
        exact absurd (Ascii.same_trans hname hback) (by simp [hdiffer])
      have hmap : columns.map (fun c => if hasName name c then withIndex blockSize c spec else c) =
          columns := by
        refine (List.map_congr_left fun c' hc' => ?_).trans (List.map_id' columns)
        simp [hothers c' hc']
      simp only [addIndex, hname, if_true, List.map_cons, hmap]
      rfl
    · simp only [addIndex, hname, Bool.false_eq_true, if_false, List.map_cons, ih hcolumns]

@[simp] theorem hasName_withIndex (name : String) (c : ColumnDefinition) (spec : IndexSpec) :
    hasName name (withIndex blockSize c spec) = hasName name c := rfl

/-- The indexes declared after the columns that name one of them. -/
def naming (ds : List IndexDeclaration) (c : ColumnDefinition) : List IndexSpec :=
  (ds.filter fun d => hasName d.column.name c).map IndexDeclaration.spec

/-- **Every column is given the indexes that name it**, one after the other. -/
theorem addIndexes_eq_map {ds : List IndexDeclaration} {indexed : List ColumnDefinition}
    (hnames : NamesDiffer columns) (h : addIndexes blockSize ds columns = .ok indexed) :
    indexed = columns.map fun c => (naming ds c).foldl (withIndex blockSize) c := by
  induction ds generalizing columns with
  | nil =>
    cases h
    simp [naming]
  | cons d ds ih =>
    simp only [addIndexes] at h
    split at h
    · rw [addIndex_eq_map hnames] at h
      have hsame : NamesDiffer (columns.map fun c =>
          if hasName d.column.name c then withIndex blockSize c d.spec else c) := by
        rw [NamesDiffer, ← addIndex_eq_map hnames, names_addIndex]
        exact hnames
      rw [ih hsame h, List.map_map]
      refine List.map_congr_left fun c _ => ?_
      by_cases hname : hasName d.column.name c = true <;> simp [naming, hname]
    · cases h

/-! ### Columns as they are declared -/

/-- The columns of a declaration that is accepted: each as it is declared, with all of its
indexes. -/
theorem ofDeclaration_columns {settings : CompilerSettings} {d : TableDeclaration}
    {t : TableDefinition} (h : ofDeclaration settings d = .ok t) :
    NamesDiffer t.columns ∧ findTimestamp t.columns d.timestamp = .ok t.timestampIndex ∧
      t.columns = d.columns.map fun c =>
        (d.indexesOf c).foldl (withIndex settings.indexValueBlockSize)
          ⟨c.name.name, c.type, false, 0⟩ := by
  obtain ⟨defined, hdefined, h⟩ := Except.bind_eq_ok.mp h
  obtain ⟨columns, hcolumns, h⟩ := Except.bind_eq_ok.mp h
  obtain ⟨index, hindex, h⟩ := Except.bind_eq_ok.mp h
  cases h
  obtain ⟨rfl, hnames⟩ := (defineColumns_ok namesDiffer_nil).mp hdefined
  have hmap := addIndexes_eq_map hnames hcolumns
  refine ⟨?_, hindex, ?_⟩
  · have hsame : columns.map ColumnDefinition.name =
        ([] ++ d.columns.map (defineColumn settings.indexValueBlockSize)).map
          ColumnDefinition.name := by
      rw [hmap, List.map_map]
      exact List.map_congr_left fun c _ => by simp [foldl_withIndex]
    rwa [NamesDiffer, hsame]
  · rw [hmap, List.nil_append, List.map_map]
    refine List.map_congr_left fun c _ => ?_
    have hnaming : naming d.indexes (defineColumn settings.indexValueBlockSize c) =
        (d.indexes.filter fun i => Ascii.same c.name.name i.column.name).map
          IndexDeclaration.spec := by
      simp [naming, hasName]
    rw [Function.comp_apply, hnaming, defineColumn_eq_foldl, TableDeclaration.indexesOf,
      List.foldl_append]

/-- A column with all of its indexes is what the declaration says of it. -/
theorem defines_foldl (d : TableDeclaration) (c : ColumnDeclaration) (hsize : 0 < blockSize) :
    d.Defines c ((d.indexesOf c).foldl (withIndex blockSize) ⟨c.name.name, c.type, false, 0⟩) := by
  rw [foldl_withIndex]
  refine ⟨rfl, rfl, ?_, ?_, ?_⟩
  · cases hindex : c.index <;>
      simp [TableDeclaration.indexesOf, hindex, List.filter_eq_nil_iff]
  · cases hspecs : d.indexesOf c <;> simp
  · rcases List.eq_nil_or_concat (d.indexesOf c) with hnil | ⟨specs, ⟨size⟩, hlast⟩
    · simp [hnil]
    · cases size with
      | none => simp [hlast, hsize]
      | some n => simp [hlast, Nat.pos_iff_ne_zero]

/-- **A defined table is consistent.** Column names differ, the designated timestamp is the column
that is declared for it and of type `TIMESTAMP`, and the columns are those declared, in order, with
their types and indexes. An index has a block size unless `block size 0` is the last that is
written for its column. -/
theorem ofDeclaration_consistent {settings : Settings} {d : TableDeclaration} {t : TableDefinition}
    (hsettings : settings.validate = .ok ()) (h : ofDeclaration settings.compiler d = .ok t) :
    NamesDiffer t.columns ∧
      (t.timestampIndex.isSome = d.timestamp.isSome ∧
        ∀ i ∈ t.timestampIndex, ∃ c, t.columns[i]? = some c ∧ c.type = .timestamp ∧
          ∃ name ∈ d.timestamp, Ascii.same c.name name.name = true) ∧
      List.Forall₂ d.Defines d.columns t.columns := by
  obtain ⟨hnames, htimestamp, hcolumns⟩ := ofDeclaration_columns h
  refine ⟨hnames, ?_, ?_⟩
  · rcases of_findTimestamp htimestamp with ⟨hnone, hindex⟩ | ⟨name, i, c, hsome, hindex, hc, htype, hname⟩
    · simp [hnone, hindex]
    · rw [hsome, hindex]
      refine ⟨rfl, ?_⟩
      rintro _ ⟨⟩
      exact ⟨c, hc, htype, name, rfl, hname⟩
  · rw [hcolumns, List.forall₂_map_right_iff, List.forall₂_same]
    exact fun c _ => defines_foldl d c (Settings.blockSize_pos hsettings)

/-- A table with an index of its own block size, one that is declared twice and ends with the block
size zero, and one that is declared after the columns. -/
def ticksDeclaration : TableDeclaration where
  name := ⟨"ticks", 13⟩
  columns := [⟨⟨"id", 20⟩, .int, some ⟨some 16⟩⟩, ⟨⟨"sym", 47⟩, .symbol, some ⟨none⟩⟩,
    ⟨⟨"ts", 65⟩, .timestamp, none⟩]
  indexes := [⟨⟨"SYM", 87⟩, ⟨some 0⟩⟩, ⟨⟨"Ts", 112⟩, ⟨none⟩⟩]
  timestamp := some ⟨"TS", 126⟩
  partitionBy := none
  recordHint := none

/-- Two of the three indexes have a block size. -/
theorem ofDeclaration_consistent_ticks :
    ∃ t, Settings.standard.validate = .ok () ∧
      ofDeclaration Settings.standard.compiler ticksDeclaration = .ok t ∧
      t.columns = [⟨"id", .int, true, 16⟩, ⟨"sym", .symbol, true, 0⟩, ⟨"ts", .timestamp, true, 256⟩] ∧
      NamesDiffer t.columns ∧ t.timestampIndex = some 2 ∧
      (t.timestampIndex.isSome = ticksDeclaration.timestamp.isSome ∧
        ∀ i ∈ t.timestampIndex, ∃ c, t.columns[i]? = some c ∧ c.type = .timestamp ∧
          ∃ name ∈ ticksDeclaration.timestamp, Ascii.same c.name name.name = true) ∧
      List.Forall₂ ticksDeclaration.Defines ticksDeclaration.columns t.columns := by
  have hsettings : Settings.standard.validate = .ok () := by decide +kernel
  obtain ⟨t, ht, hcolumns, hindex⟩ : ∃ t,
      ofDeclaration Settings.standard.compiler ticksDeclaration = .ok t ∧
        t.columns = [⟨"id", .int, true, 16⟩, ⟨"sym", .symbol, true, 0⟩,
          ⟨"ts", .timestamp, true, 256⟩] ∧ t.timestampIndex = some 2 :=
    ⟨_, rfl, rfl, rfl⟩
  obtain ⟨hnames, htimestamp, hdefines⟩ := ofDeclaration_consistent hsettings ht
  exact ⟨t, hsettings, ht, hcolumns, hnames, hindex, htimestamp, hdefines⟩

/-- A block size of zero is read and kept: the column has an index without a block size. -/
theorem index_without_blockSize :
    Settings.standard.validate = .ok () ∧
      ∃ d t, Statement.ofText "create table t (a INT index block size 0)" = .ok (.createTable d) ∧
        ofDeclaration Settings.standard.compiler d = .ok t ∧
        ¬ ∀ c ∈ t.columns, 0 < c.indexBlockSize ↔ c.indexed = true := by
  have hcursor : Cursor.ofText "create table t (a INT index block size 0)" =
      .ok ⟨[], [⟨.ident "create", 0, 6⟩, ⟨.ident "table", 7, 12⟩, ⟨.ident "t", 13, 14⟩,
        ⟨.leftParen, 15, 16⟩, ⟨.ident "a", 16, 17⟩, ⟨.ident "INT", 18, 21⟩, ⟨.ident "index", 22, 27⟩,
        ⟨.ident "block", 28, 33⟩, ⟨.ident "size", 34, 38⟩, ⟨.number "0", 39, 40⟩,
        ⟨.rightParen, 40, 41⟩], 40, 0⟩ := by
    decide +kernel
  have hread : Statement.ofText "create table t (a INT index block size 0)" =
      .ok (.createTable ⟨⟨"t", 13⟩, [⟨⟨"a", 16⟩, .int, some ⟨some 0⟩⟩], [], none, none, none⟩) := by
    simp only [Statement.ofText, hcursor]
    rfl
  refine ⟨by decide +kernel, _, _, hread, rfl, fun h => ?_⟩
  exact absurd ((h ⟨"a", .int, true, 0⟩ List.mem_cons_self).mpr rfl) (Nat.lt_irrefl 0)

end TableDefinition

end SeriesQuery
