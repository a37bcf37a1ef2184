import SeriesQuery.Proofs.Token.Lexing
import SeriesQuery.TableDefinition

/-!
What a checked table definition holds.

A declaration that is accepted defines columns that no two names share, in whatever case, with
numbers that can be written again and a timestamp among them (`wellFormed_of_ofDeclaration`). The
other way round, a declaration that says all that such a definition says defines it
(`ofDeclaration_of_says`), whatever the settings: they fill in block sizes only where none is
written.
-/

namespace SeriesQuery

/-! ### Declarations as they are read -/

/-- A block size, if there is one, is a number of 32 bits. -/
def IndexSpec.Fits (spec : IndexSpec) : Prop :=
  ∀ n ∈ spec.blockSize, n < UInt32.size

/-- The column is declared by a word, and its block size fits. -/
structure ColumnDeclaration.Written (d : ColumnDeclaration) : Prop where
  name : (Token.ident d.name.name).Lexable
  index : ∀ spec ∈ d.index, spec.Fits

/-- The names of a declaration are words, and its numbers fit. -/
structure TableDeclaration.Written (d : TableDeclaration) : Prop where
  name : (Token.ident d.name.name).Lexable
  nonempty : d.columns ≠ []
  columns : ∀ c ∈ d.columns, c.Written
  indexes : ∀ i ∈ d.indexes, i.spec.Fits
  recordHint : ∀ n ∈ d.recordHint, n < UInt64.size

/-! ### Well-formed definitions -/

/-- A column that can be written again as it is. -/
structure ColumnDefinition.WellFormed (c : ColumnDefinition) : Prop where
  name : (Token.ident c.name).Lexable
  blockSize : c.indexBlockSize < UInt32.size
  unindexed : c.indexed = false → c.indexBlockSize = 0

namespace TableDefinition

/-- No two columns have one name, in any case. -/
def NamesDiffer (columns : List ColumnDefinition) : Prop :=
  (columns.map ColumnDefinition.name).Pairwise fun a b => Ascii.same a b = false

/-- A definition with columns of different names, each of which can be written again, and a
timestamp among them. -/
structure WellFormed (t : TableDefinition) : Prop where
  name : (Token.ident t.name).Lexable
  nonempty : t.columns ≠ []
  columns : ∀ c ∈ t.columns, c.WellFormed
  namesDiffer : NamesDiffer t.columns
  timestamp : ∀ i ∈ t.timestampIndex, ∃ c, t.columns[i]? = some c ∧ c.type = .timestamp
  recordHint : ∀ n ∈ t.recordHint, n < UInt64.size

variable {blockSize : Nat} {columns defined : List ColumnDefinition}

/-! ### Columns -/

@[simp] theorem name_defineColumn (d : ColumnDeclaration) :
    (defineColumn blockSize d).name = d.name.name := by
  unfold defineColumn
  split <;> rfl

theorem wellFormed_defineColumn {d : ColumnDeclaration} (h : d.Written)
    (hsize : blockSize < UInt32.size) : (defineColumn blockSize d).WellFormed := by
  obtain ⟨name, type, index⟩ := d
  cases index with
  | none => exact ⟨h.name, (by decide : 0 < UInt32.size), fun _ => rfl⟩
  | some spec =>
    refine ⟨h.name, ?_, by simp [defineColumn]⟩
    have hfits := h.index spec rfl
    cases hspec : spec.blockSize with
    | none => simpa [defineColumn, hspec] using hsize
    | some n => simpa [defineColumn, hspec] using hfits n hspec

@[simp] theorem namesDiffer_nil : NamesDiffer [] :=
  .nil

theorem namesDiffer_append {c : ColumnDefinition} :
    NamesDiffer (defined ++ [c]) ↔
      NamesDiffer defined ∧ ∀ a ∈ defined, Ascii.same a.name c.name = false := by
  simp [NamesDiffer, List.pairwise_append]

/-- Columns are defined one by one as long as their names differ. -/
theorem defineColumns_ok {ds : List ColumnDeclaration} (hdefined : NamesDiffer defined) :
    defineColumns blockSize defined ds = .ok columns ↔
      columns = defined ++ ds.map (defineColumn blockSize) ∧ NamesDiffer columns := by
  induction ds generalizing defined with
  | nil =>
    simp only [defineColumns, List.map_nil, List.append_nil, Except.ok.injEq]
    constructor
    · rintro rfl
      exact ⟨rfl, hdefined⟩
    · rintro ⟨rfl, -⟩
      rfl
  | cons d ds ih =>
    have hall : defined ++ (d :: ds).map (defineColumn blockSize) =
        defined ++ [defineColumn blockSize d] ++ ds.map (defineColumn blockSize) := by simp
    rw [hall]
    by_cases htaken : defined.any (hasName d.name.name) = true
    · simp only [defineColumns, htaken, if_true]
      constructor
      · intro h
        cases h
      · rintro ⟨rfl, hnames⟩
        obtain ⟨c, hc, hsame⟩ := List.any_eq_true.mp htaken
        have hprefix : NamesDiffer (defined ++ [defineColumn blockSize d]) := by
          rw [NamesDiffer, List.map_append] at hnames
          exact (List.pairwise_append.mp hnames).1
        have hne := (namesDiffer_append.mp hprefix).2 c hc
        rw [name_defineColumn] at hne
        exact absurd (hsame.symm.trans hne) (by decide)
    · have hfree : ∀ a ∈ defined, Ascii.same a.name d.name.name = false := by
        simpa [hasName] using htaken
      rw [← ih (namesDiffer_append.mpr ⟨hdefined, by simpa using hfree⟩)]
      simp only [defineColumns, htaken, if_false, Bool.false_eq_true]

/-! ### Indexes -/

theorem names_addIndex (name : String) (columns : List ColumnDefinition) :
    (addIndex blockSize name columns).map ColumnDefinition.name =
      columns.map ColumnDefinition.name := by
  induction columns with
  | nil => rfl
  | cons c columns ih =>
    unfold addIndex
    split
    · rfl
    · rw [List.map_cons, List.map_cons, ih]

theorem wellFormed_addIndex {name : String} (hsize : blockSize < UInt32.size)
    (h : ∀ c ∈ columns, c.WellFormed) : ∀ c ∈ addIndex blockSize name columns, c.WellFormed := by
  induction columns with
  | nil => exact h
  | cons c columns ih =>
    obtain ⟨hc, hcolumns⟩ := List.forall_mem_cons.mp h
    unfold addIndex
    split
    · exact List.forall_mem_cons.mpr ⟨⟨hc.name, hsize, by simp⟩, hcolumns⟩
    · exact List.forall_mem_cons.mpr ⟨hc, ih hcolumns⟩

/-- Indexes declared after the columns change no names and keep the columns well-formed. -/
theorem addIndexes_ok {ds : List IndexDeclaration} {indexed : List ColumnDefinition}
    (hsize : blockSize < UInt32.size) (hds : ∀ d ∈ ds, d.spec.Fits)
    (hcolumns : ∀ c ∈ columns, c.WellFormed)
    (h : addIndexes blockSize ds columns = .ok indexed) :
    indexed.map ColumnDefinition.name = columns.map ColumnDefinition.name ∧
      ∀ c ∈ indexed, c.WellFormed := by
  induction ds generalizing columns with
  | nil =>
    cases h
    exact ⟨rfl, hcolumns⟩
  | cons d ds ih =>
    obtain ⟨hd, hds⟩ := List.forall_mem_cons.mp hds
    simp only [addIndexes] at h
    split at h
    · have hfits : d.spec.blockSize.getD blockSize < UInt32.size := by
        cases hspec : d.spec.blockSize with
        | none => exact hsize
        | some n => exact hd n hspec
      obtain ⟨hnames, hindexed⟩ := ih hds (wellFormed_addIndex hfits hcolumns) h
      exact ⟨hnames.trans (names_addIndex _ _), hindexed⟩
    · cases h

/-! ### The designated timestamp -/

/-- The designated timestamp is a column of the declared name and of type `TIMESTAMP`. -/
theorem of_findTimestamp {timestamp : Option Ident} {index : Option Nat}
    (h : findTimestamp columns timestamp = .ok index) :
    (timestamp = none ∧ index = none) ∨
      ∃ name i c, timestamp = some name ∧ index = some i ∧ columns[i]? = some c ∧
        c.type = .timestamp ∧ hasName name.name c = true := by
  cases timestamp with
  | none =>
    cases h
    exact .inl ⟨rfl, rfl⟩
  | some name =>
    simp only [findTimestamp] at h
    split at h
    · cases h
    · rename_i c i hfind
      split at h
      · rename_i htype
        cases h
        have hmem := List.mem_zipIdx' (List.mem_of_find?_eq_some hfind)
        have hname : hasName name.name c = true := by simpa using List.find?_some hfind
        exact .inr ⟨name, i, c, rfl, rfl, by simp [hmem.2, hmem.1], htype, hname⟩
      · cases h

theorem findTimestamp_ok {timestamp : Option Ident} {index : Option Nat}
    (h : findTimestamp columns timestamp = .ok index) :
    ∀ i ∈ index, ∃ c, columns[i]? = some c ∧ c.type = .timestamp := by
  rintro i rfl
  rcases of_findTimestamp h with ⟨-, hnone⟩ | ⟨_, i', c, -, hi, hc, htype, -⟩
  · cases hnone
  · cases hi
    exact ⟨c, hc, htype⟩

/-- Where names differ, a column is found by its name. -/
theorem find?_zipIdx {i : Nat} {c : ColumnDefinition} (hnames : NamesDiffer columns)
    (hc : columns[i]? = some c) :
    (columns.zipIdx.find? fun a => hasName c.name a.1) = some (c, i) := by
  obtain ⟨hi, rfl⟩ := List.getElem?_eq_some_iff.mp hc
  rw [List.find?_eq_some_iff_getElem]
  refine ⟨by simp [hasName], i, by simpa using hi, by simp, fun j hj => ?_⟩
  have hdiffer := List.pairwise_iff_getElem.mp hnames j i (by simp; omega) (by simpa using hi) hj
  simpa [hasName] using hdiffer

theorem findTimestamp_of_mem {i : Nat} {c : ColumnDefinition} {timestamp : Ident}
    (hnames : NamesDiffer columns) (hc : columns[i]? = some c) (htype : c.type = .timestamp)
    (htimestamp : timestamp.name = c.name) :
    findTimestamp columns (some timestamp) = .ok (some i) := by
  simp only [findTimestamp, htimestamp, find?_zipIdx hnames hc, htype, if_true]

/-! ### Whole definitions -/

/-- **An accepted declaration defines a well-formed table.** -/
theorem wellFormed_of_ofDeclaration {settings : CompilerSettings} {d : TableDeclaration}
    {t : TableDefinition} (hd : d.Written) (hsize : settings.indexValueBlockSize < UInt32.size)
    (h : ofDeclaration settings d = .ok t) : t.WellFormed := by
  obtain ⟨defined, hdefined, h⟩ := Except.bind_eq_ok.mp h
  obtain ⟨columns, hcolumns, h⟩ := Except.bind_eq_ok.mp h
  obtain ⟨index, hindex, h⟩ := Except.bind_eq_ok.mp h
  cases h
  obtain ⟨rfl, hnames⟩ := (defineColumns_ok namesDiffer_nil).mp hdefined
  have hwritten : ∀ c ∈ [] ++ d.columns.map (defineColumn settings.indexValueBlockSize),
      c.WellFormed := by
    simpa using fun c hc => wellFormed_defineColumn (hd.columns c hc) hsize
  obtain ⟨hsame, hwell⟩ := addIndexes_ok hsize hd.indexes hwritten hcolumns
  refine ⟨hd.name, ?_, hwell, ?_, findTimestamp_ok hindex, hd.recordHint⟩
  · intro hnil
    obtain rfl : columns = [] := hnil
    exact hd.nonempty (by simpa using hsame)
  · rwa [NamesDiffer, hsame]

/-- The name of the designated timestamp. -/
def timestampName? (t : TableDefinition) : Option String :=
  (t.timestampIndex.bind fun i => t.columns[i]?).map ColumnDefinition.name

/-- The declaration says all that the definition says: its columns with their indexes, and the
partitioning. -/
structure Says (t : TableDefinition) (d : TableDeclaration) : Prop where
  name : d.name.name = t.name
  columns : ∀ blockSize, d.columns.map (defineColumn blockSize) = t.columns
  indexes : d.indexes = []
  timestamp : d.timestamp.map Ident.name = t.timestampName?
  partitionBy : d.partitionBy.map Prod.fst = some t.partitionBy
  recordHint : d.recordHint = t.recordHint

theorem WellFormed.findTimestamp {t : TableDefinition} {timestamp : Option Ident}
    (ht : t.WellFormed) (h : timestamp.map Ident.name = t.timestampName?) :
    findTimestamp t.columns timestamp = .ok t.timestampIndex := by
  cases hindex : t.timestampIndex with
  | none =>
    have hnone : timestamp = none := by simpa [timestampName?, hindex] using h
    rw [hnone]
    rfl
  | some i =>
    obtain ⟨c, hc, htype⟩ := ht.timestamp i hindex
    obtain ⟨name, rfl, hname⟩ : ∃ name, timestamp = some name ∧ name.name = c.name := by
      simpa [timestampName?, hindex, hc] using h
    exact findTimestamp_of_mem ht.namesDiffer hc htype hname

/-- **A declaration that says all of a well-formed definition defines it**, under any settings. -/
theorem ofDeclaration_of_says {settings : CompilerSettings} {d : TableDeclaration}
    {t : TableDefinition} (ht : t.WellFormed) (h : t.Says d) :
    ofDeclaration settings d = .ok t := by
  have hcolumns : defineColumns settings.indexValueBlockSize [] d.columns = .ok t.columns :=
    (defineColumns_ok namesDiffer_nil).mpr ⟨(h.columns _).symm, ht.namesDiffer⟩
  have htimestamp := ht.findTimestamp h.timestamp
  simp only [ofDeclaration, hcolumns, h.indexes, addIndexes, h.name, h.partitionBy, h.recordHint,
    Option.getD_some]
  simp only [Bind.bind, Except.bind, htimestamp]
  rfl

end TableDefinition

end SeriesQuery
