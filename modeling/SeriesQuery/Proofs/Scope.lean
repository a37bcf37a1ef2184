import SeriesQuery.Scope

/-!
What a resolution tells about a reference.

Where a reference leads does not hang on the place it is written at, so `LeadsTo` speaks
of the reference alone. The sources of an expression are those that its references lead
to, and an expression that has sources at all has no reference that leads nowhere.
-/

namespace SeriesQuery.Scope

variable {s : Scope}

/-- A reference leads to a column of a source, wherever it is written. -/
def LeadsTo (s : Scope) (ref : ColumnRef) (source : Nat) : Prop :=
  ∀ position, ∃ type, s.resolve ref position = .ok ⟨source, type⟩

/-- Some reference of an expression leads to a source. -/
def Reads (s : Scope) (e : Expr) (source : Nat) : Prop :=
  ∃ ref ∈ e.columns, s.LeadsTo ref.1 source

/-- Every reference of an expression leads to a source that satisfies `P`. -/
def ReadsOnly (s : Scope) (e : Expr) (P : Nat → Prop) : Prop :=
  ∃ sources, s.sourcesIn e = .ok sources ∧ ∀ source ∈ sources, P source

/-! ### One reference -/

theorem resolve_qualified {q name : String} {p : Nat} {r : Resolution}
    (h : s.resolve (.qualified q name) p = .ok r) :
    ∃ entry column, s.named q = [(entry, r.source)] ∧ entry.column? name = some column ∧
      r.type = column.type := by
  simp only [resolve, ColumnRef.qualified] at h
  split at h
  · cases h
  · rename_i entry source hnamed
    split at h
    · rename_i column hcolumn
      cases h
      exact ⟨entry, column, hnamed, hcolumn, rfl⟩
    · cases h
  · cases h

theorem resolve_plain {name : String} {p : Nat} {r : Resolution}
    (h : s.resolve (.plain name) p = .ok r) : s.holders name = [r] := by
  simp only [resolve, ColumnRef.plain] at h
  split at h
  · cases h
  · rename_i resolved hholders
    cases h
    exact hholders
  · cases h

theorem resolve_position {ref : ColumnRef} {p : Nat} {r : Resolution}
    (h : s.resolve ref p = .ok r) (q : Nat) : s.resolve ref q = .ok r := by
  obtain ⟨qualifier, name⟩ := ref
  cases qualifier with
  | some qualifier =>
    obtain ⟨entry, column, hnamed, hcolumn, htype⟩ := resolve_qualified h
    simp only [resolve, hnamed, hcolumn, ← htype]
  | none =>
    simp only [resolve, resolve_plain h]

theorem leadsTo_of_resolve {ref : ColumnRef} {p : Nat} {r : Resolution}
    (h : s.resolve ref p = .ok r) : s.LeadsTo ref r.source :=
  fun q => ⟨r.type, resolve_position h q⟩

/-- A reference leads to one source at most. -/
theorem LeadsTo.unique {ref : ColumnRef} {a b : Nat} (ha : s.LeadsTo ref a)
    (hb : s.LeadsTo ref b) : a = b := by
  obtain ⟨ta, ha⟩ := ha 0
  obtain ⟨tb, hb⟩ := hb 0
  rw [ha] at hb
  cases hb
  rfl

theorem LeadsTo.lt_length {ref : ColumnRef} {source : Nat} (h : s.LeadsTo ref source) :
    source < s.entries.length := by
  obtain ⟨type, h⟩ := h 0
  obtain ⟨qualifier, name⟩ := ref
  cases qualifier with
  | some qualifier =>
    obtain ⟨entry, column, hnamed, -, -⟩ := resolve_qualified h
    have hmem : (entry, source) ∈ s.named qualifier := by
      rw [hnamed]
      exact List.mem_singleton_self _
    exact (List.mem_zipIdx' (List.mem_filter.mp hmem).1).1
  | none =>
    have hmem : ⟨source, type⟩ ∈ s.holders name := by
      rw [resolve_plain h]
      exact List.mem_singleton_self _
    obtain ⟨⟨entry, i⟩, hentry, hcolumn⟩ := List.mem_filterMap.mp hmem
    obtain ⟨column, -, heq⟩ := Option.map_eq_some_iff.mp hcolumn
    cases heq
    exact (List.mem_zipIdx' hentry).1

/-! ### References that lead to the same column -/

theorem column?_congr {a b : String} (h : Ascii.lower a = Ascii.lower b) (entry : ScopeEntry) :
    entry.column? a = entry.column? b := by
  simp only [ScopeEntry.column?, ShownColumn.find?, Ascii.same, h]

/-- References that differ in case only lead to the same source. -/
theorem LeadsTo.of_lower {a b : ColumnRef}
    (hqualifier : a.qualifier.map Ascii.lower = b.qualifier.map Ascii.lower)
    (hname : Ascii.lower a.name = Ascii.lower b.name) {source : Nat} (ha : s.LeadsTo a source) :
    s.LeadsTo b source := by
  obtain ⟨type, hresolve⟩ := ha 0
  obtain ⟨qa, na⟩ := a
  obtain ⟨qb, nb⟩ := b
  cases qa with
  | none =>
    obtain rfl : qb = none := by simpa using hqualifier.symm
    have hholders : s.holders nb = [⟨source, type⟩] := by
      rw [← resolve_plain hresolve]
      simp only [holders, column?_congr hname]
    exact fun p => ⟨type, by simp only [resolve, hholders]⟩
  | some qa =>
    obtain ⟨qb, rfl, hq⟩ : ∃ q, qb = some q ∧ Ascii.lower q = Ascii.lower qa := by
      cases qb with
      | none => cases hqualifier
      | some q => exact ⟨q, rfl, by simpa using hqualifier.symm⟩
    obtain ⟨entry, column, hnamed, hcolumn, htype⟩ := resolve_qualified hresolve
    have hnamed' : s.named qb = [(entry, source)] := by
      rw [← hnamed]
      simp only [named, ScopeEntry.isNamed, Ascii.same, hq]
    rw [column?_congr hname] at hcolumn
    exact fun p => ⟨column.type, by simp only [resolve, hnamed', hcolumn]⟩

/-- A column that is found without its qualifier is the one that is found with it. -/
theorem LeadsTo.unqualified {q name : String} {a b : Nat} (ha : s.LeadsTo (.qualified q name) a)
    (hb : s.LeadsTo (.plain name) b) : a = b := by
  obtain ⟨type, hqualified⟩ := ha 0
  obtain ⟨_, hplain⟩ := hb 0
  obtain ⟨entry, column, hnamed, hcolumn, -⟩ := resolve_qualified hqualified
  have hentry : (entry, a) ∈ s.entries.zipIdx :=
    (List.mem_filter.mp (hnamed ▸ List.mem_singleton_self _ : (entry, a) ∈ s.named q)).1
  have hmem : ⟨a, column.type⟩ ∈ s.holders name :=
    List.mem_filterMap.mpr ⟨(entry, a), hentry, by rw [hcolumn]; rfl⟩
  rw [resolve_plain hplain, List.mem_singleton] at hmem
  cases hmem
  rfl

/-- The expression is the column that a reference leads to. -/
def IsColumn (s : Scope) (e : Expr) (ref : ColumnRef) : Prop :=
  ∃ found source, e.column? = some found ∧ Ascii.same found.name ref.name = true ∧
    s.LeadsTo found source ∧ s.LeadsTo ref source

/-! ### The references of an expression -/

theorem mem_insertSource {t source : Nat} {sources : List Nat} :
    t ∈ sourcesOf.insertSource source sources ↔ t = source ∨ t ∈ sources := by
  induction sources with
  | nil => simp [sourcesOf.insertSource]
  | cons first rest ih =>
    simp only [sourcesOf.insertSource]
    split
    · simp
    split
    · rename_i heq
      simp [heq]
    · simp only [List.mem_cons, ih]
      constructor
      · rintro (h | h | h)
        · exact Or.inr (Or.inl h)
        · exact Or.inl h
        · exact Or.inr (Or.inr h)
      · rintro (h | h | h)
        · exact Or.inr (Or.inl h)
        · exact Or.inl h
        · exact Or.inr (Or.inr h)

theorem sourcesOf_cons {ref : ColumnRef} {p : Nat} {refs : List (ColumnRef × Nat)}
    {sources : List Nat} (h : s.sourcesOf ((ref, p) :: refs) = .ok sources) :
    ∃ r others, s.resolve ref p = .ok r ∧ s.sourcesOf refs = .ok others ∧
      sources = sourcesOf.insertSource r.source others := by
  simp only [sourcesOf] at h
  split at h
  · cases h
  · rename_i r hr
    split at h
    · cases h
    · rename_i others hothers
      cases h
      exact ⟨r, others, hr, hothers, rfl⟩

theorem mem_sourcesOf {refs : List (ColumnRef × Nat)} {sources : List Nat}
    (h : s.sourcesOf refs = .ok sources) {t : Nat} :
    t ∈ sources ↔ ∃ ref ∈ refs, s.LeadsTo ref.1 t := by
  induction refs generalizing sources with
  | nil =>
    cases h
    simp
  | cons ref refs ih =>
    obtain ⟨r, others, hr, hothers, rfl⟩ := sourcesOf_cons h
    have hlead := leadsTo_of_resolve hr
    rw [mem_insertSource, ih hothers]
    simp only [List.mem_cons, exists_eq_or_imp]
    constructor
    · rintro (rfl | h)
      · exact Or.inl hlead
      · exact Or.inr h
    · rintro (h | h)
      · exact Or.inl (h.unique hlead)
      · exact Or.inr h

theorem leadsTo_of_mem {refs : List (ColumnRef × Nat)} {sources : List Nat}
    (h : s.sourcesOf refs = .ok sources) {ref : ColumnRef × Nat} (hmem : ref ∈ refs) :
    ∃ t ∈ sources, s.LeadsTo ref.1 t := by
  induction refs generalizing sources with
  | nil => simp at hmem
  | cons first refs ih =>
    obtain ⟨r, others, hr, hothers, rfl⟩ := sourcesOf_cons h
    rcases List.mem_cons.mp hmem with rfl | hmem
    · exact ⟨r.source, mem_insertSource.mpr (Or.inl rfl), leadsTo_of_resolve hr⟩
    · obtain ⟨t, ht, hlead⟩ := ih hothers hmem
      exact ⟨t, mem_insertSource.mpr (Or.inr ht), hlead⟩

theorem sourcesOf_ok {refs : List (ColumnRef × Nat)}
    (h : ∀ ref ∈ refs, ∃ t, s.LeadsTo ref.1 t) : ∃ sources, s.sourcesOf refs = .ok sources := by
  induction refs with
  | nil => exact ⟨[], rfl⟩
  | cons ref refs ih =>
    obtain ⟨t, hlead⟩ := h ref List.mem_cons_self
    obtain ⟨type, hresolve⟩ := hlead ref.2
    obtain ⟨others, hothers⟩ := ih fun r hr => h r (List.mem_cons_of_mem _ hr)
    exact ⟨sourcesOf.insertSource t others, by simp [sourcesOf, hresolve, hothers]⟩

/-- What an expression reads is what its references lead to. -/
theorem readsOnly_iff {e : Expr} {P : Nat → Prop} :
    s.ReadsOnly e P ↔ ∀ ref ∈ e.columns, ∃ t, s.LeadsTo ref.1 t ∧ P t := by
  constructor
  · rintro ⟨sources, hsources, hP⟩ ref href
    obtain ⟨t, ht, hlead⟩ := leadsTo_of_mem hsources href
    exact ⟨t, hlead, hP t ht⟩
  · intro h
    obtain ⟨sources, hsources⟩ := sourcesOf_ok fun ref href => (h ref href).imp fun _ ht => ht.1
    refine ⟨sources, hsources, fun t ht => ?_⟩
    obtain ⟨ref, href, hlead⟩ := (mem_sourcesOf hsources).mp ht
    obtain ⟨t', hlead', hP⟩ := h ref href
    exact hlead'.unique hlead ▸ hP

end SeriesQuery.Scope
