import Mathlib.Data.List.Pairwise
import SeriesQuery.Clauses
import SeriesQuery.Proofs.Scope
import SeriesQuery.Proofs.Select.Layout

/-!
The published name that an `order by` column means.

A name is taken for the item or the hidden column that has it, and a column for the item that
is written as it. Both are the column that is meant if no other item or hidden column has its
name (`Offers.means_of_orderAlias`).
-/

namespace SeriesQuery

/-- Names that are the same are one name where all names differ. -/
theorem eq_of_same_of_apart {names : List String}
    (hapart : names.Pairwise fun a b => Ascii.same a b = false) {a b : String} (ha : a ∈ names)
    (hb : b ∈ names) (h : Ascii.same a b = true) : a = b := by
  by_contra hne
  have hsymm : Std.Symm fun a b => Ascii.same a b = false :=
    ⟨fun a b h => Ascii.same_comm a b ▸ h⟩
  rw [hapart.forall ha hb hne] at h
  cases h

/-- The item that a reference names: without a qualifier, the one of its name in any case. -/
def itemNamed? (items : List (String × Expr)) (ref : ColumnRef) : Option (String × Expr) :=
  if ref.qualifier.isNone then items.find? fun item => Ascii.same item.1 ref.name else none

theorem itemNamed?_some {items : List (String × Expr)} {ref : ColumnRef} {item : String × Expr}
    (h : itemNamed? items ref = some item) :
    ref.qualifier = none ∧ item ∈ items ∧ Ascii.same item.1 ref.name = true := by
  unfold itemNamed? at h
  split at h
  · rename_i hplain
    exact ⟨by simpa using hplain, List.mem_of_find?_eq_some h,
      List.find?_some (p := fun item : String × Expr => Ascii.same item.1 ref.name) h⟩
  · cases h

theorem itemNamed?_none_of {items : List (String × Expr)} {ref : ColumnRef}
    (h : ref.qualifier = none → ∀ item ∈ items, Ascii.same item.1 ref.name = false) :
    itemNamed? items ref = none := by
  unfold itemNamed?
  split
  · rename_i hplain
    exact List.find?_eq_none.mpr fun item hitem =>
      Bool.eq_false_iff.mp (h (by simpa using hplain) item hitem)
  · rfl

/-- The references of items are read from a text and lead to columns. -/
def Scope.Resolves (scope : Scope) (items : List (String × Expr)) : Prop :=
  ∀ item ∈ items, ∀ c ∈ item.2.columns, c.1.Written ∧ ∃ source, scope.LeadsTo c.1 source

/-- What a reference asks of the items of a select list if it names none of them: it leads to
a column, and an item that has its name is that column. -/
structure Scope.Unambiguous (scope : Scope) (items : List (String × Expr)) (ref : ColumnRef) :
    Prop where
  undotted : ref.Undotted
  leads : ∃ source, scope.LeadsTo ref source
  named : ∀ item ∈ items, Ascii.same item.1 ref.name = true → scope.IsColumn item.2 ref

theorem ColumnRef.Undotted.written {ref : ColumnRef} (h : ref.Undotted) : ref.Written := by
  have htext := ColumnRef.text_ofText ref.text
  obtain ⟨qualifier, name⟩ := ref
  cases qualifier with
  | none => exact ColumnRef.written_plain h.2
  | some q =>
    have hq : ∀ c ∈ q.toList, (c != '.') = true := fun c hc => by
      simpa using fun heq : c = '.' => h.1 q rfl (heq ▸ hc)
    have hlist : (ColumnRef.text ⟨some q, name⟩).toList = q.toList ++ '.' :: name.toList := by
      simp [ColumnRef.text]
    change ColumnRef.ofText _ = _
    simp only [ColumnRef.ofText, hlist, List.dropWhile_append_of_pos hq,
      List.takeWhile_append_of_pos hq]
    simp [ColumnRef.qualified]

namespace Layers

/-- The names under which layers offer items, and columns that are hidden behind them, to an
order. -/
structure Offers (items : List (String × Expr)) (hidden : List (ColumnRef × String)) (l : Layers) :
    Prop where
  items_eq : l.items = items
  aliases_eq : l.top.aliases = items.map Prod.fst ++ hidden.map Prod.snd
  apart : (items.map Prod.fst ++ hidden.map Prod.snd).Pairwise fun a b => Ascii.same a b = false

/-- A name is that of what a reference means: of the item that it names, else of an item or a
hidden column that is the column it leads to. -/
def Means (scope : Scope) (items : List (String × Expr)) (hidden : List (ColumnRef × String))
    (ref : ColumnRef) (name : String) : Prop :=
  match itemNamed? items ref with
  | some item => name = item.1
  | none => (∃ item ∈ items, item.1 = name ∧ scope.IsColumn item.2 ref) ∨
      ∃ h ∈ hidden, h.2 = name ∧ scope.IsColumn (.column h.1 0) ref

/-- What is hidden besides does not change what a name means. -/
theorem Means.append {scope : Scope} {items : List (String × Expr)}
    {hidden : List (ColumnRef × String)} {ref : ColumnRef} {name : String}
    (h : Means scope items hidden ref name) (more : List (ColumnRef × String)) :
    Means scope items (hidden ++ more) ref name := by
  unfold Means at h ⊢
  cases hitem : itemNamed? items ref with
  | some item =>
    rw [hitem] at h
    exact h
  | none =>
    rw [hitem] at h
    exact h.imp_right fun ⟨c, hc, hname, hcolumn⟩ =>
      ⟨c, List.mem_append_left _ hc, hname, hcolumn⟩

/-- What a published name has to do with a reference: it is spelled so, or no name is and its
item is written so. -/
theorem publishedName?_spec {l : Layers} {ref : ColumnRef} {name : String}
    (h : l.publishedName? ref = some name) :
    (ref.qualifier = none ∧ name ∈ l.top.aliases ∧ Ascii.same name ref.name = true) ∨
      (ref.qualifier = none → ∀ a ∈ l.top.aliases, Ascii.same a ref.name = false) ∧
        ∃ item ∈ l.items, item.1 = name ∧ ∃ written, item.2.column? = some written ∧
          Ascii.same written.text ref.text = true := by
  unfold publishedName? at h
  extract_lets byName byColumn at h
  cases hname : byName with
  | some found =>
    rw [hname] at h
    obtain rfl : found = name := Option.some.inj h
    obtain ⟨hplain, hfind⟩ := Option.ite_none_right_eq_some.mp hname
    exact .inl ⟨by simpa using hplain, List.mem_of_find?_eq_some hfind,
      List.find?_some (p := fun a => Ascii.same a ref.name) hfind⟩
  | none =>
    rw [hname] at h
    change byColumn.map Prod.fst = some name at h
    obtain ⟨item, hfind, hitem⟩ := Option.map_eq_some_iff.mp h
    refine .inr ⟨fun hplain a ha => ?_, item, List.mem_of_find?_eq_some hfind, hitem, ?_⟩
    · have hnone : l.top.aliases.find? (fun a => Ascii.same a ref.name) = none := by
        simpa [byName, hplain] using hname
      exact Bool.eq_false_iff.mpr (List.find?_eq_none.mp hnone a ha)
    · simpa [Option.any_eq_true] using List.find?_some hfind

section

variable {scope : Scope} {items : List (String × Expr)} {hidden : List (ColumnRef × String)}
  {l : Layers} {ref : ColumnRef} {name : String}

/-- An item that is written as a reference, up to case, is the column that it leads to. -/
theorem isColumn_of_written (hitems : scope.Resolves items) {item : String × Expr}
    (hitem : item ∈ items) {written : ColumnRef} (hcolumn : item.2.column? = some written)
    (href : scope.Unambiguous items ref) (h : Ascii.same written.text ref.text = true) :
    scope.IsColumn item.2 ref := by
  obtain ⟨p, hexpr⟩ := Expr.column?_eq_some.mp hcolumn
  have hwritten := (hitems item hitem (written, p) (by simp [hexpr, Expr.columns])).1
  obtain ⟨hqualifier, hname⟩ := hwritten.lower_eq href.undotted.written h
  obtain ⟨source, hsource⟩ := href.leads
  exact ⟨written, source, hcolumn, Ascii.same_iff.mpr hname,
    hsource.of_lower hqualifier.symm hname.symm, hsource⟩

/-- An item that is written as a reference without its qualifier is the column that it leads
to. -/
theorem isColumn_of_unqualified (hitems : scope.Resolves items) {item : String × Expr}
    (hitem : item ∈ items) {written : ColumnRef} (hcolumn : item.2.column? = some written)
    (href : scope.Unambiguous items ref) (hqualified : ref.qualifier.isSome)
    (h : Ascii.same written.text ref.name = true) : scope.IsColumn item.2 ref := by
  obtain ⟨p, hexpr⟩ := Expr.column?_eq_some.mp hcolumn
  obtain ⟨hwritten, found, hfound⟩ :=
    hitems item hitem (written, p) (by simp [hexpr, Expr.columns])
  obtain ⟨hqualifier, hname⟩ := hwritten.lower_eq (ColumnRef.written_plain href.undotted.2) h
  obtain ⟨source, hsource⟩ := href.leads
  obtain ⟨qualifier, name⟩ := ref
  obtain ⟨q, rfl⟩ := Option.isSome_iff_exists.mp hqualified
  have hplain : scope.LeadsTo (.plain name) found := hfound.of_lower hqualifier hname
  obtain rfl : source = found := hsource.unqualified hplain
  exact ⟨written, source, hcolumn, Ascii.same_iff.mpr hname, hfound, hsource⟩

/-- A name that is offered and that a reference has means what the reference means. -/
theorem Offers.means_of_alias (hoffers : Offers items hidden l) (hname : name ∈ l.top.aliases)
    (hsame : Ascii.same name ref.name = true)
    (href : itemNamed? items ref = none → scope.Unambiguous items ref)
    (hhidden : itemNamed? items ref = none → ∀ h ∈ hidden, Ascii.same h.2 ref.name = true →
      scope.IsColumn (.column h.1 0) ref) :
    Means scope items hidden ref name := by
  rw [hoffers.aliases_eq] at hname
  unfold Means
  cases hitem : itemNamed? items ref with
  | some item =>
    obtain ⟨-, hmem, hitemSame⟩ := itemNamed?_some hitem
    refine eq_of_same_of_apart hoffers.apart hname
      (List.mem_append_left _ (List.mem_map_of_mem hmem)) (Ascii.same_trans hsame ?_)
    rw [Ascii.same_comm]
    exact hitemSame
  | none =>
    rcases List.mem_append.mp hname with hmem | hmem
    · obtain ⟨item, hshown, rfl⟩ := List.mem_map.mp hmem
      exact .inl ⟨item, hshown, rfl, (href hitem).named item hshown hsame⟩
    · obtain ⟨column, hcolumn, rfl⟩ := List.mem_map.mp hmem
      exact .inr ⟨column, hcolumn, rfl, hhidden hitem column hcolumn hsame⟩

/-- The published name that an `order by` column is bound to means what the column means. -/
theorem Offers.means_of_orderAlias (hoffers : Offers items hidden l)
    (hitems : scope.Resolves items)
    (href : itemNamed? items ref = none → scope.Unambiguous items ref)
    (hhidden : itemNamed? items ref = none → ∀ h ∈ hidden, Ascii.same h.2 ref.name = true →
      scope.IsColumn (.column h.1 0) ref)
    (h : Clause.orderAlias? l scope ref = some name) : Means scope items hidden ref name := by
  have hfree : (ref.qualifier = none → ∀ a ∈ l.top.aliases, Ascii.same a ref.name = false) →
      itemNamed? items ref = none := fun hnone =>
    itemNamed?_none_of fun hplain item hitem => hnone hplain item.1 (by
      rw [hoffers.aliases_eq]
      exact List.mem_append_left _ (List.mem_map_of_mem hitem))
  have hmeans : itemNamed? items ref = none → (∃ item ∈ items, item.1 = name ∧
      scope.IsColumn item.2 ref) → Means scope items hidden ref name := by
    intro hnone hitem
    unfold Means
    rw [hnone]
    exact .inl hitem
  unfold Clause.orderAlias? at h
  split at h
  · rename_i found hfound
    cases h
    rcases publishedName?_spec hfound with ⟨-, hmem, hsame⟩ | ⟨hnone, item, hitem, hname, written,
      hcolumn, hsame⟩
    · exact hoffers.means_of_alias hmem hsame href hhidden
    · rw [hoffers.items_eq] at hitem
      exact hmeans (hfree hnone) ⟨item, hitem, hname,
        isColumn_of_written hitems hitem hcolumn (href (hfree hnone)) hsame⟩
  · split at h
    · cases h
    · rename_i qualifier hqualifier
      have hnone : itemNamed? items ref = none :=
        itemNamed?_none_of fun hplain => by simp [hqualifier] at hplain
      split at h
      · rcases publishedName?_spec h with ⟨-, hmem, hsame⟩ | ⟨-, item, hitem, hname, written,
          hcolumn, hsame⟩
        · exact hoffers.means_of_alias hmem hsame href hhidden
        · rw [hoffers.items_eq] at hitem
          exact hmeans hnone ⟨item, hitem, hname, isColumn_of_unqualified hitems hitem hcolumn
            (href hnone) (by simp [hqualifier]) hsame⟩
      · cases h

/-- A reference that no published name is bound to names no item, and no item is written as
it. -/
theorem Offers.of_orderAlias_none (hoffers : Offers items hidden l)
    (h : Clause.orderAlias? l scope ref = none) :
    itemNamed? items ref = none ∧ ∀ item ∈ items, ∀ written, item.2.column? = some written →
      Ascii.same written.text ref.text = false := by
  have hpublished : l.publishedName? ref = none := by
    unfold Clause.orderAlias? at h
    split at h
    · cases h
    · assumption
  unfold publishedName? at hpublished
  extract_lets byName byColumn at hpublished
  obtain ⟨hname, hcolumn⟩ : byName = none ∧ byColumn.map Prod.fst = none := by
    cases hname : byName with
    | some found => simp [hname] at hpublished
    | none => exact ⟨rfl, by simpa [hname] using hpublished⟩
  rw [← hoffers.items_eq]
  refine ⟨itemNamed?_none_of fun hplain item hitem => ?_, fun item hitem written hwritten => ?_⟩
  · have hnone : l.top.aliases.find? (fun a => Ascii.same a ref.name) = none := by
      simpa [byName, hplain] using hname
    refine Bool.eq_false_iff.mpr (List.find?_eq_none.mp hnone item.1 ?_)
    rw [hoffers.aliases_eq, ← hoffers.items_eq]
    exact List.mem_append_left _ (List.mem_map_of_mem hitem)
  · have hnone := List.find?_eq_none.mp (Option.map_eq_none_iff.mp hcolumn) item hitem
    simpa [hwritten] using hnone

end

end Layers

end SeriesQuery
