import Mathlib.Data.List.TakeWhile
import SeriesQuery.Expr.Negation
import SeriesQuery.Expr.Printer

/-!
What the text of an equality tells about its sides.

A reference whose qualifier and name have no dot is told by its text, and two such sides
are told by the text of their equality if their names have no space. Their qualifiers may have
spaces: an alias may be any text in quotes, but a name of a column is a word. Normalizing a
condition and splitting it into conjuncts adds no references.
-/

namespace SeriesQuery

/-! ### Texts without a character -/

/-- A character does not occur in a text. -/
def Text.Lacks (text : String) (c : Char) : Prop :=
  c ∉ text.toList

namespace Text

instance (text : String) (c : Char) : Decidable (Lacks text c) :=
  inferInstanceAs (Decidable (c ∉ text.toList))

theorem lacks_append {a b : String} {c : Char} : Lacks (a ++ b) c ↔ Lacks a c ∧ Lacks b c := by
  simp [Lacks]

/-- A text is split in one way at the first occurrence of a character. -/
theorem Lacks.split {a b x y : String} {c : Char} (ha : Lacks a c) (hb : Lacks b c)
    (h : a ++ String.singleton c ++ x = b ++ String.singleton c ++ y) : a = b ∧ x = y := by
  have hlists : a.toList ++ c :: x.toList = b.toList ++ c :: y.toList := by
    simpa using congrArg String.toList h
  have hfirst : ∀ {l : List Char} (r : List Char), c ∉ l →
      (l ++ c :: r).takeWhile (· != c) = l := by
    intro l r hl
    rw [List.takeWhile_append_of_pos]
    · simp
    · intro d hd
      simpa using fun heq : d = c => hl (heq ▸ hd)
  have hab : a.toList = b.toList := by
    rw [← hfirst x.toList ha, hlists, hfirst y.toList hb]
  rw [hab] at hlists
  refine ⟨String.toList_inj.mp hab, String.toList_inj.mp ?_⟩
  simpa using List.append_cancel_left hlists

theorem toLower_eq_dot {c : Char} (h : c.toLower = '.') : c = '.' := by
  unfold Char.toLower at h
  split at h
  · rename_i hupper
    have hval : (c.val + 32).toNat = 46 := congrArg (fun d => d.val.toNat) h
    have hge : 65 ≤ c.val.toNat := hupper.1
    have hle : c.val.toNat ≤ 90 := hupper.2
    rw [UInt32.toNat_add, show (32 : UInt32).toNat = 32 from rfl] at hval
    omega
  · exact h

/-- Names that are the same have the same dots. -/
theorem lacks_dot_of_same {a b : String} (h : Ascii.same a b = true) (ha : Lacks a '.') :
    Lacks b '.' := by
  intro hb
  have hlower : (Ascii.lower a).toList = (Ascii.lower b).toList :=
    congrArg String.toList (Ascii.same_iff.mp h)
  simp only [Ascii.lower, String.toList_ofList] at hlower
  have hmem : '.' ∈ a.toList.map Char.toLower := by
    rw [hlower]
    exact List.mem_map.mpr ⟨'.', hb, rfl⟩
  obtain ⟨c, hc, hdot⟩ := List.mem_map.mp hmem
  exact ha (toLower_eq_dot hdot ▸ hc)

end Text

open Text

/-! ### References -/

namespace ColumnRef

/-- Neither the qualifier nor the name of a reference has a dot. -/
def Undotted (ref : ColumnRef) : Prop :=
  (∀ q ∈ ref.qualifier, Lacks q '.') ∧ Lacks ref.name '.'

instance (ref : ColumnRef) : Decidable ref.Undotted :=
  inferInstanceAs (Decidable (_ ∧ _))

/-- A reference without dots in its parts is told by its text. -/
theorem Undotted.eq_of_text_eq {a b : ColumnRef} (ha : a.Undotted) (hb : b.Undotted)
    (h : a.text = b.text) : a = b := by
  obtain ⟨qa, na⟩ := a
  obtain ⟨qb, nb⟩ := b
  cases qa with
  | none =>
    cases qb with
    | none =>
      obtain rfl : na = nb := h
      rfl
    | some qb =>
      have hdot : ¬ Lacks (text ⟨some qb, nb⟩) '.' := by simp [text, Lacks]
      exact absurd (h ▸ ha.2) hdot
  | some qa =>
    cases qb with
    | none =>
      have hdot : ¬ Lacks (text ⟨some qa, na⟩) '.' := by simp [text, Lacks]
      exact absurd (h ▸ hb.2) hdot
    | some qb =>
      obtain ⟨rfl, rfl⟩ := Lacks.split (ha.1 qa rfl) (hb.1 qb rfl) h
      rfl

/-- No part of a reference has a dot, and its name has no space; its qualifier may have some. -/
structure Legible (ref : ColumnRef) : Prop where
  undotted : ref.Undotted
  unspaced : Lacks ref.name ' '

/-- The name in a text without spaces has none. -/
theorem lacks_name_of_text {ref : ColumnRef} (h : Lacks ref.text ' ') : Lacks ref.name ' ' := by
  obtain ⟨qualifier, name⟩ := ref
  cases qualifier with
  | none => exact h
  | some q => exact (lacks_append.mp h).2

/-- Splitting a text at its first dot and writing the parts again gives the text. -/
theorem text_ofText (t : String) : (ofText t).text = t := by
  have hsplit := List.takeWhile_append_dropWhile (p := (· != '.')) (l := t.toList)
  simp only [ofText]
  split
  · rfl
  · rename_i d name hdrop
    have hd : d = '.' := by
      have := List.head_dropWhile_not (p := (· != '.')) (l := t.toList) (by simp [hdrop])
      simpa [hdrop] using this
    rw [hdrop, hd] at hsplit
    apply String.toList_inj.mp
    simpa [text, qualified] using hsplit

/-- A reference as it is read from a text. -/
def Written (ref : ColumnRef) : Prop :=
  ofText ref.text = ref

instance (ref : ColumnRef) : Decidable ref.Written :=
  inferInstanceAs (Decidable (_ = _))

/-- What a text is split into is written as the text. -/
theorem written_ofText (t : String) : (ofText t).Written := by
  rw [Written, text_ofText]

/-- A text without dots is a name without a qualifier. -/
theorem written_plain {name : String} (h : Lacks name '.') : (plain name).Written := by
  have hdrop : name.toList.dropWhile (· != '.') = [] :=
    List.dropWhile_eq_nil_iff.mpr fun c hc => by
      simpa using fun heq : c = '.' => h (heq ▸ hc)
  change ofText name = plain name
  simp only [ofText, hdrop]

/-- What a text in lower case is read as. -/
theorem ofText_lower (t : String) : ofText (Ascii.lower t) =
    ⟨(ofText t).qualifier.map Ascii.lower, Ascii.lower (ofText t).name⟩ := by
  have hdot : (fun c : Char => c != '.') ∘ Char.toLower = fun c => c != '.' := by
    funext c
    by_cases hc : c = '.'
    · subst hc
      rfl
    · have hlower : c.toLower ≠ '.' := fun h => hc (toLower_eq_dot h)
      exact (bne_iff_ne.mpr hlower).trans (bne_iff_ne.mpr hc).symm
  simp only [ofText, Ascii.lower, String.toList_ofList, List.dropWhile_map, List.takeWhile_map, hdot]
  cases t.toList.dropWhile (· != '.') with
  | nil => rfl
  | cons d name => simp [qualified, Ascii.lower]

/-- References that are spelled alike up to case are alike up to case. -/
theorem Written.lower_eq {a b : ColumnRef} (ha : a.Written) (hb : b.Written)
    (h : Ascii.same a.text b.text = true) :
    a.qualifier.map Ascii.lower = b.qualifier.map Ascii.lower ∧
      Ascii.lower a.name = Ascii.lower b.name := by
  have htext : ofText (Ascii.lower a.text) = ofText (Ascii.lower b.text) := by
    rw [Ascii.same_iff.mp h]
  rw [ofText_lower, ofText_lower, ha, hb] at htext
  exact ⟨congrArg qualifier htext, congrArg name htext⟩

end ColumnRef

/-! ### Equalities of columns -/

namespace Expr

/-- No column of an expression has a name with a space. -/
def Unspaced (e : Expr) : Prop :=
  ∀ ref ∈ e.columns, Lacks ref.1.name ' '

theorem text_equality (l r : ColumnRef) (lp rp : Nat) :
    (equality (column l lp) (column r rp)).text = l.text ++ " " ++ ("= " ++ r.text) := by
  apply String.toList_inj.mp
  simp [equality, text, strength, BinaryOp.strength, BinaryOp.symbol, parenthesized]

/-- The same with a qualifier on the left. -/
theorem text_equality_qualified (q n : String) (r : ColumnRef) (lp rp : Nat) :
    (equality (column (.qualified q n) lp) (column r rp)).text =
      q ++ "." ++ (n ++ " " ++ ("= " ++ r.text)) := by
  rw [text_equality]
  simp only [ColumnRef.text, ColumnRef.qualified, String.append_assoc]

/-- A qualifier on the left shows, although it may have spaces: it ends at the first dot, and
in an equality without it a name alone stands behind the first dot. -/
theorem text_plain_ne_qualified {l q n : String} {r r' : ColumnRef} {lp rp lp' rp' : Nat}
    (hl : Lacks l '.') (hq : Lacks q '.') (hr : r.Legible) :
    (equality (column (.plain l) lp) (column r rp)).text ≠
      (equality (column (.qualified q n) lp') (column r' rp')).text := by
  intro h
  rw [text_equality_qualified, text_equality] at h
  obtain ⟨q', name⟩ := r
  cases q' with
  | none =>
    have hdot : ¬ Lacks (q ++ "." ++ (n ++ " " ++ ("= " ++ r'.text))) '.' := by simp [Lacks]
    refine hdot (h ▸ ?_)
    exact lacks_append.mpr
      ⟨lacks_append.mpr ⟨hl, by decide⟩, lacks_append.mpr ⟨by decide, hr.undotted.2⟩⟩
  | some q' =>
    have hfirst : Lacks (l ++ " " ++ ("= " ++ q')) '.' := lacks_append.mpr
      ⟨lacks_append.mpr ⟨hl, by decide⟩, lacks_append.mpr ⟨by decide, hr.undotted.1 q' rfl⟩⟩
    have hsplit : l ++ " " ++ ("= " ++ q') ++ "." ++ name =
        q ++ "." ++ (n ++ " " ++ ("= " ++ r'.text)) := by
      simpa only [ColumnRef.text, ColumnRef.plain, String.append_assoc] using h
    have hname : name = n ++ " " ++ ("= " ++ r'.text) := (Lacks.split hfirst hq hsplit).2
    have hspace : ¬ Lacks (n ++ " " ++ ("= " ++ r'.text)) ' ' := by simp [Lacks]
    exact hspace (hname ▸ hr.unspaced)

/-- The sides of an equality are told by its text. -/
theorem sides_of_text_eq {l r l' r' : ColumnRef} {lp rp lp' rp' : Nat} (hl : l.Legible)
    (hr : r.Legible) (hl' : l'.Legible) (hr' : r'.Legible)
    (h : (equality (column l lp) (column r rp)).text =
      (equality (column l' lp') (column r' rp')).text) : l = l' ∧ r = r' := by
  -- Past the qualifiers, if there are any, the names on the left end at the first space.
  have hnames : ∀ {n n' : String}, Lacks n ' ' → Lacks n' ' ' →
      n ++ " " ++ ("= " ++ r.text) = n' ++ " " ++ ("= " ++ r'.text) → n = n' ∧ r = r' := by
    intro n n' hn hn' heq
    obtain ⟨hname, hrest⟩ := Lacks.split hn hn' heq
    refine ⟨hname, hr.undotted.eq_of_text_eq hr'.undotted (String.toList_inj.mp ?_)⟩
    simpa using congrArg String.toList hrest
  obtain ⟨q, n⟩ := l
  obtain ⟨q', n'⟩ := l'
  cases q with
  | none =>
    cases q' with
    | none =>
      rw [text_equality, text_equality] at h
      obtain ⟨rfl, rfl⟩ := hnames hl.unspaced hl'.unspaced h
      exact ⟨rfl, rfl⟩
    | some q' => exact absurd h (text_plain_ne_qualified hl.undotted.2 (hl'.undotted.1 q' rfl) hr)
  | some q =>
    cases q' with
    | none =>
      exact absurd h.symm (text_plain_ne_qualified hl'.undotted.2 (hl.undotted.1 q rfl) hr')
    | some q' =>
      have hboth := (text_equality_qualified q n r lp rp).symm.trans
        (h.trans (text_equality_qualified q' n' r' lp' rp'))
      obtain ⟨rfl, hrest⟩ := Lacks.split (hl.undotted.1 q rfl) (hl'.undotted.1 q' rfl) hboth
      obtain ⟨rfl, rfl⟩ := hnames hl.unspaced hl'.unspaced hrest
      exact ⟨rfl, rfl⟩

/-! ### References of a normalized condition -/

theorem columns_opposite (e : Expr) (p : Nat) : (e.opposite p).columns = e.columns := by
  fun_induction opposite p e with
  | case1 => rfl
  | case2 left right q ihl ihr => simp [columns, ihl, ihr]
  | case3 left right q ihl ihr => simp [columns, ihl, ihr]
  | case4 => simp [columns]
  | case5 => simp [notOf, columns]
  | case6 => simp [notOf, columns]

theorem columnsOfList_map (es : List Expr) {f : Expr → Expr}
    (h : ∀ e ∈ es, (f e).columns = e.columns) :
    columnsOfList (es.map f) = columnsOfList es := by
  rw [columnsOfList_eq_flatMap, columnsOfList_eq_flatMap, List.flatMap_map]
  exact congrArg List.flatten (List.map_congr_left h)

/-- Pushing negations to the leaves keeps the references. -/
theorem columns_pushNegations (e : Expr) : e.pushNegations.columns = e.columns := by
  induction e using Expr.induct with
  | column ref p => rfl
  | constant text p => rfl
  | queryRef text p => rfl
  | unary op operand p ih =>
    cases op with
    | neg => simp [pushNegations, columns, ih]
    | not => simp [pushNegations, columns, columns_opposite, ih]
  | binary op left right p ihl ihr => simp [pushNegations, columns, ihl, ihr]
  | call name args p ih =>
    simp only [pushNegations, columns, pushNegationsList_eq_map, columnsOfList_map args ih]
  | inList operand list p ih ihs =>
    simp only [pushNegations, columns, pushNegationsList_eq_map, columnsOfList_map list ihs, ih]

theorem columns_of_mem_conjuncts {e c : Expr} (hc : c ∈ e.conjuncts) {ref : ColumnRef × Nat}
    (href : ref ∈ c.columns) : ref ∈ e.columns := by
  fun_induction conjuncts e with
  | case1 left right p ihl ihr =>
    rcases List.mem_append.mp hc with hc | hc
    · exact List.mem_append_left _ (ihl hc)
    · exact List.mem_append_right _ (ihr hc)
  | case2 e hnot =>
    obtain rfl := List.mem_singleton.mp hc
    exact href

/-- The conjuncts of a normalized condition have no reference that the condition does not
have. -/
theorem Unspaced.conjunct {e c : Expr} (h : e.Unspaced) (hc : c ∈ e.pushNegations.conjuncts) :
    c.Unspaced := by
  intro ref href
  have hmem := columns_of_mem_conjuncts hc href
  rw [columns_pushNegations] at hmem
  exact h ref hmem

end Expr

end SeriesQuery
