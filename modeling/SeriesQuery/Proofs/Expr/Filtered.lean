import SeriesQuery.Proofs.Expr.Normal
import SeriesQuery.Proofs.Expr.Reading
import SeriesQuery.Proofs.Positions.Expr

/-!
The filter that a condition becomes, printed and compiled again.

A filter holds the conjuncts of a condition whose negations are at the leaves
(`Expr.filtered`). What its text stands for has the same conjuncts, so it becomes the same
filter again (`Expr.text_filtered_again`). The filter is made of the tokens of the condition
(`Expr.FromTokens.filtered`) and its text takes no more than twice as many nesting levels
(`Expr.depth_filtered_le`).
-/

namespace SeriesQuery.Expr

/-! ### What a text stands for -/

theorem strength_called (e : Expr) : e.called.strength = e.strength := by
  cases e with
  | unary op operand =>
    cases op with
    | neg =>
      rw [called_neg]
      rfl
    | not =>
      rw [called_not]
      rfl
  | _ => rfl

theorem position_called (e : Expr) : e.called.position = e.position := by
  cases e with
  | unary op operand =>
    cases op with
    | neg =>
      rw [called_neg]
      rfl
    | not =>
      rw [called_not]
      rfl
  | _ => rfl

theorem strength_afterSign (e : Expr) : e.afterSign.strength = e.strength := by
  cases e with
  | unary op =>
    cases op with
    | neg => exact strength_called _
    | not => rfl
  | _ => exact strength_called _

theorem text_afterSign {e : Expr} (h : e.called.text = e.text) : e.afterSign.text = e.text := by
  cases e with
  | unary op operand p =>
    cases op with
    | neg => exact h
    | not => simpa [afterSign, text, textList] using h
  | _ => exact h

/-- What a text stands for has that text. -/
theorem text_called (e : Expr) : e.called.text = e.text := by
  have hlist : ∀ es : List Expr, (∀ e ∈ es, e.called.text = e.text) →
      textList (calledList es) = textList es := by
    intro es h
    simp only [textList_eq_map, calledList_eq_map, List.map_map]
    exact List.map_congr_left h
  induction e using Expr.induct with
  | column => rfl
  | constant => rfl
  | queryRef => rfl
  | unary op operand p ih =>
    cases op with
    | neg => rw [called_neg, text, text, strength_afterSign, text_afterSign ih]
    | not => rw [called_not, text, text, ih]
  | binary op left right p ihl ihr => simp only [called, text, strength_called, ihl, ihr]
  | call name args p ih => simp only [called, text, hlist args ih]
  | inList operand list p ih ihs =>
    have hitems := hlist list ihs
    simp only [textList_eq_map] at hitems
    simp [called, text, textList_eq_map, ih, hitems]

/-- What a text stands for has the references of the expression; those of a list test come in
another order. -/
theorem columns_called (e : Expr) : e.called.columns.Perm e.columns := by
  have hlist : ∀ es : List Expr, (∀ e ∈ es, e.called.columns.Perm e.columns) →
      (columnsOfList (calledList es)).Perm (columnsOfList es) := by
    intro es h
    induction es with
    | nil => exact .nil
    | cons e es ih =>
      obtain ⟨he, hes⟩ := List.forall_mem_cons.mp h
      exact he.append (ih hes)
  induction e using Expr.induct with
  | column => exact .rfl
  | constant => exact .rfl
  | queryRef => exact .rfl
  | unary op operand p ih =>
    cases op with
    | neg =>
      rw [called_neg]
      cases operand with
      | unary op operand q =>
        cases op with
        | neg => exact ih
        | not => simpa [afterSign, columns, columnsOfList] using ih
      | _ => exact ih
    | not =>
      rw [called_not]
      exact ih
  | binary op left right p ihl ihr => exact ihl.append ihr
  | call name args p ih => exact hlist args ih
  | inList operand list p ih ihs =>
    have hitems := hlist list ihs
    simp only [columnsOfList_eq_flatMap] at hitems
    simp only [called, columns, columnsOfList_eq_flatMap, List.flatMap_append, List.flatMap_singleton]
    have hbackwards := ((calledList list).reverse_perm.flatMap_right columns).trans hitems
    exact List.perm_append_comm.trans (ih.append hbackwards)

theorem lacksOpposite_called {e : Expr} (h : e.lacksOpposite = true) :
    e.called.lacksOpposite = true := by
  cases e with
  | unary op operand p =>
    cases op with
    | neg =>
      rw [called_neg]
      rfl
    | not => cases h
  | binary op left right p => cases op <;> exact h
  | _ => rfl

/-- What the text of a normal expression stands for is normal. -/
theorem isNormal_called {e : Expr} (h : e.isNormal = true) : e.called.isNormal = true := by
  have hlist : ∀ es : List Expr, (∀ e ∈ es, e.isNormal = true → e.called.isNormal = true) →
      isNormalList es = true → ∀ a ∈ calledList es, a.isNormal = true := by
    intro es h hes a ha
    rw [calledList_eq_map] at ha
    obtain ⟨e, he, rfl⟩ := List.mem_map.mp ha
    exact h e he (isNormalList_iff.mp hes e he)
  induction e using Expr.induct with
  | column => rfl
  | constant => rfl
  | queryRef => rfl
  | unary op operand p ih =>
    cases op with
    | neg =>
      rw [called_neg]
      cases operand with
      | unary op operand q =>
        cases op with
        | neg => exact ih h
        | not =>
          have hoperand := ih h
          rw [called_not] at hoperand
          simpa [isNormal, isNormalList, afterSign] using (Bool.and_eq_true_iff.mp hoperand).2
      | _ => exact ih h
    | not =>
      obtain ⟨hlacks, hoperand⟩ := Bool.and_eq_true_iff.mp h
      rw [called_not]
      exact Bool.and_eq_true_iff.mpr ⟨lacksOpposite_called hlacks, ih hoperand⟩
  | binary op left right p ihl ihr =>
    obtain ⟨hl, hr⟩ := Bool.and_eq_true_iff.mp h
    exact Bool.and_eq_true_iff.mpr ⟨ihl hl, ihr hr⟩
  | call name args p ih => exact isNormalList_iff.mpr (hlist args ih h)
  | inList operand list p ih ihs =>
    obtain ⟨hoperand, hitems⟩ := Bool.and_eq_true_iff.mp h
    refine isNormalList_iff.mpr fun a ha => ?_
    rcases List.mem_append.mp ha with ha | ha
    · exact hlist list ihs hitems a (List.mem_reverse.mp ha)
    · rw [List.mem_singleton.mp ha]
      exact ih hoperand

/-! ### Conjuncts joined again -/

theorem conjuncts_of_isNot_and {e : Expr} (h : ∀ l r p, e ≠ binary .and l r p) :
    e.conjuncts = [e] := by
  fun_cases conjuncts e with
  | case1 l r p => exact absurd rfl (h l r p)
  | case2 => rfl

/-- A conjunct is no conjunction itself. -/
theorem conjuncts_of_mem_conjuncts {e c : Expr} (h : c ∈ e.conjuncts) : c.conjuncts = [c] := by
  fun_induction conjuncts e with
  | case1 left right p ihl ihr => exact (List.mem_append.mp h).elim ihl ihr
  | case2 e hnot =>
    obtain rfl := List.mem_singleton.mp h
    exact conjuncts_of_isNot_and hnot

theorem conjuncts_foldl_conj (first : Expr) {es : List Expr} (h : ∀ e ∈ es, e.conjuncts = [e]) :
    (es.foldl conj first).conjuncts = first.conjuncts ++ es := by
  induction es generalizing first with
  | nil => simp
  | cons e es ih =>
    obtain ⟨he, hes⟩ := List.forall_mem_cons.mp h
    rw [List.foldl_cons, ih _ hes, conj, conjuncts, he, List.append_assoc, List.singleton_append]

theorem conjuncts_ne_nil (e : Expr) : e.conjuncts ≠ [] := by
  fun_induction conjuncts e with
  | case1 left right p ihl => simp [ihl]
  | case2 => simp

theorem called_conj (a b : Expr) : (conj a b).called = conj a.called b.called := by
  rw [conj, conj, called, position_called]

theorem called_foldl_conj (first : Expr) (es : List Expr) :
    (es.foldl conj first).called = (es.map called).foldl conj first.called := by
  induction es generalizing first with
  | nil => rfl
  | cons e es ih => rw [List.foldl_cons, ih, called_conj, List.map_cons, List.foldl_cons]

theorem conjuncts_called (e : Expr) : e.called.conjuncts = e.conjuncts.map called := by
  fun_induction conjuncts e with
  | case1 left right p ihl ihr => rw [called, conjuncts, ihl, ihr, List.map_append]
  | case2 e hnot =>
    refine conjuncts_of_isNot_and fun l r q heq => ?_
    cases e with
    | unary op operand p =>
      cases op with
      | neg =>
        rw [called_neg] at heq
        cases heq
      | not =>
        rw [called_not] at heq
        cases heq
    | binary op left right p =>
      cases heq
      exact hnot left right _ rfl
    | _ => cases heq

/-- The filter that a condition becomes: its conjuncts joined from left to right, with their
negations at the leaves. -/
def filtered (e : Expr) : Expr :=
  (conjunction e.pushNegations.conjuncts).getD e

theorem conjunction_conjuncts (e : Expr) :
    conjunction e.pushNegations.conjuncts = some e.filtered := by
  unfold filtered
  cases h : e.pushNegations.conjuncts with
  | nil => exact absurd h (conjuncts_ne_nil _)
  | cons first es => rfl

/-- A filter has the conjuncts of its condition. -/
theorem conjuncts_filtered (e : Expr) : e.filtered.conjuncts = e.pushNegations.conjuncts := by
  have hsplit := conjunction_conjuncts e
  have hconjuncts := fun c (h : c ∈ e.pushNegations.conjuncts) => conjuncts_of_mem_conjuncts h
  cases hlist : e.pushNegations.conjuncts with
  | nil => exact absurd hlist (conjuncts_ne_nil _)
  | cons first es =>
    rw [hlist] at hsplit hconjuncts
    obtain ⟨hfirst, hes⟩ := List.forall_mem_cons.mp hconjuncts
    rw [← Option.some.inj hsplit, conjuncts_foldl_conj first hes, hfirst, List.singleton_append]

/-- A property that a conjunction has as soon as its sides have it goes over to a filter. -/
theorem filtered_of_conj {P : Expr → Prop} (hconj : ∀ a b, P a → P b → P (conj a b)) {e : Expr}
    (h : ∀ c ∈ e.pushNegations.conjuncts, P c) : P e.filtered := by
  have hsplit := conjunction_conjuncts e
  cases hlist : e.pushNegations.conjuncts with
  | nil => exact absurd hlist (conjuncts_ne_nil _)
  | cons first es =>
    rw [hlist] at hsplit h
    obtain ⟨hfirst, hes⟩ := List.forall_mem_cons.mp h
    rw [← Option.some.inj hsplit]
    exact List.foldlRecOn es conj hfirst fun _ ha b hb => hconj _ b ha (hes b hb)

theorem isNormal_of_mem_conjuncts {e c : Expr} (h : e.isNormal = true) (hc : c ∈ e.conjuncts) :
    c.isNormal = true := by
  fun_induction conjuncts e with
  | case1 left right p ihl ihr =>
    obtain ⟨hl, hr⟩ := Bool.and_eq_true_iff.mp h
    exact (List.mem_append.mp hc).elim (ihl hl) (ihr hr)
  | case2 e hnot =>
    obtain rfl := List.mem_singleton.mp hc
    exact h

theorem isNormal_filtered (e : Expr) : e.filtered.isNormal = true := by
  refine filtered_of_conj (fun a b ha hb => ?_) fun c hc =>
    isNormal_of_mem_conjuncts (isNormal_pushNegations e) hc
  exact Bool.and_eq_true_iff.mpr ⟨ha, hb⟩

theorem erase_filtered (e : Expr) : e.filtered.erase = e.erase.filtered := by
  have h := conjunction_conjuncts e.erase
  rw [← erase_pushNegations, ← map_erase_conjuncts, ← erase_conjunction, conjunction_conjuncts] at h
  exact Option.some.inj h

/-- What the text of a filter stands for is a filter already. -/
theorem filtered_called_filtered (e : Expr) : e.filtered.called.filtered = e.filtered.called := by
  have h := conjunction_conjuncts e.filtered.called
  rw [pushNegations_eq_self (isNormal_called (isNormal_filtered e)), conjuncts_called,
    conjuncts_filtered] at h
  have hsplit := conjunction_conjuncts e
  cases hlist : e.pushNegations.conjuncts with
  | nil => exact absurd hlist (conjuncts_ne_nil _)
  | cons first es =>
    rw [hlist] at h hsplit
    rw [← Option.some.inj h, ← Option.some.inj hsplit, called_foldl_conj]

/-- **A filter that is read from its text becomes the same filter again.** -/
theorem text_filtered_again {e read : Expr} (h : read.erase = e.filtered.called.erase) :
    read.filtered.text = e.filtered.text :=
  calc read.filtered.text
      = read.erase.filtered.text := by rw [← erase_filtered, text_erase]
    _ = e.filtered.called.filtered.text := by rw [h, ← erase_filtered, text_erase]
    _ = e.filtered.text := by rw [filtered_called_filtered, text_called]

/-- The references of an expression, from left to right. -/
def references (e : Expr) : List ColumnRef :=
  e.columns.map Prod.fst

theorem references_erase (e : Expr) : e.erase.references = e.references := by
  simp [references, unplaced, Function.comp_def]

theorem references_called (e : Expr) : e.called.references.Perm e.references :=
  e.columns_called.map _

/-- A conjunct of a filter that is read from its text refers to what a conjunct of the filter
refers to. -/
theorem exists_conjunct_of_read {e read c : Expr} (h : read.erase = e.filtered.called.erase)
    (hc : c ∈ read.pushNegations.conjuncts) :
    ∃ d ∈ e.pushNegations.conjuncts, c.references.Perm d.references := by
  have hconjuncts : read.pushNegations.conjuncts.map erase =
      (e.pushNegations.conjuncts.map called).map erase :=
    calc read.pushNegations.conjuncts.map erase
        = read.erase.pushNegations.conjuncts := by rw [map_erase_conjuncts, erase_pushNegations]
      _ = e.filtered.called.pushNegations.conjuncts.map erase := by
          rw [h, ← erase_pushNegations, map_erase_conjuncts]
      _ = (e.pushNegations.conjuncts.map called).map erase := by
          rw [pushNegations_eq_self (isNormal_called (isNormal_filtered e)), conjuncts_called,
            conjuncts_filtered]
  have hmem : c.erase ∈ read.pushNegations.conjuncts.map erase := List.mem_map_of_mem hc
  rw [hconjuncts, List.map_map] at hmem
  obtain ⟨d, hd, heq⟩ := List.mem_map.mp hmem
  refine ⟨d, hd, ?_⟩
  have hrefs : c.references = d.called.references := by
    rw [← references_erase c, ← heq, Function.comp_apply, references_erase]
  exact hrefs ▸ d.references_called

/-! ### The tokens of a filter -/

section Tokens

variable {T : Token → Prop}

theorem FromTokens.opposite {e : Expr} (h : FromTokens T false e) (p : Nat) :
    FromTokens T false (e.opposite p) := by
  fun_induction Expr.opposite p e with
  | case1 operand q =>
    cases h with
    | not h => exact h
  | case2 left right q ihl ihr =>
    cases h with
    | binary _ hl hr => exact .binary _ (ihl hl) (ihr hr) q
  | case3 left right q ihl ihr =>
    cases h with
    | binary _ hl hr => exact .binary _ (ihl hl) (ihr hr) q
  | case4 op left right q _ _ negated _ =>
    cases h with
    | binary _ hl hr => exact .binary _ hl hr q
  | case5 => exact .not h p
  | case6 => exact .not h p

/-- Pushing negations to the leaves uses the tokens of the condition only. -/
theorem FromTokens.pushNegations {signed : Bool} {e : Expr} (h : FromTokens T signed e) :
    FromTokens T signed e.pushNegations := by
  induction h with
  | column htoken hname p => exact .column htoken hname p
  | constant htoken hconstant p => exact .constant htoken hconstant p
  | queryRef htoken p => exact .queryRef htoken p
  | neg _ p ih => exact .neg ih p
  | not _ p ih => exact (ih.opposite p).anywhere _
  | binary op _ _ p ihl ihr => exact .binary op ihl ihr p
  | call htoken hname _ p ih =>
    rw [Expr.pushNegations, pushNegationsList_eq_map]
    exact .call htoken hname (by simpa using ih) p
  | inList _ _ p ih ihs =>
    rw [Expr.pushNegations, pushNegationsList_eq_map]
    exact .inList ih (by simpa using ihs) p

theorem FromTokens.conjunct {e c : Expr} (h : FromTokens T false e) (hc : c ∈ e.conjuncts) :
    FromTokens T false c := by
  fun_induction conjuncts e with
  | case1 left right p ihl ihr =>
    cases h with
    | binary _ hl hr => exact (List.mem_append.mp hc).elim (ihl hl) (ihr hr)
  | case2 e hnot =>
    obtain rfl := List.mem_singleton.mp hc
    exact h

/-- A filter is made of the tokens of its condition. -/
theorem FromTokens.filtered {e : Expr} (h : FromTokens T false e) :
    FromTokens T false e.filtered :=
  filtered_of_conj (fun _ _ ha hb => .binary .and ha hb _) fun _ hc => h.pushNegations.conjunct hc

end Tokens

/-! ### Nots in a filter -/

theorem notsApart_of_mem_conjuncts {e c : Expr} (h : e.notsApart = true) (hc : c ∈ e.conjuncts) :
    c.notsApart = true := by
  fun_induction conjuncts e with
  | case1 left right p ihl ihr =>
    obtain ⟨hl, hr⟩ := Bool.and_eq_true_iff.mp h
    exact (List.mem_append.mp hc).elim (ihl (Bool.and_eq_true_iff.mp hl).2) (ihr hr)
  | case2 e hnot =>
    obtain rfl := List.mem_singleton.mp hc
    exact h

/-- Between the conjuncts of a filter stands `and`, which no `not` takes in. -/
theorem notsApart_filtered {e : Expr} (h : e.pushNegations.notsApart = true) :
    e.filtered.notsApart = true := by
  refine filtered_of_conj (fun a b ha hb => ?_) fun c hc => notsApart_of_mem_conjuncts h hc
  have hweak : BinaryOp.and.strength < Grammar.notStrength := by decide
  simp [conj, notsApart, hweak, ha, hb]

/-! ### Nesting in a filter -/

theorem le_enclosedDepth (needed : Bool) (n : Nat) : n ≤ enclosedDepth needed n := by
  unfold enclosedDepth
  split
  · exact Nat.le_succ n
  · exact Nat.le_refl n

theorem depth_and (l r : Expr) (p : Nat) : (binary .and l r p).depth =
    max (enclosedDepth (l.strength < 2) l.depth) (enclosedDepth (r.strength ≤ 2) r.depth) := rfl

theorem depth_or (l r : Expr) (p : Nat) : (binary .or l r p).depth =
    max (enclosedDepth (l.strength < 1) l.depth) (enclosedDepth (r.strength ≤ 1) r.depth) := rfl

/-- The text of a conjunct, in parentheses if it needs them between `and`s, is part of the whole
text. -/
theorem enclosedDepth_conjunct_le {e c : Expr} (hc : c ∈ e.conjuncts) :
    enclosedDepth (c.strength < 2) c.depth ≤ enclosedDepth (e.strength < 2) e.depth := by
  fun_induction conjuncts e with
  | case1 left right p ihl ihr =>
    have hwhole : enclosedDepth ((binary .and left right p).strength < 2)
        (binary .and left right p).depth = (binary .and left right p).depth := rfl
    rw [hwhole, depth_and]
    rcases List.mem_append.mp hc with hc | hc
    · exact Nat.le_trans (ihl hc) (Nat.le_max_left _ _)
    · refine Nat.le_trans (Nat.le_trans (ihr hc) ?_) (Nat.le_max_right _ _)
      by_cases hweak : right.strength < 2
      · simp [hweak, Nat.le_of_lt hweak]
      · rw [decide_eq_false hweak]
        exact le_enclosedDepth _ _
  | case2 e hnot =>
    obtain rfl := List.mem_singleton.mp hc
    exact Nat.le_refl _

theorem strength_ne_of_conjuncts {c : Expr} (h : c.conjuncts = [c]) : c.strength ≠ 2 := by
  cases c with
  | unary op => cases op <;> simp [strength]
  | binary op left right p =>
    cases op with
    | and =>
      have hlength := congrArg List.length h
      have hl := List.length_pos_iff.mpr left.conjuncts_ne_nil
      have hr := List.length_pos_iff.mpr right.conjuncts_ne_nil
      rw [conjuncts, List.length_append, List.length_singleton] at hlength
      omega
    | _ => simp [strength, BinaryOp.strength]
  | _ => simp [strength]

/-- Joining the conjuncts from left to right puts no more parentheses around them. -/
theorem depth_filtered_le_pushNegations (e : Expr) : e.filtered.depth ≤ e.pushNegations.depth := by
  have hsplit := conjunction_conjuncts e
  have hconjuncts := fun c (h : c ∈ e.pushNegations.conjuncts) => conjuncts_of_mem_conjuncts h
  have hbound := fun c (h : c ∈ e.pushNegations.conjuncts) => enclosedDepth_conjunct_le h
  by_cases hand : ∃ l r p, e.pushNegations = binary .and l r p
  · obtain ⟨l, r, p, hand⟩ := hand
    have hwhole : enclosedDepth (e.pushNegations.strength < 2) e.pushNegations.depth =
        e.pushNegations.depth := by
      rw [hand]
      rfl
    rw [hwhole] at hbound
    -- what stands in front of an `and`, in the parentheses it needs there
    have hjoined : enclosedDepth (e.filtered.strength < 2) e.filtered.depth ≤
        e.pushNegations.depth := by
      cases hlist : e.pushNegations.conjuncts with
      | nil => exact absurd hlist (conjuncts_ne_nil _)
      | cons first es =>
        rw [hlist] at hsplit hconjuncts hbound
        rw [← Option.some.inj hsplit]
        refine List.foldlRecOn (motive := fun a => enclosedDepth (a.strength < 2) a.depth ≤
          e.pushNegations.depth) es conj (hbound first List.mem_cons_self) fun a ha b hb => ?_
        have hmem := List.mem_cons_of_mem first hb
        have hweak : b.strength ≤ 2 ↔ b.strength < 2 :=
          ⟨fun hle => Nat.lt_of_le_of_ne hle (strength_ne_of_conjuncts (hconjuncts b hmem)),
            Nat.le_of_lt⟩
        have hside : enclosedDepth (b.strength ≤ 2) b.depth ≤ e.pushNegations.depth := by
          rw [decide_eq_decide.mpr hweak]
          exact hbound b hmem
        exact Nat.max_le.mpr ⟨ha, hside⟩
    exact Nat.le_trans (le_enclosedDepth _ _) hjoined
  · have hsingle := conjuncts_of_isNot_and fun l r p h => hand ⟨l, r, p, h⟩
    rw [hsingle] at hsplit
    rw [← Option.some.inj hsplit]
    exact Nat.le_refl _

theorem two_lt_strength_of_lacksOpposite {e : Expr} (h : e.lacksOpposite = true) :
    2 < e.strength := by
  cases e with
  | unary op => cases op <;> simp [strength]
  | binary op left right p =>
    cases op with
    | or => cases h
    | and => cases h
    | _ => simp [strength, BinaryOp.strength]
  | _ => simp [strength]

theorem strength_of_opposite? {op negated : BinaryOp} (h : op.opposite? = some negated) :
    negated.strength = op.strength ∧ 2 < op.strength := by
  cases op <;> cases h <;> exact ⟨rfl, by decide⟩

/-- An opposite joins conditions the other way or is no `and` and no `or` either. -/
theorem strength_opposite {e : Expr} (h : e.isNormal = true) (p : Nat) :
    (e.strength = 1 ∧ (e.opposite p).strength = 2) ∨ (e.strength = 2 ∧ (e.opposite p).strength = 1) ∨
      (2 < e.strength ∧ 2 < (e.opposite p).strength) := by
  by_cases hlacks : e.lacksOpposite = true
  · rw [opposite_eq_notOf hlacks]
    exact .inr (.inr ⟨two_lt_strength_of_lacksOpposite hlacks, Nat.lt_of_sub_eq_succ rfl⟩)
  · fun_cases opposite p e with
    | case1 operand q =>
      have hoperand := (Bool.and_eq_true_iff.mp h).1
      exact .inr (.inr ⟨Nat.lt_of_sub_eq_succ rfl, two_lt_strength_of_lacksOpposite hoperand⟩)
    | case2 => exact .inr (.inl ⟨rfl, rfl⟩)
    | case3 => exact .inl ⟨rfl, rfl⟩
    | case4 op left right q _ _ negated hop =>
      obtain ⟨hnegated, hstrong⟩ := strength_of_opposite? hop
      have hstrong' : 2 < negated.strength := hnegated ▸ hstrong
      exact .inr (.inr ⟨hstrong, hstrong'⟩)
    | case5 op left right q _ _ hop => simp_all [lacksOpposite]
    | case6 e hnot _ _ hbinary => simp_all [lacksOpposite]

/-- Parentheses go where `and` and `or` change places, and a `not` takes two levels. -/
theorem depth_opposite_le {e : Expr} (h : e.isNormal = true) (p : Nat) :
    (e.opposite p).depth ≤ e.depth + if e.strength < 2 then 3 else 2 := by
  fun_induction opposite p e with
  | case1 operand q =>
    simp only [depth]
    omega
  | case2 left right q ihl ihr =>
    obtain ⟨hl, hr⟩ := Bool.and_eq_true_iff.mp h
    have hsl := strength_opposite hl p
    have hsr := strength_opposite hr p
    have ihl := ihl hl
    have ihr := ihr hr
    have hstrength : (binary .and left right q).strength = 2 := rfl
    simp only [depth_and, depth_or, enclosedDepth, decide_eq_true_eq, hstrength]
    split_ifs at * <;> omega
  | case3 left right q ihl ihr =>
    obtain ⟨hl, hr⟩ := Bool.and_eq_true_iff.mp h
    have hsl := strength_opposite hl p
    have hsr := strength_opposite hr p
    have ihl := ihl hl
    have ihr := ihr hr
    have hstrength : (binary .or left right q).strength = 1 := rfl
    simp only [depth_and, depth_or, enclosedDepth, decide_eq_true_eq, hstrength]
    split_ifs at * <;> omega
  | case4 op left right q _ _ negated hop =>
    have hdepth : (binary negated left right q).depth = (binary op left right q).depth := by
      rw [depth, depth, (strength_of_opposite? hop).1]
    rw [hdepth]
    exact Nat.le_add_right _ _
  | case5 op left right q =>
    rw [notOf, depth]
    split <;> omega
  | case6 e =>
    rw [notOf, depth]
    split <;> omega

/-- Parentheses around the changed text go into the level that is left for them. -/
theorem enclosedDepth_pushNegations_le {e : Expr} (weak : Nat → Bool)
    (hdepth : e.pushNegations.depth ≤ 2 * e.depth)
    (hstrict : e.pushNegations.strength ≠ e.strength → e.pushNegations.depth < 2 * e.depth) :
    enclosedDepth (weak e.pushNegations.strength) e.pushNegations.depth ≤
      2 * enclosedDepth (weak e.strength) e.depth := by
  by_cases hsame : e.pushNegations.strength = e.strength
  · rw [hsame]
    unfold enclosedDepth
    split <;> omega
  · have hlt := hstrict hsame
    have hle := le_enclosedDepth (weak e.strength) e.depth
    have hone : enclosedDepth (weak e.pushNegations.strength) e.pushNegations.depth ≤
        e.pushNegations.depth + 1 := by
      unfold enclosedDepth
      split <;> omega
    omega

theorem depthList_pushNegations_le {es : List Expr}
    (h : ∀ e ∈ es, e.pushNegations.depth ≤ 2 * e.depth) :
    depthList (pushNegationsList es) ≤ 2 * depthList es := by
  refine depthList_le_iff.mpr fun a ha => ?_
  rw [pushNegationsList_eq_map] at ha
  obtain ⟨e, he, rfl⟩ := List.mem_map.mp ha
  exact Nat.le_trans (h e he)
    (Nat.mul_le_mul_left 2 (depthList_le_iff.mp (Nat.le_refl (depthList es)) e he))

/-- Pushing negations to the leaves at most doubles the nesting; where the operator of the whole
changes, a level is left for parentheses around it. -/
theorem depth_pushNegations_le (e : Expr) : e.pushNegations.depth ≤ 2 * e.depth ∧
    (e.pushNegations.strength ≠ e.strength → e.pushNegations.depth < 2 * e.depth) := by
  induction e using Expr.induct with
  | column => exact ⟨Nat.le_refl 0, fun h => absurd rfl h⟩
  | constant => exact ⟨Nat.le_refl 0, fun h => absurd rfl h⟩
  | queryRef => exact ⟨Nat.le_refl 0, fun h => absurd rfl h⟩
  | unary op operand p ih =>
    cases op with
    | neg =>
      have hoperand := enclosedDepth_pushNegations_le (fun n => n ≤ 7) ih.1 ih.2
      refine ⟨?_, fun h => absurd rfl h⟩
      simp only [pushNegations, depth]
      omega
    | not =>
      have hopposite := depth_opposite_le (isNormal_pushNegations operand) p
      have hlevels : (if operand.pushNegations.strength < 2 then 3 else 2) ≤ 3 := by
        split <;> decide
      have hlt : (unary .not operand p).pushNegations.depth < 2 * (unary .not operand p).depth := by
        simp only [pushNegations, depth]
        omega
      exact ⟨Nat.le_of_lt hlt, fun _ => hlt⟩
  | binary op left right p ihl ihr =>
    have hl := enclosedDepth_pushNegations_le (fun n => n < op.strength) ihl.1 ihl.2
    have hr := enclosedDepth_pushNegations_le (fun n => n ≤ op.strength) ihr.1 ihr.2
    refine ⟨?_, fun h => absurd rfl h⟩
    simp only [pushNegations, depth]
    omega
  | call name args p ih =>
    have hargs := depthList_pushNegations_le fun a ha => (ih a ha).1
    refine ⟨?_, fun h => absurd rfl h⟩
    simp only [pushNegations, depth]
    omega
  | inList operand list p ih ihs =>
    have hitems := depthList_pushNegations_le fun a ha => (ihs a ha).1
    refine ⟨?_, fun h => absurd rfl h⟩
    simp only [pushNegations, depth]
    omega

/-- The text of a filter nests no more than twice as deep as its condition. -/
theorem depth_filtered_le (e : Expr) : e.filtered.depth ≤ 2 * e.depth :=
  Nat.le_trans (depth_filtered_le_pushNegations e) (depth_pushNegations_le e).1

end SeriesQuery.Expr
