import SeriesQuery.Proofs.Statement.Running

/-!
Expressions in front of a clause.

What the lexemes of an expression are read as does not depend on what stands after them, as long
as the next one cannot go on with the expression (`Expr.parser_followed`). A reader that answers
before the end of its lexemes never comes to look at what follows, and one that comes to their
end either fails there or asks for a comma, an opening parenthesis, an `in` or an operator;
`Parser.StableAt` carries this from one reader to the next. The loops of the grammar allow as
many rounds as there are lexemes left, so more lexemes mean more rounds: `Parser.StepAt` says of
a round that it takes a lexeme, so that the rounds never run out and their number is of no
account.
-/

namespace SeriesQuery

/-- The cursor with more lexemes after its own. -/
def Cursor.followed (c : Cursor) (rest : List Lexeme) : Cursor :=
  { c with after := c.after ++ rest }

theorem Cursor.length_followed (c : Cursor) (rest : List Lexeme) :
    (c.followed rest).after.length = c.after.length + rest.length :=
  List.length_append

theorem Cursor.advance_followed {c : Cursor} {l : Lexeme} {ls : List Lexeme}
    (h : c.after = l :: ls) (rest : List Lexeme) :
    (c.followed rest).advance = c.advance.followed rest := by
  obtain ⟨before, after, endPosition, depth⟩ := c
  obtain rfl : after = l :: ls := h
  rfl

theorem Cursor.after_advance {c : Cursor} {l : Lexeme} {ls : List Lexeme} (h : c.after = l :: ls) :
    c.advance.after = ls := by
  simp only [advance, h]

namespace Parser

variable {α β : Type} {rest : List Lexeme} {c : Cursor} {l : Lexeme} {ls : List Lexeme}

/-- Where the reader answers at the cursor it puts nothing back, and it answers the same with
`rest` behind the lexemes of the cursor, which is then left in place. -/
def StableAt (rest : List Lexeme) (p : Parser α) (c : Cursor) : Prop :=
  ∀ a c', p c = .ok a c' →
    c'.after.length ≤ c.after.length ∧ p (c.followed rest) = .ok a (c'.followed rest)

/-- A step of a loop: it is stable, and takes a lexeme where it answers a value. -/
structure StepAt (rest : List Lexeme) (step : Parser (Option α)) (c : Cursor) : Prop where
  stable : StableAt rest step c
  advances : ∀ a c', step c = .ok (some a) c' → c'.after.length < c.after.length

namespace StableAt

variable {p : Parser α} {f : α → Parser β}

theorem of_fails (h : ∀ a c', p c ≠ .ok a c') : StableAt rest p c :=
  fun a c' hrun => absurd hrun (h a c')

/-- The reader answers without a lexeme, be there more or not. -/
theorem of_stays {a : α} (h : p c = .ok a c) (h' : p (c.followed rest) = .ok a (c.followed rest)) :
    StableAt rest p c := by
  intro b c' hrun
  rw [h] at hrun
  cases hrun
  exact ⟨Nat.le_refl _, h'⟩

/-- Nothing is answered where no lexeme is left. -/
theorem of_ends (hc : c.after = [])
    (h : ∀ before endPosition depth a c', p ⟨before, [], endPosition, depth⟩ ≠ .ok a c') :
    StableAt rest p c := by
  obtain ⟨before, after, endPosition, depth⟩ := c
  obtain rfl : after = [] := hc
  exact of_fails (h before endPosition depth)

theorem fail {position : Nat} {fault : Fault} :
    StableAt rest (Parser.fail position fault : Parser α) c :=
  of_fails nofun

theorem pure (a : α) : StableAt rest (Pure.pure a) c :=
  of_stays rfl rfl

theorem bind (hp : StableAt rest p c) (hf : ∀ a c', p c = .ok a c' → StableAt rest (f a) c') :
    StableAt rest (p >>= f) c := by
  intro b c₂ hrun
  obtain ⟨a, c₁, hfirst, hthen⟩ := bind_eq_ok.mp hrun
  obtain ⟨hle, hfirst'⟩ := hp a c₁ hfirst
  obtain ⟨hle', hthen'⟩ := hf a c₁ hfirst b c₂ hthen
  exact ⟨Nat.le_trans hle' hle, bind_eq_ok.mpr ⟨a, c₁.followed rest, hfirst', hthen'⟩⟩

theorem bind_pure {g : α → β} (hp : StableAt rest p c) :
    StableAt rest (p >>= fun a => Pure.pure (g a)) c :=
  bind hp fun _ _ _ => pure _

/-- A look at a lexeme that is there. -/
theorem peek_bind {g : Option Lexeme → Parser β} (hc : c.after = l :: ls)
    (h : StableAt rest (g (some l)) c) : StableAt rest (Parser.peek >>= g) c := by
  intro b c' hrun
  have hstep : ∀ c₁ : Cursor, c₁.after.head? = some l → (Parser.peek >>= g) c₁ = g (some l) c₁ :=
    fun c₁ h₁ => by rw [Parser.peek_bind, h₁]
  rw [hstep c (by rw [hc]; rfl)] at hrun
  rw [hstep (c.followed rest) (by rw [Cursor.followed, hc]; rfl)]
  exact h b c' hrun

/-- A lexeme is taken that is there. -/
theorem next_bind {g : Option Lexeme → Parser β} (hc : c.after = l :: ls)
    (h : StableAt rest (g (some l)) c.advance) : StableAt rest (Parser.next >>= g) c := by
  intro b c' hrun
  have hstep : ∀ c₁ : Cursor, c₁.after.head? = some l →
      (Parser.next >>= g) c₁ = g (some l) c₁.advance :=
    fun c₁ h₁ => by rw [Parser.next_bind, h₁]
  rw [hstep c (by rw [hc]; rfl)] at hrun
  rw [hstep (c.followed rest) (by rw [Cursor.followed, hc]; rfl), Cursor.advance_followed hc]
  obtain ⟨hle, hrun'⟩ := h b c' hrun
  rw [Cursor.after_advance hc] at hle
  exact ⟨by rw [hc]; exact Nat.le_succ_of_le hle, hrun'⟩

/-- A token is asked for that what follows does not begin with. -/
theorem accept {q : Token → Bool} (hq : c.after = [] → ∀ l ∈ rest.head?, q l.token = false) :
    StableAt rest (Parser.accept q) c := by
  cases hc : c.after with
  | cons l ls =>
    refine peek_bind hc ?_
    dsimp only
    split
    · exact next_bind hc (pure _)
    · exact pure _
  | nil =>
    have hends : ∀ c₁ : Cursor, (∀ l ∈ c₁.after.head?, q l.token = false) →
        Parser.accept q c₁ = .ok false c₁ := by
      intro c₁ h₁
      rw [Parser.accept, Parser.peek_bind]
      cases hl : c₁.after.head? with
      | none => rfl
      | some l =>
        simp only [h₁ l hl, Bool.false_eq_true, if_false]
        rfl
    exact of_stays (hends c (by simp [hc]))
      (hends _ (by simpa [Cursor.followed, hc] using hq hc))

theorem needNext : StableAt rest Parser.needNext c := by
  cases hc : c.after with
  | cons l ls => exact next_bind hc (pure l)
  | nil => exact of_ends hc nofun

theorem needToken (token : Token) : StableAt rest (Parser.needToken token) c := by
  refine bind needNext fun l c' _ => ?_
  split
  · exact pure l
  · exact fail

theorem nested (position : Nat) (h : ∀ c, StableAt rest p c) :
    StableAt rest (Parser.nested position p) c := by
  intro a c' hrun
  simp only [Parser.nested] at hrun
  split at hrun
  · rename_i hdepth
    split at hrun
    · rename_i c₁ hinner
      cases hrun
      obtain ⟨hle, hinner'⟩ := h _ _ _ hinner
      refine ⟨hle, ?_⟩
      simp only [Cursor.followed] at hinner' ⊢
      simp only [Parser.nested, hdepth, if_true, hinner']
    · cases hrun
  · cases hrun

end StableAt

namespace StepAt

variable {step : Parser (Option α)}

theorem none : StepAt rest (Pure.pure (none : Option α)) c where
  stable := .pure _
  advances := nofun

/-- A lexeme is taken that is there, and then what is stable. -/
theorem next_bind {g : Option Lexeme → Parser (Option α)} (hc : c.after = l :: ls)
    (h : StableAt rest (g (some l)) c.advance) : StepAt rest (Parser.next >>= g) c where
  stable := .next_bind hc h
  advances a c' hrun := by
    rw [Parser.next_bind, hc] at hrun
    have hle := (h _ _ hrun).1
    rw [Cursor.after_advance hc] at hle
    rw [hc]
    exact Nat.lt_succ_of_le hle

theorem peek_bind {g : Option Lexeme → Parser (Option α)} (hc : c.after = l :: ls)
    (h : StepAt rest (g (some l)) c) : StepAt rest (Parser.peek >>= g) c where
  stable := .peek_bind hc h.stable
  advances a c' hrun := by
    rw [Parser.peek_bind, hc] at hrun
    exact h.advances a c' hrun

/-- Enough rounds are as good as any more of them, for any number of lexemes that follow. -/
theorem collect (h : ∀ c, StepAt rest step c) {n m : Nat} {as : List α} {c' : Cursor}
    (hn : c.after.length < n) (hm : (c.followed rest).after.length < m)
    (hrun : Parser.collect step n c = .ok as c') :
    c'.after.length ≤ c.after.length ∧
      Parser.collect step m (c.followed rest) = .ok as (c'.followed rest) := by
  induction n generalizing m c as c' with
  | zero => exact absurd hn (Nat.not_lt_zero _)
  | succ n ih =>
    obtain ⟨m, rfl⟩ := Nat.exists_eq_add_one_of_ne_zero (Nat.ne_zero_of_lt hm)
    simp only [Parser.collect, bind_eq_ok] at hrun ⊢
    obtain ⟨a?, c₁, hstep, hrun⟩ := hrun
    obtain ⟨hle, hstep'⟩ := (h c).stable a? c₁ hstep
    cases a? with
    | none =>
      cases hrun
      exact ⟨hle, Option.none, _, hstep', rfl⟩
    | some a =>
      obtain ⟨as, c₂, hothers, hrun⟩ := bind_eq_ok.mp hrun
      cases hrun
      have hlt := (h c).advances a c₁ hstep
      rw [Cursor.length_followed] at hm
      obtain ⟨hle', hothers'⟩ :=
        ih (m := m) (by omega) (by rw [Cursor.length_followed]; omega) hothers
      exact ⟨Nat.le_trans hle' hle, some a, _, hstep', bind_eq_ok.mpr ⟨as, _, hothers', rfl⟩⟩

end StepAt

/-- Items and the commas between them, where what follows does not begin with a comma. -/
theorem StableAt.commaList {item : Parser α} (hitem : ∀ c, StableAt rest item c)
    (hcomma : ∀ l ∈ rest.head?, l.token ≠ .comma) (c : Cursor) :
    StableAt rest (Parser.commaList item) c := by
  have hstep : ∀ c, StepAt rest
      (do if ← Parser.accept (· = .comma) then return some (← item) else return none) c := by
    intro c
    have haccept : StableAt rest (Parser.accept (· = .comma)) c :=
      .accept fun _ l hl => decide_eq_false (hcomma l hl)
    constructor
    · refine .bind haccept fun taken c' _ => ?_
      split
      · exact .bind_pure (hitem c')
      · exact .pure _
    · intro a c₂ hrun
      obtain ⟨taken, c₁, htaken, hrun⟩ := bind_eq_ok.mp hrun
      rcases of_accept htaken with ⟨rfl, -, -⟩ | ⟨l, rfl, hafter, -⟩
      · cases hrun
      · obtain ⟨a, c₃, hread, hrun⟩ := bind_eq_ok.mp hrun
        cases hrun
        rw [hafter]
        exact Nat.lt_succ_of_le (hitem c₁ _ _ hread).1
  refine .bind (hitem c) fun first c₁ _ => .bind_pure fun others c₂ hrun => ?_
  exact StepAt.collect hstep (Nat.lt_succ_self _) (Nat.lt_succ_self _) hrun

end Parser

/-! ### The grammar of expressions -/

open SeriesQuery.Parser

/-- No expression goes on with the token, and no list of expressions does. -/
structure Token.EndsExpr (t : Token) : Prop where
  comma : t ≠ .comma
  opening : t ≠ .leftParen
  list : t.isWord "in" = false
  operator : Grammar.operator? t = none

namespace Grammar

variable {inner : Grammar} {rest : List Lexeme} {c : Cursor}

/-- The readers of a level are stable. -/
structure Stable (rest : List Lexeme) (g : Grammar) : Prop where
  expr : ∀ least c, StableAt rest (g.expr least) c
  unary : ∀ c, StableAt rest g.unary c

/-- Nothing is read where no lexeme is left or a comma comes first. -/
def NeedsOperand (g : Grammar) : Prop :=
  ∀ least c, (∀ l ∈ c.after.head?, l.token = .comma) → ∀ e c', g.expr least c ≠ .ok e c'

theorem operand_needs (hc : ∀ l ∈ c.after.head?, l.token = .comma) {e : Expr} {c' : Cursor} :
    operand inner c ≠ .ok e c' := by
  obtain ⟨before, after, endPosition, depth⟩ := c
  cases after with
  | nil => nofun
  | cons l ls =>
    obtain ⟨token, start, stop⟩ := l
    obtain rfl : token = .comma := hc _ rfl
    nofun

theorem deep_needsOperand (levels : Nat) : (deep levels).NeedsOperand := by
  intro least c hc e c' hrun
  cases levels with
  | zero => cases hrun
  | succ levels =>
    obtain ⟨first, c₁, hoperand, -⟩ := bind_eq_ok.mp hrun
    exact operand_needs hc hoperand

/-- A closing parenthesis that is needed is not looked for in what follows. -/
theorem needClosing_stable : StableAt rest needClosing c := by
  cases hc : c.after with
  | cons l ls =>
    refine .bind (.accept fun h => by rw [hc] at h; cases h) fun taken c' _ => ?_
    split
    · exact .pure ()
    · exact .of_fails nofun
  | nil => exact .of_ends hc nofun

theorem arguments_stable (h : inner.Stable rest) (hneeds : inner.NeedsOperand)
    (hrest : ∀ l ∈ rest.head?, l.token.EndsExpr) : StableAt rest (arguments inner) c := by
  cases hc : c.after with
  | cons l ls =>
    refine .bind (.accept fun h => by rw [hc] at h; cases h) fun taken c' _ => ?_
    split
    · exact .pure _
    · refine .bind (.commaList (h.expr 1) (fun l hl => (hrest l hl).comma) c') fun args c₁ _ => ?_
      exact .bind needClosing_stable fun _ _ _ => .pure _
  | nil =>
    refine .of_ends hc fun before endPosition depth args c' hrun => ?_
    obtain ⟨taken, c₁, htaken, hrun⟩ := bind_eq_ok.mp hrun
    cases htaken
    obtain ⟨items, c₂, hitems, -⟩ := bind_eq_ok.mp hrun
    obtain ⟨first, c₃, hfirst, -⟩ := bind_eq_ok.mp hitems
    exact hneeds 1 _ (by simp) _ _ hfirst

theorem listItems_stable (h : inner.Stable rest) (hrest : ∀ l ∈ rest.head?, l.token.EndsExpr) :
    StableAt rest (listItems inner) c := by
  refine .bind (.needToken _) fun opening c₁ _ => ?_
  refine .bind (.nested _ (.commaList (h.expr 1) fun l hl => (hrest l hl).comma)) fun _ c₂ _ => ?_
  exact .bind needClosing_stable fun _ _ _ => .pure _

section Operands

variable (h : inner.Stable rest) (hneeds : inner.NeedsOperand)
  (hrest : ∀ l ∈ rest.head?, l.token.EndsExpr)

include h hneeds hrest

theorem word_stable {l : Lexeme} {ls : List Lexeme} (hc : c.after = l :: ls) (text : String)
    (position : Nat) : StableAt rest (word inner text position) c := by
  refine .next_bind hc ?_
  split
  · exact .pure _
  · refine .bind (.accept fun _ l hl => decide_eq_false (hrest l hl).opening) fun taken c₁ _ => ?_
    split
    · exact .bind_pure (.nested _ fun _ => arguments_stable h hneeds hrest)
    · exact .pure _

theorem primary_stable : StableAt rest (primary inner) c := by
  cases hc : c.after with
  | cons l ls =>
    refine .peek_bind hc ?_
    dsimp only
    split
    · split
      · exact .fail
      · exact word_stable h hneeds hrest hc _ _
    · exact .next_bind hc (.pure _)
    · exact .next_bind hc (.pure _)
    · exact .next_bind hc (.pure _)
    · refine .next_bind hc (.bind (.nested _ (h.expr 1)) fun e c₁ _ => ?_)
      exact .bind needClosing_stable fun _ _ _ => .pure _
    · exact .fail
  | nil => exact .of_ends hc nofun

theorem signed_stable : StableAt rest (signed inner) c := by
  cases hc : c.after with
  | cons l ls =>
    refine .peek_bind hc ?_
    dsimp only
    split
    · exact .next_bind hc (.bind_pure (.nested _ h.unary))
    · exact primary_stable h hneeds hrest
  | nil => exact .of_ends hc nofun

theorem operand_stable : StableAt rest (operand inner) c := by
  cases hc : c.after with
  | cons l ls =>
    refine .peek_bind hc ?_
    dsimp only
    split
    · exact .next_bind hc (.bind_pure (.nested _ (h.expr _)))
    · exact signed_stable h hneeds hrest
  | nil => exact .of_fails fun e c' => operand_needs (by simp [hc])

end Operands

section Loop

variable {right : Nat → Parser Expr} {least : Nat}

/-- No operator is found where the next token is none. -/
theorem continuation_ends
    (h : ∀ l ∈ c.after.head?, l.isWord "in" = false ∧ operator? l.token = none) (left : Expr) :
    continuation inner right least left c = .ok none c := by
  rw [continuation, peek_bind]
  cases hl : c.after.head? with
  | none => rfl
  | some l =>
    obtain ⟨hlist, hoperator⟩ := h l hl
    simp only [hlist, hoperator, Bool.false_eq_true, if_false]
    rfl

/-- An operator that goes on with an expression takes a lexeme, and there is none in what
follows. -/
theorem continuation_stepAt (h : inner.Stable rest) (hrest : ∀ l ∈ rest.head?, l.token.EndsExpr)
    (hright : ∀ least c, StableAt rest (right least) c) (left : Expr) :
    StepAt rest (continuation inner right least left) c := by
  cases hc : c.after with
  | cons l ls =>
    refine .peek_bind hc ?_
    dsimp only
    split
    · split
      · exact .none
      · exact .next_bind hc (.bind_pure (listItems_stable h hrest))
    · split
      · exact .none
      · split
        · exact .none
        · exact .next_bind hc (.bind_pure (hright _ _))
  | nil =>
    have hnone : continuation inner right least left c = .ok none c :=
      continuation_ends (by simp [hc]) left
    have hnone' : continuation inner right least left (c.followed rest) =
        .ok none (c.followed rest) := by
      refine continuation_ends (fun l hl => ?_) left
      rw [Cursor.followed, hc] at hl
      exact ⟨(hrest l hl).list, (hrest l hl).operator⟩
    refine ⟨.of_stays hnone hnone', fun e c' hrun => ?_⟩
    rw [hnone] at hrun
    cases hrun

theorem continuations_followed
    (hstep : ∀ left c, StepAt rest (continuation inner right least left) c) {n m : Nat}
    {left e : Expr} {c' : Cursor} (hn : c.after.length < n)
    (hm : (c.followed rest).after.length < m)
    (hrun : continuations inner right least n left c = .ok e c') :
    c'.after.length ≤ c.after.length ∧
      continuations inner right least m left (c.followed rest) = .ok e (c'.followed rest) := by
  induction n generalizing m left c with
  | zero => exact absurd hn (Nat.not_lt_zero _)
  | succ n ih =>
    obtain ⟨m, rfl⟩ := Nat.exists_eq_add_one_of_ne_zero (Nat.ne_zero_of_lt hm)
    simp only [continuations, bind_eq_ok] at hrun ⊢
    obtain ⟨e?, c₁, hfirst, hrun⟩ := hrun
    obtain ⟨hle, hfirst'⟩ := (hstep left c).stable e? c₁ hfirst
    cases e? with
    | none =>
      cases hrun
      exact ⟨hle, none, _, hfirst', rfl⟩
    | some next =>
      have hlt := (hstep left c).advances next c₁ hfirst
      rw [Cursor.length_followed] at hm
      obtain ⟨hle', hrun'⟩ :=
        ih (m := m) (by omega) (by rw [Cursor.length_followed]; omega) hrun
      exact ⟨Nat.le_trans hle' hle, some next, _, hfirst', hrun'⟩

end Loop

theorem climb_stable (h : inner.Stable rest) (hneeds : inner.NeedsOperand)
    (hrest : ∀ l ∈ rest.head?, l.token.EndsExpr) (strengths least : Nat) (c : Cursor) :
    StableAt rest (climb inner strengths least) c := by
  induction strengths generalizing least c with
  | zero => exact operand_stable h hneeds hrest
  | succ strengths ih =>
    refine .bind (operand_stable h hneeds hrest) fun left c₁ _ e c₂ hrun => ?_
    exact continuations_followed (fun left c => continuation_stepAt h hrest ih left)
      (Nat.lt_succ_self _) (Nat.lt_succ_self _) hrun

/-- The readers of every level are stable. -/
theorem deep_stable (hrest : ∀ l ∈ rest.head?, l.token.EndsExpr) (levels : Nat) :
    (deep levels).Stable rest := by
  induction levels with
  | zero => exact ⟨fun _ _ => .of_fails nofun, fun _ => .of_fails nofun⟩
  | succ levels ih =>
    have hneeds := deep_needsOperand levels
    exact ⟨climb_stable ih hneeds hrest maxStrength, fun _ => signed_stable ih hneeds hrest⟩

end Grammar

/-- An expression is read the same whatever follows its lexemes, if the next one cannot go on
with it. -/
theorem Expr.parser_followed {rest : List Lexeme} (hrest : ∀ l ∈ rest.head?, l.token.EndsExpr)
    {c c' : Cursor} {e : Expr} (h : Expr.parser c = .ok e c') :
    Expr.parser (c.followed rest) = .ok e (c'.followed rest) :=
  ((Grammar.deep_stable hrest (maxNesting + 1)).expr 1 c e c' h).2

end SeriesQuery
