import SeriesQuery.Proofs.Expr.Lookahead

/-!
The condition of a join.

After an `on` stands a list of names in parentheses or a condition, and the two begin alike.
`JoinCondition.parser` tries the list first, and a list is all it asks for: it does not look at
what stands behind the closing parenthesis. So it reads every condition as one
(`joinCondition_of_expr`), but for those that begin with a single unqualified name in
parentheses. Such a name alone is a list by right; where the condition goes on behind it, the
name is read as a list none the less and the rest of the condition is left.
-/

namespace SeriesQuery

open SeriesQuery.Parser

/-! ### What ends a condition -/

/-- The token ends a condition: it closes the query or the statement, or starts a clause. -/
def Token.EndsClause (t : Token) : Prop :=
  t = .rightParen ∨ t = .semicolon ∨ t.startsClause = true

namespace Token

theorem isWord_of_startsClause {t : Token} (h : t.startsClause = true) {word : String}
    (hword : ∀ keyword ∈ clauseKeywords, Ascii.same word keyword = false) :
    t.isWord word = false := by
  obtain ⟨keyword, hmem, hkeyword⟩ := List.any_eq_true.mp h
  cases t with
  | ident text =>
    have hsame : ¬ Ascii.same text word = true := fun hsame => by
      rw [Ascii.same_comm] at hsame
      have := Ascii.same_trans hsame hkeyword
      rw [hword keyword hmem] at this
      cases this
    exact Bool.eq_false_iff.mpr hsame
  | _ => rfl

/-- No word that starts a clause is an operator. -/
theorem operator?_of_startsClause {t : Token} (h : t.startsClause = true) :
    Grammar.operator? t = none := by
  have hand : t.isWord "and" = false := isWord_of_startsClause h (by decide)
  have hor : t.isWord "or" = false := isWord_of_startsClause h (by decide)
  cases t with
  | ident text =>
    simp only [isWord] at hand hor
    simp only [Grammar.operator?, BinaryOp.ofText?]
    split
    all_goals first
      | (revert h; decide)
      | simp only [hand, hor, Bool.false_eq_true, if_false]
  | op text => simp [startsClause, isWord] at h
  | _ => rfl

theorem EndsClause.endsExpr {t : Token} (h : t.EndsClause) : t.EndsExpr := by
  rcases h with rfl | rfl | h
  · exact ⟨nofun, nofun, rfl, rfl⟩
  · exact ⟨nofun, nofun, rfl, rfl⟩
  · refine ⟨?_, ?_, isWord_of_startsClause h (by decide), operator?_of_startsClause h⟩
    · rintro rfl
      revert h
      decide
    · rintro rfl
      revert h
      decide

end Token

/-! ### Expressions are no lists of names -/

namespace Grammar

variable {inner : Grammar} {c c' : Cursor} {word : Lexeme} {text : String} {ls : List Lexeme}
  {e : Expr}

theorem operand_eq_primary {l : Lexeme} (hc : c.after = l :: ls) (hnot : l.isWord "not" = false)
    (hneg : l.token.isSign "-" = false) : operand inner c = primary inner c := by
  rw [operand, peek_bind, hc]
  simp only [List.head?_cons, hnot, Bool.false_eq_true, if_false]
  rw [signed, peek_bind, hc]
  simp only [List.head?_cons, hneg, Bool.false_eq_true, if_false]

/-- A word in front of a comma, or at the end, is an operand by itself. -/
theorem operand_word (hneeds : inner.NeedsOperand) (hc : c.after = word :: ls)
    (hword : word.token = .ident text) (hls : ∀ l ∈ ls.head?, l.token = .comma)
    (hrun : operand inner c = .ok e c') : c'.after = ls := by
  have hadvance := Cursor.after_advance hc
  cases hnot : word.isWord "not" with
  | true =>
    rw [operand, peek_bind, hc] at hrun
    simp only [List.head?_cons, hnot, if_true] at hrun
    obtain ⟨_, _, hnext, hrun⟩ := bind_eq_ok.mp hrun
    cases hnext
    obtain ⟨operand, c₁, hnested, -⟩ := bind_eq_ok.mp hrun
    obtain ⟨c₂, hinner, -⟩ := of_nested hnested
    exact absurd hinner (hneeds _ _ (by rwa [← hadvance] at hls) _ _)
  | false =>
    rw [operand_eq_primary hc hnot (by rw [hword]; rfl), primary, peek_bind, hc] at hrun
    simp only [List.head?_cons, hword] at hrun
    split at hrun
    · cases hrun
    · obtain ⟨_, _, hnext, hrun⟩ := bind_eq_ok.mp hrun
      cases hnext
      split at hrun
      · cases hrun
        exact hadvance
      · obtain ⟨taken, c₁, htaken, hrun⟩ := bind_eq_ok.mp hrun
        rcases of_accept htaken with ⟨rfl, rfl, -⟩ | ⟨l, -, hafter, hopening⟩
        · cases hrun
          exact hadvance
        · rw [hadvance] at hafter
          rw [hls l (by rw [hafter]; rfl)] at hopening
          cases hopening

theorem deep_expr_word {levels least : Nat} (hc : c.after = word :: ls)
    (hword : word.token = .ident text) (hls : ∀ l ∈ ls.head?, l.token = .comma)
    (hrun : (deep levels).expr least c = .ok e c') : c'.after = ls := by
  cases levels with
  | zero => cases hrun
  | succ levels =>
    obtain ⟨first, c₁, hoperand, hrun⟩ := bind_eq_ok.mp hrun
    have hafter := operand_word (deep_needsOperand levels) hc hword hls hoperand
    obtain ⟨_, _, hget, hrun⟩ := bind_eq_ok.mp hrun
    cases hget
    have hnone : ∀ right, continuation (deep levels) right least first c₁ = .ok none c₁ := by
      intro right
      refine continuation_ends (fun l hl => ?_) first
      rw [hafter] at hl
      rw [Lexeme.isWord, hls l hl]
      exact ⟨rfl, rfl⟩
    obtain ⟨_, _, hstep, hrun⟩ := bind_eq_ok.mp hrun
    rw [hnone] at hstep
    cases hstep
    cases hrun
    exact hafter

/-- What is in parentheses is read to its end. -/
theorem deep_expr_opening {levels least : Nat} {opening : Lexeme} (hc : c.after = opening :: ls)
    (hopening : opening.token = .leftParen)
    (hinner : ∀ c₁ e c₂, c₁.after = ls → (deep levels).expr 1 c₁ = .ok e c₂ →
      ∀ l ∈ c₂.after.head?, l.token ≠ .rightParen) :
    (deep (levels + 1)).expr least c ≠ .ok e c' := by
  intro hrun
  obtain ⟨first, c₁, hoperand, -⟩ := bind_eq_ok.mp hrun
  rw [operand_eq_primary hc (by rw [Lexeme.isWord, hopening]; rfl) (by rw [hopening]; rfl),
    primary, peek_bind, hc] at hoperand
  simp only [List.head?_cons, hopening] at hoperand
  obtain ⟨_, _, hnext, hoperand⟩ := bind_eq_ok.mp hoperand
  cases hnext
  obtain ⟨operand, c₂, hnested, hoperand⟩ := bind_eq_ok.mp hoperand
  obtain ⟨c₃, hread, hafter⟩ := of_nested hnested
  obtain ⟨_, _, hclosing, -⟩ := bind_eq_ok.mp hoperand
  obtain ⟨taken, c₄, htaken, hclosing⟩ := bind_eq_ok.mp hclosing
  rcases of_accept htaken with ⟨rfl, -, -⟩ | ⟨l, -, htail, hl⟩
  · cases hclosing
  · have hhead : l ∈ c₃.after.head? := by rw [hafter, htail]; rfl
    refine hinner _ operand c₃ ?_ hread l hhead (of_decide_eq_true hl)
    exact Cursor.after_advance hc

end Grammar

/-- The lexemes begin as a list of names does that has no end yet: after an opening parenthesis
and a word they go on with a comma or not at all. -/
inductive OpensNames : List Lexeme → Prop where
  | nil : OpensNames []
  | opening {opening : Lexeme} (h : opening.token = .leftParen) : OpensNames [opening]
  | name {opening word : Lexeme} {ls : List Lexeme} {text : String}
      (h : opening.token = .leftParen) (hword : word.token = .ident text)
      (hls : ∀ l ∈ ls.head?, l.token = .comma) : OpensNames (opening :: word :: ls)

/-- No expression begins so. -/
theorem Expr.not_opensNames {c c' : Cursor} {e : Expr} (h : Expr.parser c = .ok e c') :
    ¬ OpensNames c.after := by
  intro hopens
  generalize hc : c.after = ls at hopens
  cases hopens with
  | nil =>
    exact Grammar.deep_needsOperand _ 1 c (by simp [hc]) e c' h
  | opening hopening =>
    refine Grammar.deep_expr_opening hc hopening (fun c₁ e c₂ h₁ hread => ?_) h
    exact absurd hread (Grammar.deep_needsOperand _ 1 c₁ (by simp [h₁]) e c₂)
  | name hopening hword hls =>
    refine Grammar.deep_expr_opening hc hopening (fun c₁ e c₂ h₁ hread l hl => ?_) h
    rw [Grammar.deep_expr_word h₁ hword hls hread] at hl
    rw [hls l hl]
    nofun

/-! ### Lists of names -/

/-- The second cursor is somewhere else in the same statement. -/
structure Cursor.SameText (c c' : Cursor) : Prop where
  lexemes : c'.before.reverse ++ c'.after = c.before.reverse ++ c.after
  endPosition : c'.endPosition = c.endPosition
  depth : c'.depth = c.depth

namespace Cursor.SameText

variable {c c' c'' : Cursor}

theorem refl (c : Cursor) : c.SameText c :=
  ⟨rfl, rfl, rfl⟩

theorem trans (h : c.SameText c') (h' : c'.SameText c'') : c.SameText c'' :=
  ⟨h'.lexemes.trans h.lexemes, h'.endPosition.trans h.endPosition, h'.depth.trans h.depth⟩

theorem advance (c : Cursor) : c.SameText c.advance := by
  obtain ⟨before, after, endPosition, depth⟩ := c
  cases after with
  | nil => exact refl _
  | cons l ls => exact ⟨by simp [Cursor.advance], rfl, rfl⟩

/-- Wherever a reader has come to, the way back is open. -/
theorem reset_index (h : c.SameText c') : c'.reset c.index = c :=
  reset_index_eq h.lexemes h.endPosition h.depth

end Cursor.SameText

/-- The reader answers wherever it stands, and stays in the statement. -/
def Parser.Answers {α : Type} (p : Parser α) : Prop :=
  ∀ c, ∃ a c', p c = .ok a c' ∧ c.SameText c'

namespace Parser.Answers

variable {α β : Type} {p : Parser α} {f : α → Parser β}

theorem pure (a : α) : Answers (Pure.pure a) :=
  fun c => ⟨a, c, rfl, .refl c⟩

theorem bind (hp : Answers p) (hf : ∀ a, Answers (f a)) : Answers (p >>= f) := by
  intro c
  obtain ⟨a, c₁, hfirst, hsame⟩ := hp c
  obtain ⟨b, c₂, hthen, hsame'⟩ := hf a c₁
  exact ⟨b, c₂, bind_eq_ok.mpr ⟨a, c₁, hfirst, hthen⟩, hsame.trans hsame'⟩

theorem next : Answers Parser.next :=
  fun c => ⟨_, _, rfl, .advance c⟩

theorem peek : Answers Parser.peek :=
  fun c => ⟨_, c, rfl, .refl c⟩

theorem get : Answers MonadState.get :=
  fun c => ⟨c, c, rfl, .refl c⟩

theorem accept (q : Token → Bool) : Answers (Parser.accept q) := by
  refine bind peek fun l? => ?_
  split
  · split
    · exact bind next fun _ => pure true
    · exact pure false
  · exact pure false

theorem nameList?_names (rounds : Nat) : Answers (nameList?.names rounds) := by
  induction rounds with
  | zero => exact pure none
  | succ rounds ih =>
    refine bind next fun l? => ?_
    split
    · split
      · exact pure none
      · refine bind next fun l? => ?_
        split
        · exact bind ih fun names? => pure _
        · exact pure _
        · exact pure none
    · exact pure none

/-- The attempt at a list of names never fails. -/
theorem nameList? : Answers SeriesQuery.nameList? := by
  refine bind (accept _) fun taken => ?_
  split
  · exact bind get fun c => nameList?_names _
  · exact pure none

end Parser.Answers

/-- The unqualified name in parentheses that the lexemes begin with, and what follows it. -/
def bracketedName? : List Lexeme → Option (Ident × List Lexeme)
  | ⟨.leftParen, _, _⟩ :: ⟨.ident text, start, _⟩ :: ⟨.rightParen, _, _⟩ :: others =>
    if hasDot text then none else some (⟨text, start⟩, others)
  | _ => none

theorem bracketedName?_qualified {opening word : Lexeme} {ls : List Lexeme} {text : String}
    (hword : word.token = .ident text) (hdot : hasDot text = true) :
    bracketedName? (opening :: word :: ls) = none := by
  unfold bracketedName?
  split
  · rename_i heq
    cases heq
    cases hword
    rw [if_pos hdot]
  · rfl

theorem bracketedName?_unopened {opening : Lexeme} {ls : List Lexeme}
    (h : opening.token ≠ .leftParen) : bracketedName? (opening :: ls) = none := by
  unfold bracketedName?
  split
  · rename_i heq
    cases heq
    exact absurd rfl h
  · rfl

/-- The names in front of the cursor, after an opening parenthesis. -/
theorem of_nameList?_names {c c' : Cursor} {opening : Lexeme} {names? : Option (List Ident)}
    {rounds : Nat} (hopening : opening.token = .leftParen)
    (hopens : ¬ OpensNames (opening :: c.after))
    (h : nameList?.names (rounds + 1) c = .ok names? c') :
    names? = (bracketedName? (opening :: c.after)).map (fun found => [found.1]) ∧
      ∀ found ∈ bracketedName? (opening :: c.after), c'.after = found.2 := by
  obtain ⟨before, after, endPosition, depth⟩ := c
  obtain ⟨token, start, stop⟩ := opening
  obtain rfl : token = .leftParen := hopening
  rw [nameList?.names, next_bind] at h
  cases after with
  | nil => exact absurd (.opening rfl) hopens
  | cons word ls =>
    obtain ⟨token, start, stop⟩ := word
    cases token with
    | ident text =>
      simp only [List.head?_cons] at h
      split at h
      · rename_i hdot
        cases h
        rw [bracketedName?_qualified rfl hdot]
        exact ⟨rfl, nofun⟩
      · rename_i hdot
        rw [next_bind] at h
        cases ls with
        | nil => exact absurd (.name rfl rfl nofun) hopens
        | cons next others =>
          obtain ⟨token, start, stop⟩ := next
          cases token with
          | comma => exact absurd (.name rfl rfl (by simp)) hopens
          | rightParen =>
            cases h
            simp only [bracketedName?, hdot, Bool.false_eq_true, if_false]
            exact ⟨rfl, fun found hfound => by cases hfound; rfl⟩
          | _ =>
            cases h
            exact ⟨rfl, nofun⟩
    | _ =>
      cases h
      exact ⟨rfl, nofun⟩

/-- What is read as a list of names, if the lexemes do not open one that goes on: an unqualified
name in parentheses, whatever follows it. -/
theorem of_nameList? {c c' : Cursor} {names? : Option (List Ident)} (hopens : ¬ OpensNames c.after)
    (hrun : nameList? c = .ok names? c') :
    names? = (bracketedName? c.after).map (fun found => [found.1]) ∧
      ∀ found ∈ bracketedName? c.after, c'.after = found.2 := by
  obtain ⟨taken, c₁, htaken, h⟩ := bind_eq_ok.mp hrun
  rcases of_accept htaken with ⟨rfl, rfl, hopening⟩ | ⟨opening, rfl, hafter, hopening⟩
  · cases h
    cases hc : c'.after with
    | nil => exact ⟨rfl, nofun⟩
    | cons opening ls =>
      have hopening := hopening opening (by rw [hc]; rfl)
      rw [bracketedName?_unopened (of_decide_eq_false hopening)]
      exact ⟨rfl, nofun⟩
  · obtain ⟨_, _, hget, h⟩ := bind_eq_ok.mp h
    cases hget
    rw [hafter] at hopens ⊢
    exact of_nameList?_names (of_decide_eq_true hopening) hopens h

/-! ### The condition -/

/-- Lexemes behind an expression do not change the name in parentheses that it begins with. -/
theorem bracketedName?_append {ts : List Lexeme} (h : ¬ OpensNames ts) (rest : List Lexeme) :
    bracketedName? (ts ++ rest) =
      (bracketedName? ts).map fun found => (found.1, found.2 ++ rest) := by
  match ts, h with
  | [], h => exact absurd .nil h
  | [opening], h =>
    have hopening : opening.token ≠ .leftParen := fun heq => h (.opening heq)
    rw [List.singleton_append, bracketedName?_unopened hopening, bracketedName?_unopened hopening]
    rfl
  | [⟨opening, _, _⟩, ⟨word, _, _⟩], h =>
    cases opening with
    | leftParen =>
      cases word with
      | ident text => exact absurd (.name rfl rfl nofun) h
      | _ => rfl
    | _ => rfl
  | ⟨opening, _, _⟩ :: ⟨word, _, _⟩ :: ⟨closing, _, _⟩ :: others, h =>
    cases opening with
    | leftParen =>
      cases word with
      | ident text =>
        cases closing with
        | rightParen =>
          simp only [List.cons_append, bracketedName?]
          split <;> rfl
        | _ => rfl
      | _ => rfl
    | _ => rfl

theorem JoinCondition.parser_of_nameList? {c c' : Cursor} {names : List Ident}
    (h : nameList? c = .ok (some names) c') : parser c = .ok (.columns names) c' :=
  bind_eq_ok.mpr ⟨c, c, rfl, bind_eq_ok.mpr ⟨some names, c', h, rfl⟩⟩

/-- Where no list of names is found, the expression is read from where the list was tried. -/
theorem JoinCondition.parser_of_none {c c₁ : Cursor} (h : nameList? c = .ok none c₁) {e : Expr}
    {c' : Cursor} (hexpr : Expr.parser c = .ok e c') : parser c = .ok (.on e) c' := by
  obtain ⟨names?, c₂, hnames, hsame⟩ := Parser.Answers.nameList? c
  rw [h] at hnames
  cases hnames
  have hback : (do reset c.index; return .on (← Expr.parser) : Parser JoinCondition) c₁ =
      .ok (.on e) c' := by
    refine bind_eq_ok.mpr ⟨(), c, ?_, bind_eq_ok.mpr ⟨e, c', hexpr, rfl⟩⟩
    rw [reset, hsame.reset_index]
  exact bind_eq_ok.mpr ⟨c, c, rfl, bind_eq_ok.mpr ⟨none, c₁, h, hback⟩⟩

/-- Where an expression is read it is the condition, unless it begins with an unqualified name
in parentheses; then that is. -/
theorem JoinCondition.parser_of_expr {c c' : Cursor} {e : Expr} (h : Expr.parser c = .ok e c') :
    (bracketedName? c.after = none → parser c = .ok (.on e) c') ∧
      ∀ name others, bracketedName? c.after = some (name, others) →
        ∃ c₁, parser c = .ok (.columns [name]) c₁ ∧ c₁.after = others := by
  obtain ⟨names?, c₁, hnames, -⟩ := Parser.Answers.nameList? c
  obtain ⟨rfl, hothers⟩ := of_nameList? (Expr.not_opensNames h) hnames
  constructor
  · intro hnone
    rw [hnone] at hnames
    exact parser_of_none hnames h
  · intro name others hsome
    rw [hsome] at hnames hothers
    exact ⟨c₁, parser_of_nameList? hnames, hothers _ rfl⟩

theorem joinCondition_of_on {kind : JoinKind} (hkind : kind ≠ .cross) {c c' : Cursor} {on : Lexeme}
    {ls : List Lexeme} (hc : c.after = on :: ls) (hon : on.isWord "on" = true)
    {condition : JoinCondition} (h : JoinCondition.parser c.advance = .ok condition c') :
    joinCondition kind c = .ok (some condition) c' := by
  have hread : (do let _ ← next; return some (← JoinCondition.parser) : Parser _) c =
      .ok (some condition) c' :=
    bind_eq_ok.mpr ⟨_, _, rfl, bind_eq_ok.mpr ⟨condition, c', h, rfl⟩⟩
  rw [joinCondition, peek_bind, hc]
  simp only [List.head?_cons, Option.any_some, hon, if_true]
  cases kind with
  | cross => exact absurd rfl hkind
  | _ => exact hread

/-- After `on`, lexemes that are an expression are read as the condition, if what follows them
ends a condition. But an unqualified name in parentheses that they begin with is read as a list
of names: alone it is the condition, and otherwise the rest of the expression is left. -/
theorem joinCondition_of_expr {kind : JoinKind} (hkind : kind ≠ .cross) {c c' : Cursor}
    {on : Lexeme} {ts rest : List Lexeme} {e : Expr} (hon : on.isWord "on" = true)
    (hc : c.after = on :: (ts ++ rest)) (hrest : ∀ l ∈ rest.head?, l.token.EndsClause)
    (hexpr : Expr.parser { c.advance with after := ts } = .ok e c') (hall : c'.after = []) :
    (bracketedName? ts = none →
      ∃ c₁, joinCondition kind c = .ok (some (.on e)) c₁ ∧ c₁.after = rest) ∧
      ∀ name others, bracketedName? ts = some (name, others) →
        ∃ c₁, joinCondition kind c = .ok (some (.columns [name])) c₁ ∧
          c₁.after = others ++ rest := by
  have hafter : c.advance.after = ts ++ rest := Cursor.after_advance hc
  have hwhole : Expr.parser c.advance = .ok e (c'.followed rest) := by
    have hfollowed := Expr.parser_followed (fun l hl => (hrest l hl).endsExpr) hexpr
    simp only [Cursor.followed, ← hafter] at hfollowed
    exact hfollowed
  have happend := bracketedName?_append (Expr.not_opensNames hexpr) rest
  obtain ⟨hread, hlist⟩ := JoinCondition.parser_of_expr hwhole
  rw [hafter, happend] at hread hlist
  constructor
  · intro hnone
    refine ⟨c'.followed rest, joinCondition_of_on hkind hc hon (hread (by rw [hnone]; rfl)), ?_⟩
    rw [Cursor.followed, hall]
    rfl
  · intro name others hsome
    obtain ⟨c₁, hcolumns, hothers⟩ := hlist name (others ++ rest) (by rw [hsome]; rfl)
    exact ⟨c₁, joinCondition_of_on hkind hc hon hcolumns, hothers⟩

/-- The cursor in front of an `on` that starts the statement text. -/
def atOn (ts : List Lexeme) : Cursor :=
  ⟨[], ⟨.ident "on", 0, 2⟩ :: ts, 20, 0⟩

/-- `(x)` -/
def nameLexemes : List Lexeme :=
  [⟨.leftParen, 3, 4⟩, ⟨.ident "x", 4, 5⟩, ⟨.rightParen, 5, 6⟩]

/-- `(a.x = b.x)` -/
def equalityLexemes : List Lexeme :=
  [⟨.leftParen, 3, 4⟩, ⟨.ident "a.x", 4, 7⟩, ⟨.op "=", 8, 9⟩, ⟨.ident "b.x", 10, 13⟩,
    ⟨.rightParen, 13, 14⟩]

/-- `= b.y`, behind `on (x)`. -/
def comparisonLexemes : List Lexeme :=
  [⟨.op "=", 7, 8⟩, ⟨.ident "b.y", 9, 12⟩]

/-- The condition `(a.x = b.x)` in front of a `where`, and the list `(x)` at the end. -/
theorem joinCondition_of_expr_in_parentheses :
    (∃ e c₁, joinCondition .asof (atOn (equalityLexemes ++ [⟨.ident "where", 15, 20⟩])) =
        .ok (some (.on e)) c₁ ∧ c₁.after = [⟨.ident "where", 15, 20⟩]) ∧
      ∃ c₁, joinCondition .inner (atOn (nameLexemes ++ [])) =
        .ok (some (.columns [⟨"x", 4⟩])) c₁ ∧ c₁.after = [] := by
  constructor
  · have hwhere : ∀ l ∈ [(⟨.ident "where", 15, 20⟩ : Lexeme)].head?, l.token.EndsClause := by
      rintro l ⟨⟩
      exact .inr (.inr (by decide))
    obtain ⟨e, c', hexpr, hall⟩ : ∃ e c', Expr.parser
        { (atOn (equalityLexemes ++ [⟨.ident "where", 15, 20⟩])).advance with
          after := equalityLexemes } = .ok e c' ∧ c'.after = [] := ⟨_, _, rfl, rfl⟩
    have hkind : JoinKind.asof ≠ .cross := nofun
    exact ⟨e, (joinCondition_of_expr hkind (by decide) rfl hwhere hexpr hall).1 rfl⟩
  · have hend : ∀ l ∈ ([] : List Lexeme).head?, l.token.EndsClause := nofun
    obtain ⟨e, c', hexpr, hall⟩ : ∃ e c', Expr.parser
        { (atOn (nameLexemes ++ [])).advance with after := nameLexemes } = .ok e c' ∧
          c'.after = [] := ⟨_, _, rfl, rfl⟩
    have hkind : JoinKind.inner ≠ .cross := nofun
    exact (joinCondition_of_expr hkind (by decide) rfl hend hexpr hall).2 ⟨"x", 4⟩ [] rfl

/-- Of the expression `(x) = b.y` no more than `(x)` is read after `on`. -/
theorem on_bracketed_name_then_equality :
    (∃ e c', Expr.parser
        { (atOn (nameLexemes ++ comparisonLexemes)).advance with
          after := nameLexemes ++ comparisonLexemes } = .ok e c' ∧ c'.after = [] ∧
        e = .binary .eq (.column (.plain "x") 4) (.column (.qualified "b" "y") 9) 7) ∧
      (∀ kind, kind ≠ .cross → ∃ c₁, joinCondition kind (atOn (nameLexemes ++ comparisonLexemes)) =
        .ok (some (.columns [⟨"x", 4⟩])) c₁ ∧ c₁.after = comparisonLexemes) ∧
      Statement.ofText "a join b on (x) = b.y" = .error ⟨16, .unexpectedToken "="⟩ := by
  refine ⟨⟨_, _, rfl, rfl, rfl⟩, fun kind hkind => ?_, ?_⟩
  · cases kind with
    | cross => exact absurd rfl hkind
    | _ => exact ⟨_, rfl, rfl⟩
  · have hrun : (match Statement.ofText "a join b on (x) = b.y" with
        | .error e => decide (e = ⟨16, .unexpectedToken "="⟩)
        | .ok _ => false) = true := by
      decide +kernel
    split at hrun
    · rename_i heq
      rw [heq, of_decide_eq_true hrun]
    · cases hrun

end SeriesQuery
