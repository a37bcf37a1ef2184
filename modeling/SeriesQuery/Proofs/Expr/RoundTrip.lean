import SeriesQuery.Proofs.Expr.Canonical
import SeriesQuery.Proofs.Expr.Tokens
import SeriesQuery.Proofs.Token.Taking

/-!
Canonical texts read back.

The parser reads the canonical text of an expression as `Expr.called`, if no operator that
binds tighter follows a `not` in it and it does not nest too deep
(`Expr.parser_takes`). Operators of one strength are read in rounds of one loop, the operand
of the first of them before it, so an expression is followed through the loop
(`Grammar.Chained`): what its leftmost operand starts, the rounds for its operators finish.
-/

namespace SeriesQuery.Grammar

open SeriesQuery.Parser

/-! ### What may follow an expression -/

/-- The tokens do not go on with a parenthesis, and not with an operator that binds as tightly
as `least`. -/
def Ends (least : Nat) (rest : List Token) : Prop :=
  ∀ t ∈ rest.head?, t ≠ .leftParen ∧ (t.isWord "in" = true → inStrength < least) ∧
    ∀ op, operator? t = some op → op.strength < least

theorem Ends.mono {least least' : Nat} {rest : List Token} (h : Ends least rest)
    (hle : least ≤ least') : Ends least' rest := by
  intro t ht
  obtain ⟨hparen, hin, hop⟩ := h t ht
  exact ⟨hparen, fun hword => Nat.lt_of_lt_of_le (hin hword) hle,
    fun op heq => Nat.lt_of_lt_of_le (hop op heq) hle⟩

theorem ends_of_closes {least : Nat} {rest : List Token} (h : Takes.Closes rest) :
    Ends least rest := by
  intro t ht
  have ht : t = .comma ∨ t = .rightParen := by
    rcases h with h | h <;> rw [h] at ht <;> cases ht <;> simp
  rcases ht with rfl | rfl <;> exact ⟨nofun, nofun, nofun⟩

@[simp] theorem operator?_token (op : BinaryOp) : operator? op.token = some op := by
  cases op <;> decide

theorem isWord_in_token (op : BinaryOp) : op.token.isWord "in" = false := by
  cases op <;> decide

theorem ends_token {op : BinaryOp} {least : Nat} {rest : List Token} (h : op.strength < least) :
    Ends least (op.token :: rest) := by
  intro t ht
  cases ht
  refine ⟨by cases op <;> nofun, fun hin => ?_, fun op' heq => ?_⟩
  · rw [isWord_in_token] at hin
    cases hin
  · rw [operator?_token] at heq
    cases heq
    exact h

/-! ### The operator loop -/

variable {inner : Grammar} {right : Nat → Parser Expr} {least n : Nat} {t : Token}
  {ts us rest : List Token} {R S : Expr → Prop}

theorem continuation_none (h : Ends least rest) (left : Expr) :
    Takes (continuation inner right least left) [] rest n (· = none) := by
  refine Takes.peek_bind_rest fun l? hl => ?_
  cases l? with
  | none => exact Takes.pure rfl
  | some l =>
    obtain ⟨-, hin, hop⟩ := h l.token (by rw [← hl]; rfl)
    dsimp only
    split
    · rename_i hword
      rw [if_pos (hin hword)]
      exact Takes.pure rfl
    · split
      · exact Takes.pure rfl
      · rename_i op heq
        rw [if_pos (hop op heq)]
        exact Takes.pure rfl

theorem continuation_binary {op : BinaryOp} (hop : least ≤ op.strength) (left : Expr)
    (h : Takes (right (op.strength + 1)) us rest n S) :
    Takes (continuation inner right least left) (op.token :: us) rest n
      fun e? => ∃ e p, e? = some (.binary op left e p) ∧ S e := by
  refine Takes.peek_bind fun l hl => ?_
  have hin : l.isWord "in" = false := by rw [Lexeme.isWord, hl, isWord_in_token]
  have hword : operator? l.token = some op := by rw [hl, operator?_token]
  simp only [hin, hword, Nat.not_lt.mpr hop, Bool.false_eq_true, if_false]
  exact Takes.next_bind fun _ _ => Takes.bind_pure h fun e he => ⟨e, l.start, rfl, he⟩

/-- An expression that the operator loop reads: after its leftmost operand the loop comes to it
in some rounds, and has rounds left for all that follows. -/
def Chained (inner : Grammar) (right : Nat → Parser Expr) (least : Nat) (ts rest : List Token)
    (n : Nat) (R : Expr → Prop) : Prop :=
  ∀ c : Cursor, c.tokens = ts ++ rest → c.depth + n ≤ maxNesting →
    ∃ first c₁, operand inner c = .ok first c₁ ∧ ∀ rounds, c₁.tokens.length < rounds →
      ∃ e c' rounds', continuations inner right least rounds first c₁ =
          continuations inner right least rounds' e c' ∧
        c'.tokens.length < rounds' ∧ c'.tokens = rest ∧ c'.depth = c.depth ∧ R e

theorem Chained.of_operand (h : Takes (operand inner) ts rest n R) :
    Chained inner right least ts rest n R := by
  intro c hc hn
  obtain ⟨e, c', hrun, htokens, hdepth, he⟩ := h c hc hn
  exact ⟨e, c', hrun, fun rounds hrounds => ⟨e, c', rounds, rfl, hrounds, htokens, hdepth, he⟩⟩

theorem Chained.mono {m : Nat} {R' : Expr → Prop} (h : Chained inner right least ts rest m R)
    (hm : m ≤ n) (himp : ∀ e, R e → R' e) : Chained inner right least ts rest n R' := by
  intro c hc hn
  obtain ⟨first, c₁, hoperand, hloop⟩ := h c hc (by omega)
  refine ⟨first, c₁, hoperand, fun rounds hrounds => ?_⟩
  obtain ⟨e, c', rounds', heq, hrounds', htokens, hdepth, he⟩ := hloop rounds hrounds
  exact ⟨e, c', rounds', heq, hrounds', htokens, hdepth, himp e he⟩

theorem Chained.binary {op : BinaryOp} (hleft : Chained inner right least ts
      (op.token :: us ++ rest) n R) (hop : least ≤ op.strength)
    (hright : Takes (right (op.strength + 1)) us rest n S) :
    Chained inner right least (ts ++ op.token :: us) rest n
      fun e => ∃ l r p, e = .binary op l r p ∧ R l ∧ S r := by
  intro c hc hn
  obtain ⟨first, c₁, hoperand, hloop⟩ := hleft c (by rw [hc]; simp) hn
  refine ⟨first, c₁, hoperand, fun rounds hrounds => ?_⟩
  obtain ⟨l, c₂, rounds₂, heq, hleft₂, htokens, hdepth, hl⟩ := hloop rounds hrounds
  obtain ⟨rounds₂, rfl⟩ := Nat.exists_eq_add_one_of_ne_zero (Nat.ne_zero_of_lt hleft₂)
  have hround : Takes (continuation inner right least l) (op.token :: us) rest n
      fun e? => ∃ e p, e? = some (.binary op l e p) ∧ S e := continuation_binary hop l hright
  obtain ⟨e?, c₃, hstep, htokens₃, hdepth₃, r, p, rfl, hr⟩ := hround c₂ htokens (by omega)
  refine ⟨.binary op l r p, c₃, rounds₂, ?_, ?_, htokens₃, by omega, l, r, p, rfl, hl, hr⟩
  · rw [heq]
    simp only [continuations, Bind.bind, EStateM.bind, hstep]
  · rw [htokens] at hleft₂
    rw [htokens₃]
    simp only [List.cons_append, List.length_cons, List.length_append] at hleft₂
    omega

/-- The loop is left where no operator of its strength follows. -/
theorem Chained.climb {strengths : Nat} (h : Chained inner (Grammar.climb inner strengths) least
      ts rest n R) (hends : Ends least rest) :
    Takes (Grammar.climb inner (strengths + 1) least) ts rest n R := by
  intro c hc hn
  obtain ⟨first, c₁, hoperand, hloop⟩ := h c hc hn
  obtain ⟨e, c', rounds', heq, hrounds', htokens, hdepth, he⟩ :=
    hloop (c₁.after.length + 1) (by rw [Cursor.length_tokens]; omega)
  obtain ⟨rounds', rfl⟩ := Nat.exists_eq_add_one_of_ne_zero (Nat.ne_zero_of_lt hrounds')
  have hnone : Takes (continuation inner (Grammar.climb inner strengths) least e) [] rest n
      (· = none) := continuation_none hends e
  obtain ⟨e?, c₂, hstep, htokens₂, hdepth₂, rfl⟩ := hnone c' htokens (by omega)
  refine ⟨e, c₂, ?_, htokens₂, by omega, he⟩
  have hclimb : Grammar.climb inner (strengths + 1) least c =
      continuations inner (Grammar.climb inner strengths) least (c₁.after.length + 1) first c₁ := by
    simp only [Grammar.climb, Bind.bind, EStateM.bind, hoperand]
    rfl
  rw [hclimb, heq]
  simp only [continuations, Bind.bind, EStateM.bind, hstep]
  rfl

/-! ### Operands -/

theorem takes_needClosing : Takes needClosing [.rightParen] rest n fun _ => True := by
  refine Takes.bind (s := [.rightParen]) (u := []) (Takes.accept (by simp)) fun taken htaken => ?_
  rw [htaken]
  exact Takes.pure trivial

/-- What stands in parentheses. -/
theorem takes_parenthesized (h : Takes (inner.expr 1) ts (.rightParen :: rest) n R) :
    Takes (primary inner) (.leftParen :: ts ++ [.rightParen]) rest (n + 1) R := by
  refine Takes.peek_bind fun l hl => ?_
  simp only [hl]
  exact Takes.next_bind fun _ _ => Takes.bind (Takes.nested _ h) fun e he =>
    Takes.bind_pure takes_needClosing fun _ _ => he

/-- No constant is a word that the grammar looks for in front of an operand. -/
theorem not_operator_of_constant {text : String}
    (h : constantWords.any (Ascii.same text) = true) :
    Ascii.same text "and" = false ∧ Ascii.same text "or" = false ∧
      Ascii.same text "not" = false := by
  simp only [constantWords, List.any_cons, List.any_nil, Bool.or_false, Bool.or_eq_true,
    Ascii.same_iff] at h
  rcases h with h | h | h | h <;> simp only [Ascii.same, h] <;> decide

theorem takes_constant (h : IsConstant t) :
    Takes (primary inner) [t] rest n fun e => ∃ p, e = .constant t.text p := by
  refine Takes.peek_bind fun l hl => ?_
  cases t with
  | ident text =>
    have hconstant : constantWords.any (Ascii.same text) = true := h
    obtain ⟨hand, hor, -⟩ := not_operator_of_constant hconstant
    simp only [hl, hand, hor, Bool.or_self, Bool.false_eq_true, if_false]
    refine Takes.next_bind fun _ _ => ?_
    rw [if_pos hconstant]
    exact Takes.pure ⟨l.start, rfl⟩
  | number text =>
    simp only [hl]
    exact Takes.next_bind fun _ _ => Takes.pure ⟨l.start, rfl⟩
  | string text =>
    simp only [hl]
    exact Takes.next_bind fun _ _ => Takes.pure ⟨l.start, rfl⟩
  | _ => exact h.elim

theorem takes_queryRef {text : String} :
    Takes (primary inner) [.queryRef text] rest n fun e => ∃ p, e = .queryRef text p := by
  refine Takes.peek_bind fun l hl => ?_
  simp only [hl]
  exact Takes.next_bind fun _ _ => Takes.pure ⟨l.start, rfl⟩

theorem takes_column {text : String} {signed : Bool} (hname : Names signed text)
    (hrest : Ends 7 rest) :
    Takes (primary inner) [.ident text] rest n fun e => ∃ p, e = .column (.ofText text) p := by
  refine Takes.peek_bind fun l hl => ?_
  simp only [hl, hname.and, hname.or, Bool.or_self, Bool.false_eq_true, if_false]
  refine Takes.next_bind fun _ _ => ?_
  simp only [hname.constant, Bool.false_eq_true, if_false]
  refine Takes.bind (s := []) (u := []) (Takes.accept_rest ?_) fun taken htaken => ?_
  · intro u hu
    simpa using (hrest u hu).1
  · rw [htaken]
    exact Takes.pure ⟨l.start, rfl⟩

section Arguments

variable {args : List Expr} {Q : Expr → Expr → Prop}

/-- The arguments of a call, none of which starts with a closing parenthesis. -/
theorem takes_arguments
    (hargs : ∀ a ∈ args, ∀ us, Takes.Closes us → Takes (inner.expr 1) a.tokens us n (Q a))
    (hstart : ∀ a ∈ args, ∀ us, (a.tokens ++ us).head? ≠ some .rightParen) :
    Takes (arguments inner) ([Token.comma].intercalate (args.map Expr.tokens) ++ [.rightParen]) rest
      n (List.Forall₂ Q args) := by
  by_cases hnone : args = []
  · subst hnone
    refine Takes.bind (s := [.rightParen]) (u := []) (Takes.accept (by simp)) fun taken htaken => ?_
    rw [htaken]
    exact Takes.pure .nil
  · refine Takes.bind (s := []) (R := (· = false)) (Takes.accept_rest ?_) fun taken htaken => ?_
    · obtain ⟨a, as, rfl⟩ := List.exists_cons_of_ne_nil hnone
      intro u hu
      simp only [Takes.intercalate_eq_flatMap, List.append_eq, List.append_assoc] at hu
      simpa using fun h : u = .rightParen => hstart a List.mem_cons_self _ (h ▸ hu)
    · rw [htaken]
      exact Takes.bind (Takes.commaList hnone hargs) fun as has =>
        Takes.bind_pure takes_needClosing fun _ _ => has

theorem takes_call {name : String} {signed : Bool} (hname : Names signed name)
    (hargs : ∀ a ∈ args, ∀ us, Takes.Closes us → Takes (inner.expr 1) a.tokens us n (Q a))
    (hstart : ∀ a ∈ args, ∀ us, (a.tokens ++ us).head? ≠ some .rightParen) :
    Takes (primary inner) (.ident name :: Token.arguments (args.map Expr.tokens)) rest (n + 1)
      fun e => ∃ as p, e = .call name as p ∧ List.Forall₂ Q args as := by
  refine Takes.peek_bind fun l hl => ?_
  simp only [hl, hname.and, hname.or, Bool.or_self, Bool.false_eq_true, if_false]
  refine Takes.next_bind fun _ _ => ?_
  simp only [hname.constant, Bool.false_eq_true, if_false]
  refine Takes.bind (s := [.leftParen]) (Takes.accept (by simp)) fun taken htaken => ?_
  rw [htaken]
  exact Takes.bind_pure (Takes.nested _ (takes_arguments hargs hstart)) fun as has =>
    ⟨as, l.start, rfl, has⟩

end Arguments

/-! ### Signs and `not` in front -/

theorem takes_neg (h : Takes inner.unary ts rest n R) :
    Takes (signed inner) (.op "-" :: ts) rest (n + 1)
      fun e => ∃ operand p, e = .unary .neg operand p ∧ R operand := by
  refine Takes.peek_bind fun l hl => ?_
  have hsign : l.token.isSign "-" = true := by rw [hl]; rfl
  simp only [hsign, if_true]
  exact Takes.next_bind fun _ _ => Takes.bind_pure (Takes.nested _ h) fun e he =>
    ⟨e, l.start, rfl, he⟩

theorem takes_not (h : Takes (inner.expr notStrength) ts rest n R) :
    Takes (operand inner) (.ident "not" :: ts) rest (n + 1)
      fun e => ∃ operand p, e = .unary .not operand p ∧ R operand := by
  refine Takes.peek_bind fun l hl => ?_
  have hword : l.isWord "not" = true := by rw [Lexeme.isWord, hl]; simp [Token.isWord]
  simp only [hword, if_true]
  exact Takes.next_bind fun _ _ => Takes.bind_pure (Takes.nested _ h) fun e he =>
    ⟨e, l.start, rfl, he⟩

/-- Without a `not` in front an operand starts with its signs. -/
theorem takes_operand (h : Takes (signed inner) (t :: ts) rest n R)
    (hnot : t.isWord "not" = false) : Takes (operand inner) (t :: ts) rest n R := by
  refine Takes.peek_bind fun l hl => ?_
  have hword : l.isWord "not" = false := by rw [Lexeme.isWord, hl, hnot]
  simpa only [hword, Bool.false_eq_true, if_false] using h

theorem takes_signed (h : Takes (primary inner) (t :: ts) rest n R)
    (hsign : t.isSign "-" = false) : Takes (signed inner) (t :: ts) rest n R := by
  refine Takes.peek_bind fun l hl => ?_
  have hsign' : l.token.isSign "-" = false := by rw [hl, hsign]
  simpa only [hsign', Bool.false_eq_true, if_false] using h

/-! ### Expressions -/

/-- The readers of all levels that are deep enough read the text of the expression back, right
after a sign, as an operand, and in the operator loop. What has been read right after a sign
is no operand elsewhere unless it stands in parentheses. -/
structure ReadsBack (signed : Bool) (e : Expr) : Prop where
  primary : 7 < e.strength → ∀ {k : Nat} {rest : List Token}, e.depth ≤ k → Ends 7 rest →
    Takes (primary (deep k)) e.tokens rest e.depth (·.erase = e.afterSign.erase)
  operand : (signed = true → e.strength ≤ 7) → maxStrength < e.strength →
    ∀ {k : Nat} {rest : List Token}, e.depth ≤ k → Ends e.reach rest →
      Takes (operand (deep k)) e.tokens rest e.depth (·.erase = e.called.erase)
  chained : (signed = true → e.strength ≤ 7) →
    ∀ {k least s : Nat} {rest : List Token}, e.depth ≤ k → least ≤ e.strength →
      maxStrength ≤ least + s → Ends e.reach rest →
      Chained (deep k) (climb (deep k) s) least e.tokens rest e.depth (·.erase = e.called.erase)

namespace ReadsBack

variable {e : Expr} {k s : Nat} {signed : Bool}

section

variable (h : ReadsBack signed e) (hfree : signed = true → e.strength ≤ 7)
include h hfree

theorem climb (hk : e.depth ≤ k) (hleast : least ≤ e.strength) (hs : maxStrength < least + s)
    (hends : Ends least rest) (hreach : Ends e.reach rest) :
    Takes (climb (deep k) s least) e.tokens rest e.depth (·.erase = e.called.erase) := by
  cases s with
  | zero => exact h.operand hfree (Nat.lt_of_lt_of_le hs hleast) hk hreach
  | succ s => exact (h.chained hfree hk hleast (by omega) hreach).climb hends

/-- An argument of a call, one level down. -/
theorem argument (hk : e.depth < k) (hrest : Takes.Closes rest) :
    Takes ((deep k).expr 1) e.tokens rest e.depth (·.erase = e.called.erase) := by
  obtain ⟨k, rfl⟩ := Nat.exists_eq_add_one_of_ne_zero (Nat.ne_zero_of_lt hk)
  exact h.climb hfree (Nat.lt_succ_iff.mp hk) e.one_le_strength (by decide)
    (ends_of_closes hrest) (ends_of_closes hrest)

/-- The expression in parentheses. -/
theorem inParentheses (hk : e.depth < k) :
    Takes (Grammar.primary (deep k)) (.leftParen :: e.tokens ++ [.rightParen]) rest (e.depth + 1)
      (·.erase = e.called.erase) :=
  takes_parenthesized (h.argument hfree hk (.inr rfl))

theorem operandInParentheses (hk : e.depth < k) :
    Takes (Grammar.operand (deep k)) (.leftParen :: e.tokens ++ [.rightParen]) rest (e.depth + 1)
      (·.erase = e.called.erase) :=
  takes_operand (takes_signed (h.inParentheses hfree hk) rfl) rfl

/-- The left side of an operator. -/
theorem leftSide {m : Nat} (hk : Expr.enclosedDepth (e.strength < m) e.depth ≤ k)
    (hs : maxStrength ≤ least + s) (hleast : least ≤ m)
    (hreach : m ≤ e.strength → Ends e.reach rest) :
    Chained (deep k) (Grammar.climb (deep k) s) least
      (Token.parenthesized (e.strength < m) e.tokens) rest
      (Expr.enclosedDepth (e.strength < m) e.depth) (·.erase = e.called.erase) := by
  by_cases hweak : e.strength < m
  · simp only [hweak, decide_true, Token.parenthesized, Expr.enclosedDepth, if_true] at hk ⊢
    exact .of_operand (h.operandInParentheses hfree hk)
  · simp only [hweak, decide_false, Token.parenthesized, Expr.enclosedDepth, Bool.false_eq_true,
      if_false] at hk ⊢
    have hstrong := Nat.not_lt.mp hweak
    exact h.chained hfree hk (Nat.le_trans hleast hstrong) hs (hreach hstrong)

/-- The right side of an operator. -/
theorem rightSide {m : Nat} (hk : Expr.enclosedDepth (e.strength ≤ m) e.depth ≤ k)
    (hs : maxStrength < m + 1 + s) (hends : Ends (m + 1) rest)
    (hreach : m < e.strength → Ends e.reach rest) :
    Takes (Grammar.climb (deep k) s (m + 1)) (Token.parenthesized (e.strength ≤ m) e.tokens) rest
      (Expr.enclosedDepth (e.strength ≤ m) e.depth) (·.erase = e.called.erase) := by
  by_cases hweak : e.strength ≤ m
  · simp only [hweak, decide_true, Token.parenthesized, Expr.enclosedDepth, if_true] at hk ⊢
    cases s with
    | zero => exact h.operandInParentheses hfree hk
    | succ s => exact (Chained.of_operand (h.operandInParentheses hfree hk)).climb hends
  · simp only [hweak, decide_false, Token.parenthesized, Expr.enclosedDepth, Bool.false_eq_true,
      if_false] at hk ⊢
    have hstrong := Nat.not_le.mp hweak
    exact h.climb hfree hk hstrong hs hends (hreach hstrong)

end

/-- Without a sign or a `not` in front an expression is read alike in all these places. -/
theorem of_primary (htokens : e.tokens = t :: ts) (hsign : t.isSign "-" = false)
    (hnot : signed = false → t.isWord "not" = false) (hafter : e.afterSign = e.called)
    (hstrength : 7 < e.strength)
    (h : ∀ {k : Nat} {rest : List Token}, e.depth ≤ k → Ends 7 rest →
      Takes (Grammar.primary (deep k)) e.tokens rest e.depth (·.erase = e.called.erase)) :
    ReadsBack signed e := by
  have hoperand : (signed = true → e.strength ≤ 7) → ∀ {k : Nat} {rest : List Token}, e.depth ≤ k →
      Ends e.reach rest →
      Takes (Grammar.operand (deep k)) e.tokens rest e.depth (·.erase = e.called.erase) := by
    intro hfree k rest hk hrest
    have hfalse : signed = false := by
      cases signed with
      | false => rfl
      | true => exact absurd (hfree rfl) (by omega)
    have hprimary := h hk (hrest.mono e.reach_le)
    rw [htokens] at hprimary ⊢
    exact takes_operand (takes_signed hprimary hsign) (hnot hfalse)
  refine ⟨fun _ _ _ hk hrest => ?_, fun hfree _ => hoperand hfree, fun hfree _ _ _ _ hk _ _ hrest =>
    .of_operand (hoperand hfree hk hrest)⟩
  rw [hafter]
  exact h hk hrest

end ReadsBack

section Constructors

variable {e : Expr} {signed : Bool} {p : Nat}

theorem readsBack_column {text : String} (hname : Names signed text) :
    ReadsBack signed (.column (.ofText text) p) := by
  have htokens : (Expr.column (.ofText text) p).tokens = [.ident text] := by
    simp [Expr.tokens, ColumnRef.text_ofText]
  refine .of_primary htokens rfl (fun h => hname.not h) rfl (Nat.lt_succ_self 7)
    fun _ hrest => ?_
  rw [htokens]
  refine (takes_column hname hrest).mono (Nat.zero_le _) ?_
  rintro _ ⟨p', rfl⟩
  rfl

theorem readsBack_constant (ht : t.Lexable) (hconstant : IsConstant t) :
    ReadsBack signed (.constant t.text p) := by
  have htokens : (Expr.constant t.text p).tokens = [t] := by
    rw [Expr.tokens, Token.ofConstant_text ht hconstant.isTerm, hconstant.unquoted]
  have hword : t.isSign "-" = false ∧ t.isWord "not" = false := by
    cases t with
    | ident text => exact ⟨rfl, (not_operator_of_constant hconstant).2.2⟩
    | op text => exact hconstant.elim
    | _ => exact ⟨rfl, rfl⟩
  refine .of_primary htokens hword.1 (fun _ => hword.2) rfl (Nat.lt_succ_self 7) fun _ _ => ?_
  rw [htokens]
  refine (takes_constant hconstant).mono (Nat.zero_le _) ?_
  rintro _ ⟨p', rfl⟩
  rfl

theorem readsBack_queryRef {text : String} : ReadsBack signed (.queryRef text p) := by
  have htokens : (Expr.queryRef text p).tokens = [.queryRef text] := rfl
  refine .of_primary htokens rfl (fun _ => rfl) rfl (Nat.lt_succ_self 7) fun _ _ => ?_
  refine takes_queryRef.mono (Nat.zero_le _) ?_
  rintro _ ⟨p', rfl⟩
  rfl

/-- The arguments that have been read are those that the texts stand for. -/
theorem erase_of_forall₂ {es as : List Expr}
    (h : List.Forall₂ (fun e a : Expr => a.erase = e.called.erase) es as) :
    as.map Expr.erase = (es.map Expr.called).map Expr.erase := by
  induction h with
  | nil => rfl
  | cons he _ ih => simp [he, ih]

/-- A call that is read from its text. -/
theorem takes_call_text {name : String} {args : List Expr} (hname : Names signed name)
    (hargs : ∀ a ∈ args, ReadsBack false a) {k : Nat} (hk : Expr.depthList args < k) :
    Takes (primary (deep k)) (.ident name :: Token.arguments (args.map Expr.tokens)) rest
      (Expr.depthList args + 1) fun e => e.erase = (Expr.call name (args.map Expr.called) p).erase := by
  have hdepth : ∀ a ∈ args, a.depth ≤ Expr.depthList args :=
    Expr.depthList_le_iff.mp (Nat.le_refl _)
  refine (takes_call (Q := fun e a => a.erase = e.called.erase) hname (fun a ha us hus => ?_)
    fun a _ => a.head_tokens_ne).mono (Nat.le_refl _) ?_
  · exact ((hargs a ha).argument nofun (Nat.lt_of_le_of_lt (hdepth a ha) hk) hus).mono
      (hdepth a ha) fun _ => id
  · rintro _ ⟨as, p', rfl, has⟩
    simp only [Expr.erase, Expr.eraseList_eq_map, erase_of_forall₂ has]

theorem readsBack_call {name : String} {args : List Expr} (hname : Names signed name)
    (hargs : ∀ a ∈ args, ReadsBack false a) : ReadsBack signed (.call name args p) := by
  have htokens : (Expr.call name args p).tokens =
      .ident name :: Token.arguments (args.map Expr.tokens) := by
    rw [Expr.tokens, Expr.tokensList_eq_map]
  refine .of_primary htokens rfl (fun h => hname.not h) rfl (Nat.lt_succ_self 7) fun hk _ => ?_
  rw [htokens, Expr.called, Expr.calledList_eq_map]
  exact takes_call_text hname hargs hk

theorem readsBack_inList {operand : Expr} {list : List Expr} (h : ReadsBack false operand)
    (hlist : ∀ a ∈ list, ReadsBack false a) : ReadsBack signed (.inList operand list p) := by
  have hname : Names signed "in" := ⟨by decide, by decide, by decide, fun _ => by decide⟩
  have htokens : (Expr.inList operand list p).tokens =
      .ident "in" :: Token.arguments ((list.reverse ++ [operand]).map Expr.tokens) := by
    simp [Expr.tokens, Expr.tokensList_eq_map]
  have hcalled : (Expr.inList operand list p).called =
      .call "in" ((list.reverse ++ [operand]).map Expr.called) p := by
    simp [Expr.called, Expr.calledList_eq_map]
  have hargs : ∀ a ∈ list.reverse ++ [operand], ReadsBack false a := by
    simpa [or_imp, forall_and] using ⟨hlist, h⟩
  have hdepth : Expr.depthList (list.reverse ++ [operand]) + 1 ≤
      (Expr.inList operand list p).depth := by
    refine Nat.succ_le_succ (Expr.depthList_le_iff.mpr ?_)
    have hlist := Expr.depthList_le_iff.mp (Nat.le_refl (Expr.depthList list))
    simp only [List.forall_mem_append, List.forall_mem_singleton, List.mem_reverse]
    exact ⟨fun a ha => Nat.le_trans (hlist a ha) (Nat.le_max_right _ _), Nat.le_max_left _ _⟩
  refine .of_primary htokens rfl (fun h => hname.not h) rfl (Nat.lt_succ_self 7) fun hk _ => ?_
  rw [htokens, hcalled]
  exact (takes_call_text hname hargs (Nat.lt_of_lt_of_le hdepth hk)).mono hdepth fun _ => id

/-- The operand of a sign, one level down. -/
theorem ReadsBack.afterSign {operand : Expr} (h : ReadsBack true operand) {k : Nat}
    (hk : Expr.enclosedDepth (operand.strength ≤ 7) operand.depth ≤ k) (hrest : Ends 7 rest) :
    Takes (Grammar.signed (deep k)) (Token.parenthesized (operand.strength ≤ 7) operand.tokens) rest
      (Expr.enclosedDepth (operand.strength ≤ 7) operand.depth)
      (·.erase = operand.afterSign.erase) := by
  by_cases hweak : operand.strength ≤ 7
  · simp only [hweak, decide_true, Token.parenthesized, Expr.enclosedDepth, if_true] at hk ⊢
    rw [Expr.afterSign_of_strength_le hweak]
    exact takes_signed (h.inParentheses (fun _ => hweak) hk) rfl
  · simp only [hweak, decide_false, Token.parenthesized, Expr.enclosedDepth, Bool.false_eq_true,
      if_false] at hk ⊢
    have hstrong := Nat.not_le.mp hweak
    obtain ⟨t, ts, htokens, -, hsign⟩ := operand.exists_tokens
    have hprimary := h.primary hstrong hk hrest
    rw [htokens] at hprimary ⊢
    exact takes_signed hprimary (hsign hstrong)

theorem readsBack_neg {operand : Expr} (h : ReadsBack true operand) :
    ReadsBack signed (.unary .neg operand p) := by
  have hoperand : ∀ {k : Nat} {rest : List Token}, (Expr.unary .neg operand p).depth ≤ k →
      Ends (Expr.unary .neg operand p).reach rest →
      Takes (Grammar.operand (deep k)) (Expr.unary .neg operand p).tokens rest
        (Expr.unary .neg operand p).depth (·.erase = (Expr.unary .neg operand p).called.erase) := by
    intro k rest hk hrest
    obtain ⟨k, rfl⟩ := Nat.exists_eq_add_one_of_ne_zero (Nat.ne_zero_of_lt hk)
    have hinner : Takes (deep (k + 1)).unary _ rest _ _ :=
      h.afterSign (Nat.le_of_succ_le_succ hk) (hrest.mono (Expr.reach_le _))
    refine takes_operand ((takes_neg hinner).mono (Nat.le_refl _) ?_) rfl
    rintro _ ⟨e, p', rfl, he⟩
    rw [Expr.called_neg]
    simp only [Expr.erase, he]
  exact ⟨fun h => absurd h (Nat.lt_irrefl 7), fun _ _ => hoperand,
    fun _ _ _ _ _ hk _ _ hrest => .of_operand (hoperand hk hrest)⟩

theorem readsBack_not {operand : Expr} (h : ReadsBack false operand) :
    ReadsBack signed (.unary .not operand p) := by
  have htokens : (Expr.unary .not operand p).tokens =
      .ident "not" :: .leftParen :: operand.tokens ++ [.rightParen] := by
    simp [Expr.tokens, Token.arguments]
  have hoperand : ∀ {k : Nat} {rest : List Token}, (Expr.unary .not operand p).depth ≤ k →
      Ends (Expr.unary .not operand p).reach rest →
      Takes (Grammar.operand (deep k)) (Expr.unary .not operand p).tokens rest
        (Expr.unary .not operand p).depth (·.erase = (Expr.unary .not operand p).called.erase) := by
    intro k rest hk hrest
    obtain ⟨k, rfl⟩ := Nat.exists_eq_add_one_of_ne_zero (Nat.ne_zero_of_lt hk)
    -- the operand of the `not` is what stands in its parentheses, and no operator after them
    have hinner : Takes ((deep (k + 1)).expr notStrength)
        (.leftParen :: operand.tokens ++ [.rightParen]) rest (operand.depth + 1)
        (·.erase = operand.called.erase) :=
      (Chained.of_operand (h.operandInParentheses (by simp) (Nat.le_of_succ_le_succ hk))).climb hrest
    rw [htokens]
    refine (takes_not hinner).mono (Nat.le_refl _) ?_
    rintro _ ⟨e, p', rfl, he⟩
    rw [Expr.called_not]
    simp only [Expr.erase, he]
  refine ⟨fun _ k rest hk _ => ?_, fun _ _ => hoperand, fun _ _ _ _ _ hk _ _ hrest =>
    .of_operand (hoperand hk hrest)⟩
  have hname : Names true "not" := ⟨by decide, by decide, by decide, by simp⟩
  have hle : Expr.depthList [operand] ≤ operand.depth := by simp [Expr.depthList]
  have hk : Expr.depthList [operand] < k := Nat.lt_of_le_of_lt hle (Nat.lt_of_succ_lt hk)
  refine (takes_call_text (p := p) hname (by simpa using h) hk).mono ?_ fun _ => id
  exact Nat.succ_le_succ (Nat.le_succ_of_le hle)

theorem readsBack_binary {op : BinaryOp} {left right : Expr} (hl : ReadsBack false left)
    (hr : ReadsBack false right) (hnots : (Expr.binary op left right p).notsApart = true) :
    ReadsBack signed (.binary op left right p) := by
  have hop := (Expr.strength_binary op).2
  refine ⟨fun h => absurd h (Nat.not_lt.mpr (Nat.le_succ_of_le hop)),
    fun _ h => absurd h (Nat.not_lt.mpr hop), fun _ k least s rest hk hleast hs hrest => ?_⟩
  obtain ⟨hkl, hkr⟩ := Nat.max_le.mp hk
  have hstrengths : maxStrength < op.strength + 1 + s := by
    have hle : least ≤ op.strength := hleast
    omega
  have hright := hr.rightSide nofun hkr hstrengths (hrest.mono Expr.reach_le_strength)
    fun h => hrest.mono (Expr.reach_le_right h)
  have hfollow : op.strength ≤ left.strength → Ends left.reach
      (op.token :: Token.parenthesized (right.strength ≤ op.strength) right.tokens ++ rest) :=
    fun h => ends_token (Expr.lt_reach_left hnots h)
  have hleft := hl.leftSide nofun hkl hs hleast hfollow
  have hchain := Chained.binary (hleft.mono (Nat.le_max_left _ _) fun _ => id) hleast
    (hright.mono (Nat.le_max_right _ _) fun _ => id)
  refine hchain.mono (Nat.le_refl _) ?_
  rintro _ ⟨l, r, p', rfl, hl', hr'⟩
  simp only [Expr.called, Expr.erase, hl', hr']

end Constructors

/-- **The text of an expression reads back**, if no operator is drawn into a `not` in it. -/
theorem readsBack {signed : Bool} {e : Expr} (h : Expr.FromTokens Token.Lexable signed e)
    (hnots : e.notsApart) : ReadsBack signed e := by
  induction h with
  | column htoken hname p => exact readsBack_column hname
  | constant htoken hconstant p => exact readsBack_constant htoken hconstant
  | queryRef htoken p => exact readsBack_queryRef
  | neg h p ih => exact readsBack_neg (ih hnots)
  | not h p ih => exact readsBack_not (ih hnots)
  | binary op hl hr p ihl ihr =>
    obtain ⟨⟨-, hleft⟩, hright⟩ := by simpa [Expr.notsApart] using hnots
    exact readsBack_binary (ihl hleft) (ihr hright) hnots
  | call htoken hname hargs p ih =>
    exact readsBack_call hname fun a ha => ih a ha (Expr.notsApartList_iff.mp hnots a ha)
  | inList h hlist p ih ihs =>
    obtain ⟨hoperand, hitems⟩ := by simpa [Expr.notsApart] using hnots
    exact readsBack_inList (ih hoperand) fun a ha => ihs a ha (Expr.notsApartList_iff.mp hitems a ha)

end SeriesQuery.Grammar

namespace SeriesQuery

/-- The parser takes the text of an expression, up to where no operator goes on, and answers the
expression that the text stands for. -/
theorem Expr.parser_takes {e : Expr} {rest : List Token}
    (h : Expr.FromTokens Token.Lexable false e) (hnots : e.notsApart)
    (hdepth : e.depth ≤ maxNesting) (hends : Grammar.Ends 1 rest)
    (hreach : Grammar.Ends e.reach rest) :
    Parser.Takes Expr.parser e.tokens rest e.depth (·.erase = e.called.erase) :=
  (Grammar.readsBack h hnots).climb nofun hdepth e.one_le_strength (by decide) hends hreach

end SeriesQuery
