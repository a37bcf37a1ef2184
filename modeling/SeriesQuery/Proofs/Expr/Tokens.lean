import SeriesQuery.Expr.Printer
import SeriesQuery.Proofs.Expr.Reading
import SeriesQuery.Proofs.Token.Lexing

/-!
The canonical text of an expression, as tokens.

The printer puts spaces around operators and parentheses around some operands. What it writes
is read as `Expr.tokens`, whatever text follows that ends a token (`Expr.spells_text`).
-/

namespace SeriesQuery

open Text Lexer

/-! ### Tokens of a text -/

/-- The token that an operator is written as. -/
def BinaryOp.token : BinaryOp → Token
  | or => .ident "or"
  | and => .ident "and"
  | op => .op op.symbol

@[simp] theorem BinaryOp.text_token (op : BinaryOp) : op.token.text = op.symbol := by
  cases op <;> rfl

theorem BinaryOp.lexable_token (op : BinaryOp) : op.token.Lexable := by
  cases op <;> decide +kernel

/-- The token that a constant is written as: its first character tells numbers and strings. -/
def Token.ofConstant (text : String) : Token :=
  match text.toList with
  | [] => .ident text
  | c :: _ => if c.isDigit then .number text else if c = '\x27' then .string text else .ident text

/-- The letters come after the digits. -/
theorem Text.le_of_isAlpha {c : Char} (h : c.isAlpha = true) : 65 ≤ c.val := by
  have hcase : (c.isUpper || c.isLower) = true := h
  rcases Bool.or_eq_true_iff.mp hcase with hupper | hlower
  · have hrange : c.val ≥ 'A'.val ∧ c.val ≤ 'Z'.val := of_decide_eq_true hupper
    exact hrange.1
  · have hrange : (decide (c.val ≥ 'a'.val) && decide (c.val ≤ 'z'.val)) = true := hlower
    exact UInt32.le_trans (by decide) (of_decide_eq_true (Bool.and_eq_true_iff.mp hrange).1)

/-- No word starts with a digit. -/
theorem Text.isDigit_of_isIdentStart {c : Char} (h : isIdentStart c = true) :
    c.isDigit = false := by
  by_contra hdigit
  obtain ⟨-, hnine⟩ : 48 ≤ c.val ∧ c.val ≤ 57 := by simpa [Char.isDigit] using hdigit
  have hsmall : c.val < 128 := UInt32.lt_of_le_of_lt hnine (by decide)
  simp only [isIdentStart, hsmall, if_true, Bool.or_eq_true, beq_iff_eq] at h
  rcases h with halpha | rfl
  · exact absurd (UInt32.le_trans (le_of_isAlpha halpha) hnine) (by decide)
  · exact absurd hnine (by decide)

/-- The token is a word, a number, a string or a query reference. -/
def Token.IsTerm : Token → Prop
  | .ident _ | .number _ | .string _ | .queryRef _ => True
  | _ => False

/-- The token with a query reference as a word. -/
def Token.unquoted : Token → Token
  | .queryRef text => .ident text
  | t => t

theorem Grammar.IsConstant.isTerm {t : Token} (h : IsConstant t) : t.IsTerm := by
  cases t <;> trivial

theorem Grammar.IsConstant.unquoted {t : Token} (h : IsConstant t) : t.unquoted = t := by
  cases t with
  | queryRef => exact h.elim
  | _ => rfl

/-- A word, a number and a string are told by their texts; a query reference is told from them by
its quotes. -/
theorem Token.ofConstant_text {t : Token} (ht : t.Lexable) (hterm : t.IsTerm) :
    ofConstant t.text = t.unquoted := by
  have hread := ht.token?
  unfold ofConstant
  cases htext : t.text.toList with
  | nil => simp [htext, Lexer.token?] at hread
  | cons c cs =>
    rw [htext] at hread
    simp only
    unfold Lexer.token? at hread
    simp only at hread
    split at hread
    · rename_i hident
      have hquote : c ≠ '\x27' := by
        rintro rfl
        exact absurd hident (by decide)
      simp only [splitIdent, Option.some.injEq, Prod.mk.injEq] at hread
      obtain ⟨rfl, -⟩ := hread
      simp [isDigit_of_isIdentStart hident, hquote, text, unquoted]
    split at hread
    · rename_i hdigit
      simp only [splitNumber, Option.some.injEq, Prod.mk.injEq] at hread
      obtain ⟨rfl, -⟩ := hread
      simp [hdigit, text, unquoted]
    · rename_i hident hdigit
      split at hread
      · obtain ⟨found, -, heq⟩ := Option.map_eq_some_iff.mp hread
        obtain ⟨rfl, -⟩ := Prod.mk.inj heq
        simp [show ('\x27').isDigit = false by decide, text, unquoted]
      · obtain ⟨found, -, heq⟩ := Option.map_eq_some_iff.mp hread
        obtain ⟨rfl, -⟩ := Prod.mk.inj heq
        simp [show ('\x60').isDigit = false by decide, text, unquoted]
      iterate 4
        cases hread
        exact hterm.elim
      · obtain ⟨found, -, heq⟩ := Option.map_eq_some_iff.mp hread
        obtain ⟨rfl, -⟩ := Prod.mk.inj heq
        exact hterm.elim

/-- The tokens, in parentheses if `needed`. -/
def Token.parenthesized (needed : Bool) (ts : List Token) : List Token :=
  if needed then .leftParen :: ts ++ [.rightParen] else ts

/-- The arguments of a call with commas between them and in parentheses. -/
def Token.arguments (args : List (List Token)) : List Token :=
  .leftParen :: [Token.comma].intercalate args ++ [.rightParen]

namespace Expr

mutual

/-- The tokens of the canonical text. -/
def tokens : Expr → List Token
  | column ref _ => [.ident ref.text]
  | constant text _ => [.ofConstant text]
  | queryRef text _ => [.queryRef text]
  | unary .not operand _ => .ident "not" :: Token.arguments [operand.tokens]
  | unary .neg operand _ =>
      .op "-" :: Token.parenthesized (operand.strength ≤ 7) operand.tokens
  | binary op left right _ =>
      Token.parenthesized (left.strength < op.strength) left.tokens ++
        op.token :: Token.parenthesized (right.strength ≤ op.strength) right.tokens
  | call name args _ => .ident name :: Token.arguments (tokensList args)
  | inList operand list _ =>
      .ident "in" :: Token.arguments ((tokensList list).reverse ++ [operand.tokens])

/-- The tokens of the canonical texts of the expressions. -/
def tokensList : List Expr → List (List Token)
  | [] => []
  | e :: es => e.tokens :: tokensList es

end

theorem tokensList_eq_map (es : List Expr) : tokensList es = es.map tokens := by
  induction es with
  | nil => rfl
  | cons e es ih => simp [tokensList, ih]

/-- The text of an expression starts with a token that closes nothing, and with a sign only if
it is one. -/
theorem exists_tokens (e : Expr) : ∃ t ts, e.tokens = t :: ts ∧ t ≠ .rightParen ∧
    (7 < e.strength → t.isSign "-" = false) := by
  induction e using Expr.induct with
  | column ref p => exact ⟨_, _, rfl, by simp, fun _ => rfl⟩
  | constant text p =>
    refine ⟨_, _, rfl, ?_⟩
    unfold Token.ofConstant
    split
    · exact ⟨by simp, fun _ => rfl⟩
    · split
      · exact ⟨by simp, fun _ => rfl⟩
      · split <;> exact ⟨by simp, fun _ => rfl⟩
  | queryRef text p => exact ⟨_, _, rfl, by simp, fun _ => rfl⟩
  | unary op operand p =>
    cases op with
    | neg => exact ⟨_, _, rfl, by simp, fun h => absurd h (Nat.lt_irrefl 7)⟩
    | not => exact ⟨_, _, rfl, by simp, fun _ => rfl⟩
  | binary op left right p ihl =>
    obtain ⟨t, ts, htokens, hparen, -⟩ := ihl
    have hweak : ¬ 7 < op.strength := by cases op <;> decide
    simp only [tokens, Token.parenthesized, htokens]
    split
    · exact ⟨_, _, rfl, by simp, fun h => absurd h hweak⟩
    · exact ⟨_, _, rfl, hparen, fun h => absurd h hweak⟩
  | call name args p => exact ⟨_, _, rfl, by simp, fun _ => rfl⟩
  | inList operand list p => exact ⟨_, _, rfl, by simp, fun _ => rfl⟩

theorem head_tokens_ne (e : Expr) (us : List Token) :
    (e.tokens ++ us).head? ≠ some .rightParen := by
  obtain ⟨t, ts, htokens, hparen, -⟩ := e.exists_tokens
  simpa [htokens] using hparen

end Expr

/-! ### Reading the text -/

/-- The text is read as the tokens in front of every text that ends a token. -/
def Lexer.SpellsBefore (text : String) (ts : List Token) : Prop :=
  ∀ cs us, Stops cs → Spells cs us → Spells (text.toList ++ cs) (ts ++ us)

namespace Lexer.SpellsBefore

variable {text : String} {ts : List Token}

theorem token {t : Token} (h : t.Lexable) : SpellsBefore t.text [t] :=
  fun _ _ hcs hus => hus.token h hcs

theorem parenthesized (h : SpellsBefore text ts) (needed : Bool) :
    SpellsBefore (Expr.parenthesized needed text) (Token.parenthesized needed ts) := by
  intro cs us hcs hus
  cases needed with
  | false => exact h cs us hcs hus
  | true =>
    have hinner := h (')' :: cs) (.rightParen :: us) (by simp) hus.rightParen
    simpa [Expr.parenthesized, Token.parenthesized] using hinner.leftParen

end Lexer.SpellsBefore

namespace Expr

/-- Expressions with commas between them. -/
theorem spells_separated {es : List Expr} (h : ∀ e ∈ es, SpellsBefore e.text e.tokens) :
    SpellsBefore (",".intercalate (es.map text)) ([Token.comma].intercalate (es.map tokens)) := by
  induction es with
  | nil => exact fun cs us _ hus => by simpa using hus
  | cons e es ih =>
    obtain ⟨he, hes⟩ := List.forall_mem_cons.mp h
    intro cs us hcs hus
    cases es with
    | nil => simpa using he cs us hcs hus
    | cons e' es =>
      have hothers := (ih hes cs us hcs hus).comma
      simpa [String.intercalate_cons_cons, List.intercalate_cons_cons] using
        he _ _ (by simp) hothers

/-- The arguments of a call, after its name. -/
theorem spells_arguments {es : List Expr} (h : ∀ e ∈ es, SpellsBefore e.text e.tokens) :
    SpellsBefore ("(" ++ ",".intercalate (es.map text) ++ ")") (Token.arguments (es.map tokens)) := by
  intro cs us hcs hus
  have hinner := spells_separated h (')' :: cs) (.rightParen :: us) (by simp) hus.rightParen
  simpa [Token.arguments] using hinner.leftParen

/-- A call is read as its name and its arguments. -/
theorem spells_call {name : String} {es : List Expr} (hname : (Token.ident name).Lexable)
    (h : ∀ e ∈ es, SpellsBefore e.text e.tokens) :
    SpellsBefore (name ++ "(" ++ ",".intercalate (es.map text) ++ ")")
      (.ident name :: Token.arguments (es.map tokens)) := by
  intro cs us hcs hus
  have harguments := (spells_arguments h cs us hcs hus).token hname (by simp)
  simpa [Token.text] using harguments

/-- Only the minus sign starts with one. -/
theorem avoids_minus {t : Token} (ht : t.Lexable) (hne : t ≠ .op "-") (cs : List Char) :
    Avoids (· == '-') (t.text.toList ++ cs) := by
  have hread := ht.token?
  cases htext : t.text.toList with
  | nil => simp [htext, Lexer.token?] at hread
  | cons c tail =>
    rw [List.cons_append, avoids_cons, beq_eq_false_iff_ne]
    rintro rfl
    rw [htext, token?_minus] at hread
    exact hne (Prod.mk.inj (Option.some.inj hread)).1.symm

theorem ne_minus_of_isConstant {t : Token} (h : Grammar.IsConstant t) : t ≠ .op "-" := by
  rintro rfl
  exact h

/-- The text after a sign does not start with a sign. -/
theorem avoids_minus_text {signed : Bool} {e : Expr} (h : FromTokens Token.Lexable signed e)
    (hstrength : 7 < e.strength) (cs : List Char) : Avoids (· == '-') (e.text.toList ++ cs) := by
  cases h with
  | column htoken =>
    simpa [text, ColumnRef.text_ofText, Token.text] using avoids_minus htoken (by simp) cs
  | constant htoken hconstant => exact avoids_minus htoken (ne_minus_of_isConstant hconstant) cs
  | queryRef htoken => exact avoids_minus htoken (by simp) cs
  | neg => exact absurd hstrength (Nat.lt_irrefl 7)
  | not => simp [text]
  | binary op =>
    have hop : op.strength ≤ 6 := by cases op <;> decide
    exact absurd hstrength (by simp only [strength]; omega)
  | @call _ name args htoken =>
    have hname := avoids_minus htoken (by simp)
      (("(" ++ ",".intercalate (textList args) ++ ")").toList ++ cs)
    simpa [text, Token.text] using hname
  | inList => simp [text]

/-- **The canonical text of an expression is read as its tokens.** -/
theorem spells_text {signed : Bool} {e : Expr} (h : FromTokens Token.Lexable signed e) :
    SpellsBefore e.text e.tokens := by
  induction h with
  | column htoken hname =>
    simpa [text, tokens, ColumnRef.text_ofText, Token.text] using SpellsBefore.token htoken
  | constant htoken hconstant =>
    simpa [text, tokens, Token.ofConstant_text htoken hconstant.isTerm, hconstant.unquoted] using
      SpellsBefore.token htoken
  | queryRef htoken => simpa [text, tokens, Token.text] using SpellsBefore.token htoken
  | @neg _ operand h _ ih =>
    intro cs us hcs hus
    have hoperand := ih.parenthesized (operand.strength ≤ 7) cs us hcs hus
    have havoids : Avoids (· == '-')
        ((parenthesized (operand.strength ≤ 7) operand.text).toList ++ cs) := by
      by_cases hweak : operand.strength ≤ 7
      · simp [parenthesized, hweak]
      · simpa [parenthesized, hweak] using avoids_minus_text h (by omega) cs
    simpa [text, tokens] using hoperand.minus havoids
  | @not _ operand h _ ih =>
    have hnot := lexable_keyword "not" (by simp [keywords])
    have hoperand : ∀ e ∈ [operand], SpellsBefore e.text e.tokens := by simpa using ih
    simpa [text, tokens] using spells_call hnot hoperand
  | @binary _ left right op hl hr _ ihl ihr =>
    intro cs us hcs hus
    have hright := (ihr.parenthesized (right.strength ≤ op.strength) cs us hcs hus).space
    have hop := (hright.token op.lexable_token (by simp)).space
    have hleft := ihl.parenthesized (left.strength < op.strength) _ _ (by simp) hop
    simpa [text, tokens] using hleft
  | call htoken hname hargs _ ih =>
    simpa [text, tokens, textList_eq_map, tokensList_eq_map] using spells_call htoken ih
  | @inList _ operand list h hlist _ ih ihs =>
    have hall : ∀ e ∈ list.reverse ++ [operand], SpellsBefore e.text e.tokens := by
      simpa [or_imp, forall_and] using ⟨ihs, ih⟩
    have hin := lexable_keyword "in" (by simp [keywords])
    simpa [text, tokens, textList_eq_map, tokensList_eq_map] using spells_call hin hall

end Expr

end SeriesQuery
