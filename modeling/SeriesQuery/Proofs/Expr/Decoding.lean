import SeriesQuery.Proofs.Expr.RoundTrip

/-!
What the canonical text of an expression tells of it.

The text writes a `not` and a list test as calls, and does not say of a word whether it is a name
or a constant; `Expr.told` is the expression with nothing left in it but what the text tells. An
expression of that kind (`Expr.Bare`) is told by its tokens, whatever follows that cannot go on
with it (`Expr.Bare.told`). Its operators are compared from the left, an operand and an operator
at a time: `Expr.spine` takes an expression apart in that order.
-/

namespace SeriesQuery

namespace Expr

mutual

/-- The expression with names and query references as constants of the same text, with `not` and
list tests as the calls they are written as, and without positions. -/
def told : Expr → Expr
  | column ref _ => constant ref.text 0
  | constant text _ | queryRef text _ => constant text 0
  | unary .not operand _ => call "not" [operand.told] 0
  | unary .neg operand _ => unary .neg operand.told 0
  | binary op left right _ => binary op left.told right.told 0
  | call name args _ => call name (toldList args) 0
  | inList operand list _ => call "in" ((toldList list).reverse ++ [operand.told]) 0

/-- Each of the expressions with what its text tells. -/
def toldList : List Expr → List Expr
  | [] => []
  | e :: es => e.told :: toldList es

end

theorem toldList_eq_map (es : List Expr) : toldList es = es.map told := by
  induction es with
  | nil => rfl
  | cons e es ih => simp [toldList, ih]

@[simp] theorem strength_told (e : Expr) : e.told.strength = e.strength := by
  cases e with
  | unary op => cases op <;> rfl
  | _ => rfl

/-- The text tells no more than that. -/
@[simp] theorem text_told (e : Expr) : e.told.text = e.text := by
  induction e using Expr.induct with
  | column | constant | queryRef => rfl
  | unary op operand p ih =>
    cases op with
    | neg => simp [told, text, ih]
    | not => simp [told, text, textList, ih]
  | binary op left right p ihl ihr => simp [told, text, ihl, ihr]
  | call name args p ih =>
    simp only [told, text, textList_eq_map, toldList_eq_map, List.map_map]
    rw [List.map_congr_left (f := text ∘ told) ih]
  | inList operand list p ih ihs =>
    simp only [told, text, textList_eq_map, toldList_eq_map, List.map_append, List.map_reverse,
      List.map_map, List.map_cons, List.map_nil, ih]
    rw [List.map_congr_left (f := text ∘ told) ihs]
    rfl

/-- An expression in which nothing is left but what its text tells. -/
inductive Bare : Expr → Prop where
  | constant (text : String) : Bare (constant text 0)
  | neg {operand : Expr} (h : Bare operand) : Bare (unary .neg operand 0)
  | binary (op : BinaryOp) {left right : Expr} (hl : Bare left) (hr : Bare right) :
      Bare (binary op left right 0)
  | call (name : String) {args : List Expr} (hargs : ∀ a ∈ args, Bare a) : Bare (call name args 0)

theorem bare_told (e : Expr) : e.told.Bare := by
  induction e using Expr.induct with
  | column | constant | queryRef => exact .constant _
  | unary op operand p ih =>
    cases op with
    | neg => exact .neg ih
    | not => exact .call _ (by simpa using ih)
  | binary op left right p ihl ihr => exact .binary op ihl ihr
  | call name args p ih =>
    rw [told, toldList_eq_map]
    exact .call _ (by simpa using ih)
  | inList operand list p ih ihs =>
    rw [told, toldList_eq_map]
    exact .call _ (by simpa [or_imp, forall_and] using ⟨ihs, ih⟩)

theorem unquoted_parenthesized (needed : Bool) (ts : List Token) :
    (Token.parenthesized needed ts).map Token.unquoted =
      Token.parenthesized needed (ts.map Token.unquoted) := by
  cases needed <;> simp [Token.parenthesized, Token.unquoted]

theorem unquoted_separated (args : List (List Token)) :
    ([Token.comma].intercalate args).map Token.unquoted =
      [Token.comma].intercalate (args.map (List.map Token.unquoted)) := by
  induction args with
  | nil => rfl
  | cons arg args ih =>
    cases args with
    | nil => simp
    | cons => simpa [List.intercalate_cons_cons, Token.unquoted] using ih

theorem unquoted_arguments (args : List (List Token)) :
    (Token.arguments args).map Token.unquoted =
      Token.arguments (args.map (List.map Token.unquoted)) := by
  simp [Token.arguments, unquoted_separated, Token.unquoted]

/-- The tokens of the text are those of what it tells, except for the quotes of references. -/
theorem FromTokens.tokens_told {signed : Bool} {e : Expr} (h : FromTokens Token.Lexable signed e) :
    e.told.tokens = e.tokens.map Token.unquoted := by
  induction h with
  | @column _ text htoken =>
    have hword : Token.ofConstant text = .ident text := Token.ofConstant_text htoken trivial
    simp [told, tokens, ColumnRef.text_ofText, hword, Token.unquoted]
  | constant htoken hconstant =>
    simp [told, tokens, Token.ofConstant_text htoken hconstant.isTerm, hconstant.unquoted]
  | @queryRef _ text htoken =>
    have hword : Token.ofConstant text = .ident text := Token.ofConstant_text htoken trivial
    simp [told, tokens, hword, Token.unquoted]
  | neg h _ ih => simp [told, tokens, unquoted_parenthesized, ih, Token.unquoted]
  | not h _ ih => simp [told, tokens, tokensList, unquoted_arguments, ih, Token.unquoted]
  | binary op hl hr _ ihl ihr =>
    have hop : op.token.unquoted = op.token := by cases op <;> rfl
    simp [told, tokens, unquoted_parenthesized, ihl, ihr, hop]
  | call htoken hname hargs _ ih =>
    simp only [told, tokens, tokensList_eq_map, toldList_eq_map, List.map_map, List.map_cons,
      unquoted_arguments, Token.unquoted]
    rw [List.map_congr_left (f := tokens ∘ told) ih]
    rfl
  | inList h hlist _ ih ihs =>
    simp only [told, tokens, tokensList_eq_map, toldList_eq_map, List.map_append, List.map_reverse,
      List.map_map, List.map_cons, List.map_nil, ih, unquoted_arguments, Token.unquoted]
    rw [List.map_congr_left (f := tokens ∘ told) ihs]
    rfl

/-! ### Operands and operators in order -/

/-- The tokens of the expression where a weaker one than `least` needs parentheses. -/
def side (least : Nat) (e : Expr) : List Token :=
  Token.parenthesized (e.strength < least) e.tokens

/-- An expression taken apart where operators at least as strong as `least` stand side by side:
its first operand, and each operator with what is right of it. -/
def spine (least : Nat) : Expr → Expr × List (BinaryOp × Expr)
  | binary op left right p =>
    if op.strength < least then (binary op left right p, [])
    else ((left.spine op.strength).1, (left.spine op.strength).2 ++ [(op, right)])
  | e => (e, [])

/-- The operand with operators put to its right, one after the other. -/
def extend (e : Expr) (ops : List (BinaryOp × Expr)) : Expr :=
  ops.foldl (fun left x => binary x.1 left x.2 0) e

/-- The tokens of operators with what is right of each. -/
def roundTokens (ops : List (BinaryOp × Expr)) : List Token :=
  ops.flatMap fun x => x.1.token :: x.2.side (x.1.strength + 1)

theorem side_of_le {least : Nat} {e : Expr} (h : least ≤ e.strength) : e.side least = e.tokens := by
  simp [side, Token.parenthesized, Nat.not_lt.mpr h]

theorem side_of_lt {least : Nat} {e : Expr} (h : e.strength < least) :
    e.side least = .leftParen :: e.tokens ++ [.rightParen] := by
  simp [side, Token.parenthesized, h]

theorem side_one (e : Expr) : e.side 1 = e.tokens :=
  side_of_le e.one_le_strength

theorem strength_lt (op : BinaryOp) : op.strength < 7 :=
  Nat.lt_succ_of_le (strength_binary op).2

theorem spine_of_strong {least : Nat} {e : Expr} (h : 7 ≤ e.strength) : e.spine least = (e, []) := by
  cases e with
  | binary op => exact absurd (strength_lt op) (Nat.not_lt.mpr h)
  | _ => rfl

theorem tokens_neg (operand : Expr) (p : Nat) :
    (unary .neg operand p).tokens = .op "-" :: operand.side 8 := by
  simp only [tokens, side, Nat.lt_succ_iff]

theorem tokens_binary (op : BinaryOp) (left right : Expr) (p : Nat) :
    (binary op left right p).tokens =
      left.side op.strength ++ op.token :: right.side (op.strength + 1) := by
  simp only [tokens, side, Nat.lt_succ_iff]

section Spine

variable {least : Nat} {e : Expr}

theorem Bare.extend_spine (h : e.Bare) (least : Nat) :
    extend (e.spine least).1 (e.spine least).2 = e := by
  induction h generalizing least with
  | @binary op left right hl hr ihl ihr =>
    rw [spine]
    split
    · rfl
    · simpa [extend] using ihl op.strength
  | _ => rfl

theorem Bare.bare_spine (h : e.Bare) :
    (e.spine least).1.Bare ∧ ∀ x ∈ (e.spine least).2, x.2.Bare := by
  induction h generalizing least with
  | @binary op left right hl hr ihl ihr =>
    rw [spine]
    split
    · exact ⟨hl.binary op hr, by simp⟩
    · refine ⟨ihl.1, fun x hx => ?_⟩
      rcases List.mem_append.mp hx with hx | hx
      · exact ihl.2 x hx
      · obtain rfl := List.mem_singleton.mp hx
        exact hr
  | constant => exact ⟨.constant _, by simp [spine]⟩
  | neg h => exact ⟨.neg h, by simp [spine]⟩
  | call name hargs => exact ⟨.call name hargs, by simp [spine]⟩

/-- Where operators stand side by side none is stronger than the one before it, and none is weaker
than `least`. -/
theorem strength_spine (e : Expr) (least : Nat) :
    (∀ x ∈ (e.spine least).2, least ≤ x.1.strength) ∧
      (e.spine least).2.Pairwise fun x y => y.1.strength ≤ x.1.strength := by
  induction e using Expr.induct generalizing least with
  | binary op left right p ihl =>
    rw [spine]
    split
    · simp
    · rename_i hle
      obtain ⟨hleast, hsorted⟩ := ihl op.strength
      refine ⟨fun x hx => ?_, List.pairwise_append.mpr ⟨hsorted, List.pairwise_singleton _ _, ?_⟩⟩
      · rcases List.mem_append.mp hx with hx | hx
        · exact Nat.le_trans (Nat.not_lt.mp hle) (hleast x hx)
        · obtain rfl := List.mem_singleton.mp hx
          exact Nat.not_lt.mp hle
      · simpa using fun o r hx => hleast (o, r) hx
  | _ => simp [spine]

theorem side_spine_of_strong (h : 7 ≤ e.strength) (hleast : least ≤ 7) :
    e.side least = (e.spine least).1.side 7 ++ roundTokens (e.spine least).2 := by
  rw [spine_of_strong h, side_of_le (Nat.le_trans hleast h), side_of_le h]
  simp [roundTokens]

/-- The tokens of an expression are those of its operands and operators in order. -/
theorem side_spine (e : Expr) (hleast : least ≤ 7) :
    e.side least = (e.spine least).1.side 7 ++ roundTokens (e.spine least).2 := by
  induction e using Expr.induct generalizing least with
  | binary op left right p ihl =>
    have hop := strength_lt op
    rw [spine]
    split
    · rename_i hlt
      rw [side_of_lt (show (binary op left right p).strength < least from hlt),
        side_of_lt (show (binary op left right p).strength < 7 from hop)]
      simp [roundTokens]
    · rename_i hle
      rw [side_of_le (show least ≤ (binary op left right p).strength from Nat.not_lt.mp hle),
        tokens_binary, ihl (Nat.le_of_lt hop)]
      simp [roundTokens]
  | unary op => exact side_spine_of_strong (by cases op <;> simp [strength]) hleast
  | _ => exact side_spine_of_strong (Nat.le_succ 7) hleast

end Spine

/-! ### Expressions told by their tokens -/

open Grammar (Ends ends_of_closes ends_token)
open Parser.Takes (Closes closes_commas intercalate_eq_flatMap)

variable {e : Expr} {least : Nat} {us us' : List Token}

/-- The tokens tell the expression in front of all that cannot go on with it. -/
def ToldAt (least : Nat) (e : Expr) : Prop :=
  ∀ e' us us', Bare e' → Ends least us → Ends least us' →
    e.side least ++ us = e'.side least ++ us' → e = e' ∧ us = us'

theorem ends_roundTokens {ops : List (BinaryOp × Expr)} (hops : ∀ x ∈ ops, x.1.strength < least)
    (hus : Ends least us) : Ends least (roundTokens ops ++ us) := by
  cases ops with
  | nil => exact hus
  | cons x ops => exact ends_token (hops x List.mem_cons_self)

/-- Operators and what is right of them, as long as none is stronger than the one before it. -/
theorem told_rounds {ops ops' : List (BinaryOp × Expr)}
    (htold : ∀ x ∈ ops, ToldAt (x.1.strength + 1) x.2) (hbare : ∀ x ∈ ops', x.2.Bare)
    (hops : ∀ x ∈ ops, least ≤ x.1.strength) (hops' : ∀ x ∈ ops', least ≤ x.1.strength)
    (hsorted : ops.Pairwise fun x y => y.1.strength ≤ x.1.strength)
    (hsorted' : ops'.Pairwise fun x y => y.1.strength ≤ x.1.strength)
    (hus : Ends least us) (hus' : Ends least us')
    (h : roundTokens ops ++ us = roundTokens ops' ++ us') : ops = ops' ∧ us = us' := by
  induction ops generalizing ops' with
  | nil =>
    cases ops' with
    | nil => exact ⟨rfl, h⟩
    | cons x' ops' =>
      obtain ⟨-, -, hop⟩ := hus x'.1.token (by simp [show us = _ from h, roundTokens])
      have hweak := hop x'.1 (Grammar.operator?_token x'.1)
      exact absurd (hops' x' List.mem_cons_self) (Nat.not_le.mpr hweak)
  | cons x ops ih =>
    cases ops' with
    | nil =>
      obtain ⟨-, -, hop⟩ := hus' x.1.token (by simp [← show _ = us' from h, roundTokens])
      have hweak := hop x.1 (Grammar.operator?_token x.1)
      exact absurd (hops x List.mem_cons_self) (Nat.not_le.mpr hweak)
    | cons x' ops' =>
      obtain ⟨op, right⟩ := x
      obtain ⟨op', right'⟩ := x'
      simp only [List.forall_mem_cons, List.pairwise_cons] at *
      obtain ⟨hop, hright⟩ : op.token = op'.token ∧
          right.side (op.strength + 1) ++ (roundTokens ops ++ us) =
            right'.side (op'.strength + 1) ++ (roundTokens ops' ++ us') := by
        simpa [roundTokens] using h
      obtain rfl : op = op' := by
        simpa using congrArg Grammar.operator? hop
      have hends : ∀ {ops : List (BinaryOp × Expr)} {us : List Token},
          (∀ x ∈ ops, x.1.strength ≤ op.strength) → Ends least us →
            Ends (op.strength + 1) (roundTokens ops ++ us) := fun hle hus =>
        ends_roundTokens (fun x hx => Nat.lt_succ_of_le (hle x hx))
          (hus.mono (Nat.le_succ_of_le hops.1))
      obtain ⟨rfl, hrest⟩ := htold.1 right' _ _ hbare.1 (hends hsorted.1 hus)
        (hends hsorted'.1 hus') hright
      obtain ⟨rfl, rfl⟩ := ih htold.2 hbare.2 hops.2 hops'.2 hsorted.2 hsorted'.2 hrest
      exact ⟨rfl, rfl⟩

/-- An expression is told if its operands are. -/
theorem toldAt_of_spine (he : e.Bare) (hleast : least ≤ 7) (hfirst : ToldAt 7 (e.spine least).1)
    (hothers : ∀ x ∈ (e.spine least).2, ToldAt (x.1.strength + 1) x.2) : ToldAt least e := by
  intro e' us us' he' hus hus' h
  rw [side_spine e hleast, side_spine e' hleast, List.append_assoc, List.append_assoc] at h
  have hends : ∀ {ops : List (BinaryOp × Expr)} {us : List Token}, Ends least us →
      Ends 7 (roundTokens ops ++ us) := fun hus =>
    ends_roundTokens (fun x _ => strength_lt x.1) (hus.mono hleast)
  obtain ⟨hfirst, hrounds⟩ := hfirst _ _ _ he'.bare_spine.1 (hends hus) (hends hus') h
  obtain ⟨hops, hsorted⟩ := strength_spine e least
  obtain ⟨hops', hsorted'⟩ := strength_spine e' least
  obtain ⟨hothers, rfl⟩ := told_rounds hothers he'.bare_spine.2 hops hops' hsorted hsorted'
    hus hus' hrounds
  refine ⟨?_, rfl⟩
  rw [← he.extend_spine least, ← he'.extend_spine least, hfirst, hothers]

/-! ### Operands -/

theorem ofConstant_ne (text : String) :
    Token.ofConstant text ≠ .leftParen ∧ ∀ s, Token.ofConstant text ≠ .op s := by
  unfold Token.ofConstant
  split
  · simp
  · repeat' split
    all_goals simp

theorem ofConstant_inj {text text' : String}
    (h : Token.ofConstant text = Token.ofConstant text') : text = text' := by
  have htext : ∀ text, (Token.ofConstant text).text = text := by
    intro text
    unfold Token.ofConstant
    split
    · rfl
    · repeat' split
      all_goals rfl
  rw [← htext text, h, htext]

/-- The operand is told by its tokens among those that need no parentheses. -/
def Solid (e : Expr) : Prop :=
  ∀ e' us us', Bare e' → 7 ≤ e'.strength → Ends 8 us → Ends 8 us' →
    e.tokens ++ us = e'.tokens ++ us' → e = e' ∧ us = us'

theorem solid_constant (text : String) : Solid (constant text 0) := by
  intro e' us us' he' hstrong hus hus' h
  obtain ⟨-, hop⟩ := ofConstant_ne text
  cases he' with
  | constant text' =>
    obtain ⟨htext, rfl⟩ : Token.ofConstant text = Token.ofConstant text' ∧ us = us' := by
      simpa [tokens] using h
    exact ⟨by rw [ofConstant_inj htext], rfl⟩
  | neg =>
    rw [tokens_neg] at h
    obtain ⟨htext, -⟩ := List.cons.inj h
    exact absurd htext (hop "-")
  | binary op => exact absurd (strength_lt op) (Nat.not_lt.mpr hstrong)
  | call name =>
    obtain ⟨-, hrest⟩ := List.cons.inj h
    obtain ⟨hparen, -⟩ := hus .leftParen (by simp [show us = _ from hrest, Token.arguments])
    exact absurd rfl hparen

theorem solid_neg {operand : Expr} (hoperand : ToldAt 8 operand) :
    Solid (unary .neg operand 0) := by
  intro e' us us' he' hstrong hus hus' h
  rw [tokens_neg] at h
  cases he' with
  | constant text' =>
    obtain ⟨htext, -⟩ := List.cons.inj h
    exact absurd htext.symm ((ofConstant_ne text').2 "-")
  | neg he' =>
    rw [tokens_neg] at h
    obtain ⟨rfl, rfl⟩ := hoperand _ us us' he' hus hus' (List.cons.inj h).2
    exact ⟨rfl, rfl⟩
  | binary op => exact absurd (strength_lt op) (Nat.not_lt.mpr hstrong)
  | call name => simp [tokens] at h

/-- Arguments after the first, each with the comma in front of it. -/
theorem told_commas {es es' : List Expr} (htold : ∀ e ∈ es, ToldAt 1 e) (hbare : ∀ e ∈ es', e.Bare)
    (h : es.flatMap (fun e => .comma :: e.tokens) ++ .rightParen :: us =
      es'.flatMap (fun e => .comma :: e.tokens) ++ .rightParen :: us') : es = es' ∧ us = us' := by
  induction es generalizing es' with
  | nil =>
    cases es' with
    | nil => simpa using h
    | cons => simp at h
  | cons e es ih =>
    cases es' with
    | nil => simp at h
    | cons e' es' =>
      obtain ⟨he, hes⟩ := List.forall_mem_cons.mp htold
      obtain ⟨he', hes'⟩ := List.forall_mem_cons.mp hbare
      obtain ⟨rfl, hrest⟩ := he e' _ _ he' (ends_of_closes (closes_commas (.inr rfl)))
        (ends_of_closes (closes_commas (.inr rfl))) (by simpa [side_one] using h)
      obtain ⟨rfl, rfl⟩ := ih hes hes' hrest
      exact ⟨rfl, rfl⟩

/-- The arguments of a call. -/
theorem told_arguments {es es' : List Expr} (htold : ∀ e ∈ es, ToldAt 1 e)
    (hbare : ∀ e ∈ es', e.Bare)
    (h : Token.arguments (es.map tokens) ++ us = Token.arguments (es'.map tokens) ++ us') :
    es = es' ∧ us = us' := by
  have h : [Token.comma].intercalate (es.map tokens) ++ .rightParen :: us =
      [Token.comma].intercalate (es'.map tokens) ++ .rightParen :: us' := by
    simpa [Token.arguments] using h
  have hhead := congrArg List.head? h
  cases es with
  | nil =>
    cases es' with
    | nil => simpa using h
    | cons e' es' =>
      rw [intercalate_eq_flatMap, List.append_assoc] at hhead
      exact absurd hhead.symm (head_tokens_ne e' _)
  | cons e es =>
    cases es' with
    | nil =>
      rw [intercalate_eq_flatMap, List.append_assoc] at hhead
      exact absurd hhead (head_tokens_ne e _)
    | cons e' es' =>
      obtain ⟨he, hes⟩ := List.forall_mem_cons.mp htold
      obtain ⟨he', hes'⟩ := List.forall_mem_cons.mp hbare
      rw [intercalate_eq_flatMap, intercalate_eq_flatMap] at h
      obtain ⟨rfl, hrest⟩ := he e' _ _ he' (ends_of_closes (closes_commas (.inr rfl)))
        (ends_of_closes (closes_commas (.inr rfl))) (by simpa [side_one] using h)
      obtain ⟨rfl, rfl⟩ := told_commas hes hes' hrest
      exact ⟨rfl, rfl⟩

theorem solid_call (name : String) {args : List Expr} (hargs : ∀ a ∈ args, ToldAt 1 a) :
    Solid (call name args 0) := by
  intro e' us us' he' hstrong hus hus' h
  cases he' with
  | constant text' =>
    obtain ⟨-, hrest⟩ := List.cons.inj h
    obtain ⟨hparen, -⟩ := hus' .leftParen (by simp [← show _ = us' from hrest, Token.arguments])
    exact absurd rfl hparen
  | neg => simp [tokens] at h
  | binary op => exact absurd (strength_lt op) (Nat.not_lt.mpr hstrong)
  | call name' hbare =>
    simp only [tokens, tokensList_eq_map, List.cons_append, List.cons.injEq, Token.ident.injEq] at h
    obtain ⟨rfl, harguments⟩ := h
    obtain ⟨rfl, rfl⟩ := told_arguments hargs hbare harguments
    exact ⟨rfl, rfl⟩

theorem head_tokens_of_strong (h : 7 ≤ e.strength) (us : List Token) :
    (e.tokens ++ us).head? ≠ some .leftParen := by
  cases e with
  | constant text => simpa [tokens] using (ofConstant_ne text).1
  | unary op => cases op <;> simp [tokens]
  | binary op => exact absurd (strength_lt op) (Nat.not_lt.mpr h)
  | _ => simp [tokens]

/-- Where only operands stand without parentheses, parentheses tell an expression from one. -/
theorem toldAt_of_solid (hleast : 7 ≤ least) (hle : least ≤ 8)
    (hwhole : e.strength < least → ToldAt 1 e) (hsolid : 7 ≤ e.strength → Solid e) :
    ToldAt least e := by
  intro e' us us' he' hus hus' h
  by_cases hweak : e.strength < least <;> by_cases hweak' : e'.strength < least
  · rw [side_of_lt hweak, side_of_lt hweak'] at h
    have hends : ∀ us, Ends 1 (.rightParen :: us) := fun us => ends_of_closes (.inr rfl)
    obtain ⟨rfl, hrest⟩ :=
      hwhole hweak e' _ _ he' (hends us) (hends us') (by simpa [side_one] using h)
    exact ⟨rfl, (List.cons.inj hrest).2⟩
  · rw [side_of_lt hweak, side_of_le (Nat.not_lt.mp hweak')] at h
    exact absurd (congrArg List.head? h).symm (head_tokens_of_strong (by omega) us')
  · rw [side_of_le (Nat.not_lt.mp hweak), side_of_lt hweak'] at h
    exact absurd (congrArg List.head? h) (head_tokens_of_strong (by omega) us)
  · rw [side_of_le (Nat.not_lt.mp hweak), side_of_le (Nat.not_lt.mp hweak')] at h
    exact hsolid (by omega) e' us us' he' (by omega) (hus.mono hle) (hus'.mono hle) h

/-- What is told of an expression wherever it stands, and of the pieces it is taken apart into. -/
structure Told (e : Expr) : Prop where
  side : ∀ least ≤ 8, ToldAt least e
  spine : ∀ least, ToldAt 7 (e.spine least).1 ∧
    ∀ x ∈ (e.spine least).2, ToldAt (x.1.strength + 1) x.2

theorem told_of_spine (he : e.Bare) (hsolid : 7 ≤ e.strength → Solid e)
    (hspine : ∀ least, ToldAt 7 (e.spine least).1 ∧
      ∀ x ∈ (e.spine least).2, ToldAt (x.1.strength + 1) x.2) : Told e := by
  have hlow : ∀ least ≤ 7, ToldAt least e := fun least hleast =>
    toldAt_of_spine he hleast (hspine least).1 (hspine least).2
  refine ⟨fun least hleast => ?_, hspine⟩
  by_cases hle : least ≤ 7
  · exact hlow least hle
  · exact toldAt_of_solid (by omega) hleast (fun _ => hlow 1 (by decide)) hsolid

theorem told_of_solid (he : e.Bare) (hstrong : 7 ≤ e.strength) (hsolid : Solid e) : Told e := by
  have hseven : ToldAt 7 e := toldAt_of_solid (Nat.le_refl 7) (by decide)
    (fun hweak => absurd hstrong (Nat.not_le.mpr hweak)) fun _ => hsolid
  refine told_of_spine he (fun _ => hsolid) fun least => ?_
  rw [spine_of_strong hstrong]
  exact ⟨hseven, List.forall_mem_nil _⟩

/-- Side by side an expression is told by its first operand and what is right of its operators, so
in parentheses it is, and so it is as an operand. -/
theorem told_binary (op : BinaryOp) {left right : Expr} (hl : left.Bare) (hr : right.Bare)
    (htoldl : Told left) (htoldr : Told right) : Told (binary op left right 0) := by
  have hop := strength_lt op
  have hopen : ∀ least, ¬ op.strength < least →
      ToldAt 7 ((binary op left right 0).spine least).1 ∧
        ∀ x ∈ ((binary op left right 0).spine least).2, ToldAt (x.1.strength + 1) x.2 := by
    intro least hle
    obtain ⟨hfirst, hothers⟩ := htoldl.spine op.strength
    rw [spine, if_neg hle]
    refine ⟨hfirst, fun x hx => ?_⟩
    rcases List.mem_append.mp hx with hx | hx
    · exact hothers x hx
    · obtain rfl := List.mem_singleton.mp hx
      exact htoldr.side _ (Nat.succ_le_succ (Nat.le_of_lt hop))
  have hone : ¬ op.strength < 1 := Nat.not_lt.mpr (strength_binary op).1
  have hwhole : ToldAt 1 (binary op left right 0) :=
    toldAt_of_spine (hl.binary op hr) (by decide) (hopen 1 hone).1 (hopen 1 hone).2
  have hsolid : 7 ≤ (binary op left right 0).strength → Solid (binary op left right 0) :=
    fun hstrong => absurd hop (Nat.not_lt.mpr hstrong)
  have hseven : ToldAt 7 (binary op left right 0) :=
    toldAt_of_solid (Nat.le_refl 7) (by decide) (fun _ => hwhole) hsolid
  refine told_of_spine (hl.binary op hr) hsolid fun least => ?_
  by_cases hlt : op.strength < least
  · rw [spine, if_pos hlt]
    exact ⟨hseven, List.forall_mem_nil _⟩
  · exact hopen least hlt

/-- **What a text tells is told by its tokens.** -/
theorem Bare.told (he : e.Bare) : Told e := by
  induction he with
  | constant text => exact told_of_solid (.constant text) (by simp [strength]) (solid_constant text)
  | neg h ih => exact told_of_solid h.neg (by simp [strength]) (solid_neg (ih.side 8 (by simp)))
  | binary op hl hr ihl ihr => exact told_binary op hl hr ihl ihr
  | call name hargs ih =>
    exact told_of_solid (.call name hargs) (by simp [strength])
      (solid_call name fun a ha => (ih a ha).side 1 (by simp))

theorem Bare.eq_of_tokens_eq {e' : Expr} (he : e.Bare) (he' : e'.Bare) (h : e.tokens = e'.tokens) :
    e = e' := by
  have hends : Ends 1 [] := by simp [Ends]
  exact (he.told.side 1 (by decide) e' [] [] he' hends hends (by simpa [side_one] using h)).1

end Expr

end SeriesQuery
