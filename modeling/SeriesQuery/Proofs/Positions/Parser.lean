import SeriesQuery.Expr.Parser
import SeriesQuery.Proofs.Positions.Forgetting

/-!
Readers that never look at positions.

A reader goes by tokens alone: in front of the same lexemes without positions it takes as many of
them and answers the same without positions. That is so of the readers of the cursor, of every way
to put readers together, and so of expressions (`Expr.parser_forgets`).
-/

namespace SeriesQuery

open Forgetful

/-- A lexeme without its place. -/
def Lexeme.erase (l : Lexeme) : Lexeme :=
  ⟨l.token, 0, 0⟩

/-- A cursor over lexemes without their places. -/
def Cursor.erase (c : Cursor) : Cursor :=
  ⟨c.before.map Lexeme.erase, c.after.map Lexeme.erase, 0, c.depth⟩

/-- An answer, an error and the place where they leave the cursor, without positions. -/
def Parser.forget {α α' : Type} (g : α → α') :
    EStateM.Result SqlError Cursor α → EStateM.Result SqlError Cursor α'
  | .ok a c => .ok (g a) c.erase
  | .error e c => .error e.erase c.erase

instance : Forgetful Parser where
  Forgets g p p' := ∀ c : Cursor, p' c.erase = Parser.forget g (p c)
  pure _ _ _ := rfl
  bind := by
    intro _ _ _ _ _ _ p p' f f' hp hf c
    simp only [Bind.bind, EStateM.bind, hp c]
    cases p c with
    | ok a c' => exact hf a c'
    | error e c' => rfl

namespace Parser

variable {α α' β β' : Type} {g : α → α'}

/-! ### The cursor -/

theorem fail_forgets (position : Nat) (fault : Fault) :
    Forgets g (fail position fault : Parser α) (fail 0 fault) :=
  fun _ => rfl

theorem peek_forgets : Forgets (Option.map Lexeme.erase) peek peek := by
  intro c
  simp only [peek, forget, Cursor.erase, List.head?_map]

theorem next_forgets : Forgets (Option.map Lexeme.erase) next next := by
  rintro ⟨before, after, endPosition, depth⟩
  cases after <;> rfl

theorem position_forgets : Forgets (fun _ => 0) position position := by
  rintro ⟨before, after, endPosition, depth⟩
  cases after <;> rfl

theorem get_forgets : Forgets Cursor.erase (MonadState.get : Parser Cursor) MonadState.get :=
  fun _ => rfl

theorem reset_forgets (index : Nat) : Forgets id (reset index) (reset index) := by
  intro c
  simp [reset, forget, Cursor.reset, Cursor.erase, ← List.map_reverse, ← List.map_append,
    ← List.map_take, ← List.map_drop]

theorem needNext_forgets : Forgets Lexeme.erase needNext needNext := by
  refine bind next_forgets fun l => ?_
  cases l with
  | none => exact bind get_forgets fun _ => fail_forgets _ _
  | some l => exact pure Lexeme.erase l

theorem accept_forgets (q : Token → Bool) : Forgets id (accept q) (accept q) := by
  refine bind peek_forgets fun l => ?_
  cases l with
  | none => exact pure id false
  | some l =>
    refine Forgets.ite ?_ (pure id false)
    exact bind next_forgets fun _ => pure id true

theorem takeWord_forgets (keyword : String) :
    Forgets id (takeWord keyword) (takeWord keyword) :=
  accept_forgets _

theorem needWord_forgets (keyword : String) :
    Forgets Lexeme.erase (needWord keyword) (needWord keyword) := by
  refine bind needNext_forgets fun l => ?_
  exact Forgets.ite (pure Lexeme.erase l) (fail_forgets _ _)

theorem needToken_forgets (token : Token) :
    Forgets Lexeme.erase (needToken token) (needToken token) := by
  refine bind needNext_forgets fun l => ?_
  exact Forgets.ite (pure Lexeme.erase l) (fail_forgets _ _)

/-! ### Nesting and repetition -/

theorem nested_forgets {position : Nat} {p : Parser α} {p' : Parser α'} (hp : Forgets g p p') :
    Forgets g (nested position p) (nested 0 p') := by
  intro c
  by_cases hdepth : c.depth < maxNesting
  · have h := hp { c with depth := c.depth + 1 }
    simp only [nested, Cursor.erase, hdepth, if_true] at h ⊢
    rw [h]
    cases p { c with depth := c.depth + 1 } <;> rfl
  · simp only [nested, Cursor.erase, hdepth, if_false]
    rfl

theorem collect_forgets {step : Parser (Option α)} {step' : Parser (Option α')}
    (h : Forgets (Option.map g) step step') (rounds : Nat) :
    Forgets (List.map g) (collect step rounds) (collect step' rounds) := by
  induction rounds with
  | zero => exact pure _ []
  | succ rounds ih =>
    refine bind h fun a? => ?_
    cases a? with
    | none => exact pure _ []
    | some a => exact bind ih fun as => pure (List.map g) (a :: as)

theorem many_forgets {step : Parser (Option α)} {step' : Parser (Option α')}
    (h : Forgets (Option.map g) step step') : Forgets (List.map g) (many step) (many step') := by
  refine bind get_forgets fun c => ?_
  simp only [Cursor.erase, List.length_map]
  exact collect_forgets h _

theorem commaList_forgets {item : Parser α} {item' : Parser α'} (h : Forgets g item item') :
    Forgets (List.map g) (commaList item) (commaList item') := by
  refine bind h fun first => ?_
  refine bind (many_forgets ?_) fun others => pure (List.map g) (first :: others)
  refine bind (accept_forgets _) fun taken => ?_
  exact Forgets.ite (bind h fun a => pure (Option.map g) (some a)) (pure (Option.map g) none)

theorem listUntil_forgets {isEnd : Token → Bool} {expected : String} {item : Parser α}
    {item' : Parser α'} (h : Forgets g item item') :
    Forgets (List.map g) (listUntil isEnd expected item) (listUntil isEnd expected item') := by
  refine bind h fun first => ?_
  refine bind (many_forgets ?_) fun others => pure (List.map g) (first :: others)
  refine bind needNext_forgets fun l => ?_
  refine Forgets.ite (bind h fun a => pure (Option.map g) (some a)) ?_
  exact Forgets.ite (pure (Option.map g) none) (fail_forgets _ _)

end Parser

open SeriesQuery.Parser

/-! ### Expressions -/

namespace Grammar

/-- The readers of a level go by tokens alone. -/
structure ForgetsPositions (inner : Grammar) : Prop where
  expr : ∀ least, Forgets Expr.erase (inner.expr least) (inner.expr least)
  unary : Forgets Expr.erase inner.unary inner.unary

variable {inner : Grammar}

theorem needClosing_forgets : Forgets id needClosing needClosing := by
  refine bind (accept_forgets _) fun taken => Forgets.ite (pure id ()) ?_
  exact bind position_forgets fun _ => fail_forgets _ _

theorem arguments_forgets (h : inner.ForgetsPositions) :
    Forgets (List.map Expr.erase) (arguments inner) (arguments inner) := by
  refine bind (accept_forgets _) fun taken => Forgets.ite (pure (List.map Expr.erase) []) ?_
  refine bind (commaList_forgets (h.expr 1)) fun args => ?_
  exact bind needClosing_forgets fun _ => pure _ args

theorem listItems_forgets (h : inner.ForgetsPositions) :
    Forgets (List.map Expr.erase) (listItems inner) (listItems inner) := by
  refine bind (needToken_forgets _) fun opening => ?_
  refine bind (nested_forgets (commaList_forgets (h.expr 1))) fun items => ?_
  exact bind needClosing_forgets fun _ => pure _ items

theorem word_forgets (h : inner.ForgetsPositions) (text : String) (position : Nat) :
    Forgets Expr.erase (word inner text position) (word inner text 0) := by
  refine bind next_forgets fun _ => ?_
  refine Forgets.ite (pure Expr.erase (.constant text position)) ?_
  refine bind (accept_forgets _) fun taken => ?_
  refine Forgets.ite ?_ (pure Expr.erase (.column (.ofText text) position))
  refine bind (nested_forgets (arguments_forgets h)) fun args => ?_
  rw [← Expr.eraseList_eq_map]
  exact pure Expr.erase (.call text args position)

theorem primary_forgets (h : inner.ForgetsPositions) :
    Forgets Expr.erase (primary inner) (primary inner) := by
  refine bind peek_forgets fun l => ?_
  cases l with
  | none => exact bind get_forgets fun _ => fail_forgets _ _
  | some l =>
    obtain ⟨token, start, stop⟩ := l
    cases token with
    | ident text => exact Forgets.ite (fail_forgets _ _) (word_forgets h text start)
    | number text => exact bind next_forgets fun _ => pure Expr.erase (.constant text start)
    | string text => exact bind next_forgets fun _ => pure Expr.erase (.constant text start)
    | queryRef text => exact bind next_forgets fun _ => pure Expr.erase (.queryRef text start)
    | leftParen =>
      refine bind next_forgets fun _ => ?_
      refine bind (nested_forgets (h.expr 1)) fun e => ?_
      exact bind needClosing_forgets fun _ => pure Expr.erase e
    | _ => exact fail_forgets _ _

theorem signed_forgets (h : inner.ForgetsPositions) :
    Forgets Expr.erase (signed inner) (signed inner) := by
  refine bind peek_forgets fun l => ?_
  cases l with
  | none => exact primary_forgets h
  | some l =>
    refine Forgets.ite ?_ (primary_forgets h)
    refine bind next_forgets fun _ => ?_
    exact bind (nested_forgets h.unary) fun e => pure Expr.erase (.unary .neg e l.start)

theorem operand_forgets (h : inner.ForgetsPositions) :
    Forgets Expr.erase (operand inner) (operand inner) := by
  refine bind peek_forgets fun l => ?_
  cases l with
  | none => exact signed_forgets h
  | some l =>
    refine Forgets.ite ?_ (signed_forgets h)
    refine bind next_forgets fun _ => ?_
    exact bind (nested_forgets (h.expr notStrength)) fun e => pure Expr.erase (.notOf e l.start)

variable {right : Nat → Parser Expr}

theorem continuation_forgets (h : inner.ForgetsPositions)
    (hright : ∀ least, Forgets Expr.erase (right least) (right least)) (least : Nat) (left : Expr) :
    Forgets (Option.map Expr.erase) (continuation inner right least left)
      (continuation inner right least left.erase) := by
  refine bind peek_forgets fun l => ?_
  cases l with
  | none => exact pure (Option.map Expr.erase) none
  | some l =>
    refine Forgets.ite (Forgets.ite (pure (Option.map Expr.erase) none) ?_) ?_
    · refine bind next_forgets fun _ => ?_
      refine bind (listItems_forgets h) fun items => ?_
      rw [← Expr.eraseList_eq_map]
      exact pure (Option.map Expr.erase) (some (.inList left items l.start))
    · cases hop : operator? l.token with
      | none =>
        simp only [Lexeme.erase, hop]
        exact pure (Option.map Expr.erase) none
      | some op =>
        simp only [Lexeme.erase, hop]
        refine Forgets.ite (pure (Option.map Expr.erase) none) ?_
        refine bind next_forgets fun _ => ?_
        exact bind (hright _) fun e =>
          pure (Option.map Expr.erase) (some (.binary op left e l.start))

theorem continuations_forgets (h : inner.ForgetsPositions)
    (hright : ∀ least, Forgets Expr.erase (right least) (right least)) (least rounds : Nat)
    (left : Expr) :
    Forgets Expr.erase (continuations inner right least rounds left)
      (continuations inner right least rounds left.erase) := by
  induction rounds generalizing left with
  | zero => exact pure Expr.erase left
  | succ rounds ih =>
    refine bind (continuation_forgets h hright least left) fun e => ?_
    cases e with
    | none => exact pure Expr.erase left
    | some e => exact ih e

theorem climb_forgets (h : inner.ForgetsPositions) (strengths least : Nat) :
    Forgets Expr.erase (climb inner strengths least) (climb inner strengths least) := by
  induction strengths generalizing least with
  | zero => exact operand_forgets h
  | succ strengths ih =>
    refine bind (operand_forgets h) fun left => ?_
    refine bind get_forgets fun c => ?_
    simp only [Cursor.erase, List.length_map]
    exact continuations_forgets h ih least _ left

theorem deep_forgets (levels : Nat) : (deep levels).ForgetsPositions := by
  induction levels with
  | zero =>
    constructor
    · exact fun _ => bind position_forgets fun _ => fail_forgets _ _
    · exact bind position_forgets fun _ => fail_forgets _ _
  | succ levels ih => exact ⟨climb_forgets ih maxStrength, signed_forgets ih⟩

end Grammar

theorem Expr.parser_forgets : Forgets Expr.erase Expr.parser Expr.parser :=
  (Grammar.deep_forgets _).expr 1

theorem Expr.listParser_forgets :
    Forgets (List.map Expr.erase) Expr.listParser Expr.listParser :=
  commaList_forgets Expr.parser_forgets

end SeriesQuery
