import SeriesQuery.Proofs.Expr.Invariant
import SeriesQuery.Proofs.Expr.Spelling
import SeriesQuery.Proofs.Token.Lexing

/-!
What the words of a text are made of, and the expressions that are read from them.

The parser of expressions takes the lexemes in front of it and makes names, constants and
references of them alone (`Expr.fromTokens_of_read`); what is known of the tokens to come is
an invariant of reading (`Parser.Ensures`). A word has no space, so no column that is read has
a name with a space (`Expr.unspaced_of_read`).
-/

namespace SeriesQuery

open Text

/-! ### Words -/

/-- A word that is an identifier has no space. -/
def Token.Worded (t : Token) : Prop :=
  ∀ text, t = .ident text → Lacks text ' '

namespace Lexer

theorem not_space_of_isIdentPart {c : Char} (h : isIdentPart c = true) : c ≠ ' ' := by
  rintro rfl
  revert h
  decide

theorem not_space_mem_takeWhile (cs : List Char) : ' ' ∉ cs.takeWhile isIdentPart := by
  intro h
  have hpart := List.all_eq_true.mp (List.all_takeWhile (l := cs)) ' ' h
  exact not_space_of_isIdentPart hpart rfl

theorem not_space_mem_word {cs word after : List Char} (h : word? cs = some (word, after)) :
    ' ' ∉ word := by
  cases cs with
  | nil => simp [word?] at h
  | cons c rest =>
    simp only [word?, Option.ite_none_right_eq_some, Option.some.injEq, Prod.mk.injEq] at h
    obtain ⟨hstart, rfl, rfl⟩ := h
    intro hmem
    rcases List.mem_cons.mp hmem with rfl | hmem
    · exact not_space_of_isIdentPart (isIdentPart_of_isIdentStart hstart) rfl
    · exact not_space_mem_takeWhile rest hmem

theorem not_space_mem_splitQualifiers (cs : List Char) : ' ' ∉ (splitQualifiers cs).1 := by
  fun_induction splitQualifiers cs with
  | case1 rest word after h ih =>
    have hword := not_space_mem_word h
    simp [hword, ih]
  | case2 => simp
  | case3 => simp

theorem worded_of_token? {cs after : List Char} {token : Token}
    (h : token? cs = some (token, after)) : token.Worded := by
  rintro text rfl
  unfold token? at h
  split at h
  · cases h
  · rename_i c rest
    split at h
    · rename_i hstart
      simp only [splitIdent, Option.some.injEq, Prod.mk.injEq, Token.ident.injEq] at h
      obtain ⟨rfl, -⟩ := h
      have hc := not_space_of_isIdentPart (isIdentPart_of_isIdentStart hstart)
      have hrest := not_space_mem_takeWhile rest
      have hqualifiers := not_space_mem_splitQualifiers (rest.dropWhile isIdentPart)
      simp [Lacks, hc.symm, hrest, hqualifiers]
    split at h
    · simp [splitNumber] at h
    split at h
    all_goals simp at h

end Lexer

/-- The lexemes of a text have their words without spaces. -/
theorem worded_of_mem_lex {source : String} {lexemes : List Lexeme}
    (h : lex source = .ok lexemes) {l : Lexeme} (hl : l ∈ lexemes) : l.token.Worded :=
  Lexer.worded_of_token? (lexable_of_mem_lex h hl).token?

/-! ### Readers -/

/-- The tokens that a cursor has still to come satisfy `T`. -/
def Cursor.Holds (T : Token → Prop) (c : Cursor) : Prop :=
  ∀ l ∈ c.after, T l.token

theorem Cursor.Holds.advance {T : Token → Prop} {c : Cursor} (h : c.Holds T) :
    c.advance.Holds T := by
  unfold Cursor.advance
  split
  · rename_i l rest heq
    intro l' hl'
    exact h l' (heq ▸ List.mem_cons_of_mem _ hl')
  · exact h

namespace Parser

variable {T : Token → Prop} {α : Type}

/-- What a reader of tokens that satisfy `T` answers satisfies `R`, and the tokens still to
come remain such tokens. -/
def Ensures (T : Token → Prop) (p : Parser α) (R : α → Prop) : Prop :=
  ∀ c a c', c.Holds T → p c = .ok a c' → c'.Holds T ∧ R a

/-- The cursors with such tokens to come, wherever a reader fails. -/
def Invariant.tokens (T : Token → Prop) : Invariant where
  Sound := Cursor.Holds T
  Meets l := T l.token
  Offset _ := True
  Fails _ _ := True
  advance := Cursor.Holds.advance
  next hc l hl := hc l (List.mem_of_mem_head? hl)
  start _ := trivial
  endPosition _ := trivial
  fail _ _ _ := trivial

theorem Ensures.iff_keeps {p : Parser α} {R : α → Prop} :
    Ensures T p R ↔ (Invariant.tokens T).Keeps p R := by
  constructor
  · intro h c hc
    unfold Invariant.KeepsAt
    split
    · rename_i a c' hrun
      exact h c a c' hc hrun
    · trivial
  · intro h c a c' hc hrun
    have hread := h c hc
    unfold Invariant.KeepsAt at hread
    rw [hrun] at hread
    exact hread

theorem Invariant.tokens_anyDepth : (tokens T).AnyDepth where
  sound _ hc := hc
  fails _ h := h
  tooDeep _ _ := trivial

end Parser

/-! ### Expressions made of tokens -/

namespace Expr

/-- The names, constants and query references of the expression are tokens that satisfy `T`,
with names where the grammar takes them for such; `signed` says whether the expression stands
right after a sign. -/
inductive FromTokens (T : Token → Prop) : Bool → Expr → Prop where
  | column {signed : Bool} {text : String} (htoken : T (.ident text))
      (hname : Grammar.Names signed text) (position : Nat) :
      FromTokens T signed (column (.ofText text) position)
  | constant {signed : Bool} {token : Token} (htoken : T token)
      (hconstant : Grammar.IsConstant token) (position : Nat) :
      FromTokens T signed (constant token.text position)
  | queryRef {signed : Bool} {text : String} (htoken : T (.queryRef text)) (position : Nat) :
      FromTokens T signed (queryRef text position)
  | neg {signed : Bool} {operand : Expr} (h : FromTokens T true operand) (position : Nat) :
      FromTokens T signed (unary .neg operand position)
  | not {signed : Bool} {operand : Expr} (h : FromTokens T false operand) (position : Nat) :
      FromTokens T signed (unary .not operand position)
  | binary {signed : Bool} {left right : Expr} (op : BinaryOp) (hl : FromTokens T false left)
      (hr : FromTokens T false right) (position : Nat) :
      FromTokens T signed (binary op left right position)
  | call {signed : Bool} {name : String} {args : List Expr} (htoken : T (.ident name))
      (hname : Grammar.Names signed name) (hargs : ∀ a ∈ args, FromTokens T false a)
      (position : Nat) : FromTokens T signed (call name args position)
  | inList {signed : Bool} {operand : Expr} {list : List Expr} (h : FromTokens T false operand)
      (hlist : ∀ a ∈ list, FromTokens T false a) (position : Nat) :
      FromTokens T signed (inList operand list position)

variable {T : Token → Prop}

/-- A name that is taken without a sign is taken after a sign too. -/
theorem FromTokens.anywhere {e : Expr} (h : FromTokens T false e) (signed : Bool) :
    FromTokens T signed e := by
  have hnames : ∀ {text}, Grammar.Names false text → Grammar.Names signed text :=
    fun h => ⟨h.constant, h.and, h.or, fun _ => h.not rfl⟩
  cases h with
  | column htoken hname => exact .column htoken (hnames hname) _
  | constant htoken hconstant => exact .constant htoken hconstant _
  | queryRef htoken => exact .queryRef htoken _
  | neg h => exact .neg h _
  | not h => exact .not h _
  | binary op hl hr => exact .binary op hl hr _
  | call htoken hname hargs => exact .call htoken (hnames hname) hargs _
  | inList h hlist => exact .inList h hlist _

theorem composes_tokens : Composes (Parser.Invariant.tokens T) (FromTokens T) where
  column hl htoken hname := .column (htoken ▸ hl) hname _
  constant hl hconstant := .constant hl hconstant _
  queryRef hl htoken := .queryRef (htoken ▸ hl) _
  neg h _ := .neg h _
  not h _ := .not h _
  binary op _ _ _ hl hr _ := .binary op hl hr _
  call hl htoken hname hargs := .call (htoken ▸ hl) hname hargs _
  inList h hlist _ := .inList h hlist _
  anywhere h := h.anywhere _

theorem unspaced_list {es : List Expr} (h : ∀ e ∈ es, e.Unspaced) :
    ∀ ref ∈ columnsOfList es, Lacks ref.1.name ' ' := by
  rw [columnsOfList_eq_flatMap]
  exact List.forall_mem_flatMap.mpr h

/-- References of words without spaces have names without spaces. -/
theorem FromTokens.unspaced {signed : Bool} {e : Expr} (h : FromTokens Token.Worded signed e) :
    e.Unspaced := by
  induction h with
  | column htoken =>
    intro ref href
    obtain rfl := List.mem_singleton.mp href
    refine ColumnRef.lacks_name_of_text ?_
    rw [ColumnRef.text_ofText]
    exact htoken _ rfl
  | constant => simp [Unspaced, columns]
  | queryRef => simp [Unspaced, columns]
  | neg _ _ ih => exact ih
  | not _ _ ih => exact ih
  | binary op _ _ _ ihl ihr => exact fun ref href => (List.mem_append.mp href).elim (ihl ref) (ihr ref)
  | call _ _ _ _ ih => exact unspaced_list ih
  | inList _ _ _ ih ihs =>
    exact fun ref href => (List.mem_append.mp href).elim (ih ref) (unspaced_list ihs ref)

end Expr

/-! ### The grammar of expressions -/

namespace Grammar

open SeriesQuery.Parser SeriesQuery.Expr

variable {T : Token → Prop}

/-- The readers of a level make their expressions of tokens. -/
structure FromTokens (T : Token → Prop) (g : Grammar) : Prop where
  expr : ∀ least, Ensures T (g.expr least) (Expr.FromTokens T false)
  unary : Ensures T g.unary (Expr.FromTokens T true)

theorem deep_fromTokens (levels : Nat) : (deep levels).FromTokens T := by
  have hdeep := deep_keeps Invariant.tokens_anyDepth (Expr.composes_tokens (T := T)) levels
  exact ⟨fun least => Ensures.iff_keeps.mpr (hdeep.expr least), Ensures.iff_keeps.mpr hdeep.unary⟩

end Grammar

/-- An expression is made of the tokens that it is read from. -/
theorem Expr.fromTokens_of_read {T : Token → Prop} {c c' : Cursor} {e : Expr} (hc : c.Holds T)
    (h : Expr.parser c = .ok e c') : Expr.FromTokens T false e :=
  ((Grammar.deep_fromTokens _).expr 1 c e c' hc h).2

/-- The columns of an expression that is read from a text have names without spaces. -/
theorem Expr.unspaced_of_read {c c' : Cursor} {e : Expr} (hc : c.Holds Token.Worded)
    (h : Expr.parser c = .ok e c') : e.Unspaced :=
  (fromTokens_of_read hc h).unspaced

end SeriesQuery
