import SeriesQuery.Expr.Parser

/-!
What is kept while lexemes are read.

A reader moves a cursor and fails at offsets that it finds there. `Parser.Invariant` says what holds of
the cursor, of the lexeme in front of it, of their offsets and of an error; a reader keeps it
(`Invariant.Keeps`) if it goes from such cursors to such cursors or fails with such an error. There is
a rule for each reader of the cursor and for each way to put readers together. The operators of an
expression keep what is known of its operands (`Grammar.climb_keeps`), and where it does not matter how
deep they are nested the operands keep what is known of their lexemes (`Grammar.deep_keeps`).
-/

namespace SeriesQuery

namespace Parser

/-- What holds while lexemes are read. -/
structure Invariant where
  /-- What holds of the cursor. -/
  Sound : Cursor → Prop
  /-- What holds of a lexeme in front of it. -/
  Meets : Lexeme → Prop
  /-- What holds of the start of such a lexeme and of the place of a missing one. -/
  Offset : Nat → Prop
  /-- What holds of an error and of the cursor that is left with it. -/
  Fails : SqlError → Cursor → Prop
  advance : ∀ {c}, Sound c → Sound c.advance
  next : ∀ {c}, Sound c → ∀ l ∈ c.after.head?, Meets l
  start : ∀ {l}, Meets l → Offset l.start
  endPosition : ∀ {c}, Sound c → Offset c.endPosition
  /-- Every reader may fail at such an offset, if not for the nesting. -/
  fail : ∀ {c position fault}, Sound c → Offset position →
    (∀ limit, fault ≠ .nestingTooDeep limit) → Fails ⟨position, fault⟩ c

namespace Invariant

variable {α β : Type} (I : Invariant)

/-- From the cursor the reader answers what satisfies `R`, or it fails as it may. -/
def KeepsAt (c : Cursor) (p : Parser α) (R : α → Prop) : Prop :=
  match p c with
  | .ok a c' => I.Sound c' ∧ R a
  | .error e c' => I.Fails e c'

/-- The reader keeps the invariant, and `R` holds of its answers. -/
def Keeps (p : Parser α) (R : α → Prop) : Prop :=
  ∀ c, I.Sound c → I.KeepsAt c p R

/-- The invariant does not look at how many constructs are open. -/
structure AnyDepth : Prop where
  sound : ∀ {c} depth, I.Sound c → I.Sound { c with depth }
  fails : ∀ {e c} depth, I.Fails e c → I.Fails e { c with depth }
  tooDeep : ∀ {c position limit}, I.Sound c → I.Offset position →
    I.Fails ⟨position, .nestingTooDeep limit⟩ c

variable {I} {c : Cursor} {p : Parser α} {f : α → Parser β} {R : α → Prop} {S : β → Prop}

theorem position (hc : I.Sound c) : I.Offset c.position := by
  unfold Cursor.position
  split
  · rename_i l rest hafter
    exact I.start (I.next hc l (by rw [hafter]; rfl))
  · exact I.endPosition hc

/-! ### From one cursor -/

namespace KeepsAt

theorem pure (hc : I.Sound c) {a : α} (h : R a) : I.KeepsAt c (Pure.pure a) R :=
  ⟨hc, h⟩

theorem bind (hp : I.KeepsAt c p R) (hf : ∀ a c', I.Sound c' → R a → I.KeepsAt c' (f a) S) :
    I.KeepsAt c (p >>= f) S := by
  unfold KeepsAt at hp
  simp only [KeepsAt, Bind.bind, EStateM.bind]
  cases hrun : p c with
  | ok a c' =>
    rw [hrun] at hp
    exact hf a c' hp.1 hp.2
  | error e c' =>
    rw [hrun] at hp
    exact hp

theorem bind_of_ok {a : α} {c' : Cursor} (hrun : p c = .ok a c') (h : I.KeepsAt c' (f a) S) :
    I.KeepsAt c (p >>= f) S := by
  simpa only [KeepsAt, Bind.bind, EStateM.bind, hrun] using h

theorem fail (hc : I.Sound c) {position : Nat} {fault : Fault} (hp : I.Offset position)
    (hfault : ∀ limit, fault ≠ .nestingTooDeep limit) :
    I.KeepsAt c (Parser.fail position fault) R :=
  I.fail hc hp hfault

theorem peek_bind {g : Option Lexeme → Parser β} (h : I.KeepsAt c (g c.after.head?) S) :
    I.KeepsAt c (Parser.peek >>= g) S := h

theorem next_bind {g : Option Lexeme → Parser β} (h : I.KeepsAt c.advance (g c.after.head?) S) :
    I.KeepsAt c (Parser.next >>= g) S := h

end KeepsAt

/-! ### Readers of the cursor -/

namespace Keeps

theorem mono {R' : α → Prop} (h : I.Keeps p R) (himp : ∀ a, R a → R' a) : I.Keeps p R' := by
  intro c hc
  have hrun := h c hc
  unfold KeepsAt at hrun ⊢
  split at hrun
  · exact ⟨hrun.1, himp _ hrun.2⟩
  · exact hrun

theorem pure {a : α} (h : R a) : I.Keeps (Pure.pure a) R :=
  fun _ hc => .pure hc h

theorem bind (hp : I.Keeps p R) (hf : ∀ a, R a → I.Keeps (f a) S) : I.Keeps (p >>= f) S :=
  fun c hc => .bind (hp c hc) fun a c' hc' ha => hf a ha c' hc'

theorem map {g : α → β} (hp : I.Keeps p R) (hg : ∀ a, R a → S (g a)) : I.Keeps (g <$> p) S := by
  rw [map_eq_pure_bind]
  exact bind hp fun a ha => pure (hg a ha)

theorem fail {position : Nat} {fault : Fault} (hp : I.Offset position)
    (hfault : ∀ limit, fault ≠ .nestingTooDeep limit) :
    I.Keeps (Parser.fail position fault) R :=
  fun _ hc => .fail hc hp hfault

theorem get : I.Keeps MonadState.get I.Sound :=
  fun _ hc => ⟨hc, hc⟩

theorem position : I.Keeps Parser.position I.Offset :=
  fun _ hc => ⟨hc, I.position hc⟩

theorem peek : I.Keeps Parser.peek fun l? => ∀ l ∈ l?, I.Meets l :=
  fun _ hc => ⟨hc, I.next hc⟩

theorem next : I.Keeps Parser.next fun l? => ∀ l ∈ l?, I.Meets l :=
  fun _ hc => ⟨I.advance hc, I.next hc⟩

theorem needNext : I.Keeps Parser.needNext I.Meets := by
  apply bind next
  intro l? hl
  cases l? with
  | none => exact bind get fun c hc => fail (I.endPosition hc) nofun
  | some l => exact pure (hl l rfl)

theorem accept (q : Token → Bool) : I.Keeps (Parser.accept q) fun _ => True := by
  apply bind peek
  intro l? _
  cases l? with
  | none => exact pure trivial
  | some l =>
    dsimp only
    split
    · exact bind next fun _ _ => pure trivial
    · exact pure trivial

theorem takeWord (keyword : String) : I.Keeps (Parser.takeWord keyword) fun _ => True :=
  accept _

theorem needWord (keyword : String) : I.Keeps (Parser.needWord keyword) I.Meets := by
  apply bind needNext
  intro l hl
  split
  · exact pure hl
  · exact fail (I.start hl) nofun

theorem needToken (token : Token) : I.Keeps (Parser.needToken token) I.Meets := by
  apply bind needNext
  intro l hl
  split
  · exact pure hl
  · exact fail (I.start hl) nofun

/-! ### Nesting and repetition -/

theorem nested (hI : I.AnyDepth) {position : Nat} (hposition : I.Offset position)
    (h : I.Keeps p R) : I.Keeps (Parser.nested position p) R := by
  intro c hc
  unfold KeepsAt Parser.nested
  by_cases hdepth : c.depth < maxNesting
  · have hinner := h _ (hI.sound (c.depth + 1) hc)
    unfold KeepsAt at hinner
    simp only [hdepth, if_true]
    cases hrun : p { c with depth := c.depth + 1 } with
    | ok a c' =>
      rw [hrun] at hinner
      exact ⟨hI.sound _ hinner.1, hinner.2⟩
    | error e c' =>
      rw [hrun] at hinner
      exact hI.fails _ hinner
  · simp only [hdepth, if_false]
    exact hI.tooDeep hc hposition

/-- Below the deepest level nothing is read. -/
theorem tooDeep (hI : I.AnyDepth) (limit : Nat) :
    I.Keeps (do Parser.fail (← Parser.position) (.nestingTooDeep limit)) R :=
  bind position fun _ hp _ hc => hI.tooDeep hc hp

theorem collect {step : Parser (Option α)} (h : I.Keeps step fun a? => ∀ a ∈ a?, R a)
    (rounds : Nat) : I.Keeps (Parser.collect step rounds) fun as => ∀ a ∈ as, R a := by
  induction rounds with
  | zero => exact pure (List.forall_mem_nil R)
  | succ rounds ih =>
    apply bind h
    intro a? ha
    cases a? with
    | none => exact pure (List.forall_mem_nil R)
    | some a => exact bind ih fun as has => pure (List.forall_mem_cons.mpr ⟨ha a rfl, has⟩)

theorem many {step : Parser (Option α)} (h : I.Keeps step fun a? => ∀ a ∈ a?, R a) :
    I.Keeps (Parser.many step) fun as => ∀ a ∈ as, R a :=
  bind get fun _ _ => collect h _

/-- An item that is there. -/
theorem listed (h : I.Keeps p R) : I.Keeps (do return some (← p)) fun a? => ∀ a ∈ a?, R a :=
  bind h fun _ ha => pure fun _ hmem => Option.mem_some.mp hmem ▸ ha

theorem unlisted : I.Keeps (Pure.pure none) fun a? => ∀ a ∈ a?, R a :=
  pure fun _ hmem => by cases hmem

theorem commaList (h : I.Keeps p R) : I.Keeps (Parser.commaList p) fun as => ∀ a ∈ as, R a := by
  apply bind h
  intro first hfirst
  refine bind (many ?_) fun others hothers => pure (List.forall_mem_cons.mpr ⟨hfirst, hothers⟩)
  apply bind (accept _)
  intro taken _
  split
  · exact listed h
  · exact unlisted

theorem listUntil (isEnd : Token → Bool) (expected : String) (h : I.Keeps p R) :
    I.Keeps (Parser.listUntil isEnd expected p) fun as => as ≠ [] ∧ ∀ a ∈ as, R a := by
  apply bind h
  intro first hfirst
  refine bind (many ?_) fun others hothers =>
    pure ⟨List.cons_ne_nil _ _, List.forall_mem_cons.mpr ⟨hfirst, hothers⟩⟩
  apply bind needNext
  intro l hl
  split
  · exact listed h
  · split
    · exact unlisted
    · exact fail (I.start hl) nofun

end Keeps

end Invariant

end Parser

/-! ### Operators of an expression -/

open SeriesQuery.Parser

namespace Grammar

variable {I : Parser.Invariant} {inner : Grammar} {E : Expr → Prop}

theorem needClosing_keeps : I.Keeps needClosing fun _ => True := by
  apply Invariant.Keeps.bind (.accept _)
  intro taken _
  split
  · exact .pure trivial
  · exact .bind .position fun _ hp => .fail hp nofun

theorem arguments_keeps (h : I.Keeps (inner.expr 1) E) :
    I.Keeps (arguments inner) fun args => ∀ e ∈ args, E e := by
  apply Invariant.Keeps.bind (.accept _)
  intro taken _
  split
  · exact .pure (List.forall_mem_nil _)
  · exact .bind (.commaList h) fun args hargs => .bind needClosing_keeps fun _ _ => .pure hargs

theorem listItems_keeps (hI : I.AnyDepth) (h : I.Keeps (inner.expr 1) E) :
    I.Keeps (listItems inner) fun items => ∀ e ∈ items, E e := by
  apply Invariant.Keeps.bind (.needToken _)
  intro opening hopening
  apply Invariant.Keeps.bind (.nested hI (I.start hopening) (.commaList h))
  intro items hitems
  exact .bind needClosing_keeps fun _ _ => .pure hitems

/-- What is known of operands, and with `L` of the items of list tests, is known of what the operators
make of them. -/
structure Operates (I : Parser.Invariant) (inner : Grammar) (L : List Expr → Prop) (E : Expr → Prop) :
    Prop where
  operand : I.Keeps (operand inner) E
  items : I.Keeps (listItems inner) L
  binary : ∀ op {left right p}, E left → E right → I.Offset p → E (.binary op left right p)
  inList : ∀ {left items p}, E left → L items → I.Offset p → E (.inList left items p)

variable {L : List Expr → Prop} {right : Nat → Parser Expr}

theorem continuation_keeps (h : Operates I inner L E) (hright : ∀ least, I.Keeps (right least) E)
    (least : Nat) {left : Expr} (hleft : E left) :
    I.Keeps (continuation inner right least left) fun e? => ∀ e ∈ e?, E e := by
  apply Invariant.Keeps.bind .peek
  intro l? hl
  cases l? with
  | none => exact .unlisted
  | some l =>
    have hstart := I.start (hl l rfl)
    dsimp only
    split
    · split
      · exact .unlisted
      · apply Invariant.Keeps.bind .next
        intro _ _
        apply Invariant.Keeps.bind h.items
        intro items hitems
        exact .pure fun e he => Option.mem_some.mp he ▸ h.inList hleft hitems hstart
    · split
      · exact .unlisted
      · split
        · exact .unlisted
        · apply Invariant.Keeps.bind .next
          intro _ _
          apply Invariant.Keeps.bind (hright _)
          intro e he
          exact .pure fun e' he' => Option.mem_some.mp he' ▸ h.binary _ hleft he hstart

theorem continuations_keeps (h : Operates I inner L E) (hright : ∀ least, I.Keeps (right least) E)
    (least rounds : Nat) {left : Expr} (hleft : E left) :
    I.Keeps (continuations inner right least rounds left) E := by
  induction rounds generalizing left with
  | zero => exact .pure hleft
  | succ rounds ih =>
    apply Invariant.Keeps.bind (continuation_keeps h hright least hleft)
    intro e? he
    cases e? with
    | none => exact .pure hleft
    | some e => exact ih (he e rfl)

/-- Operators of every strength keep what is known of their operands. -/
theorem climb_keeps (h : Operates I inner L E) (strengths least : Nat) :
    I.Keeps (climb inner strengths least) E := by
  induction strengths generalizing least with
  | zero => exact h.operand
  | succ strengths ih =>
    apply Invariant.Keeps.bind h.operand
    intro left hleft
    exact .bind .get fun c _ => continuations_keeps h ih least _ hleft

/-! ### Operands of an expression -/

/-- The word can be the name of a column or of a function where an operand stands. Right after
a sign `not` is such a word too. -/
structure Names (signed : Bool) (text : String) : Prop where
  constant : constantWords.any (Ascii.same text) = false
  and : Ascii.same text "and" = false
  or : Ascii.same text "or" = false
  not : signed = false → Ascii.same text "not" = false

instance (signed : Bool) (text : String) : Decidable (Names signed text) :=
  decidable_of_iff
    (constantWords.any (Ascii.same text) = false ∧ Ascii.same text "and" = false ∧
      Ascii.same text "or" = false ∧ (signed = false → Ascii.same text "not" = false))
    ⟨fun ⟨h, hand, hor, hnot⟩ => ⟨h, hand, hor, hnot⟩, fun h => ⟨h.constant, h.and, h.or, h.not⟩⟩

/-- The token is a constant. -/
def IsConstant : Token → Prop
  | .number _ | .string _ => True
  | .ident text => constantWords.any (Ascii.same text) = true
  | _ => False

/-- The next lexeme is not the word `not`, except after a sign. -/
def NotAhead (signed : Bool) (l? : Option Lexeme) : Prop :=
  signed = false → ∀ l ∈ l?, l.isWord "not" = false

end Grammar

/-- `E` holds of what a lexeme is, right after a sign or not, and of what is made of expressions of which
it holds. -/
structure Expr.Composes (I : Parser.Invariant) (E : Bool → Expr → Prop) : Prop where
  column : ∀ {signed l text}, I.Meets l → l.token = .ident text → Grammar.Names signed text →
    E signed (.column (.ofText text) l.start)
  constant : ∀ {signed l}, I.Meets l → Grammar.IsConstant l.token →
    E signed (.constant l.token.text l.start)
  queryRef : ∀ {signed l text}, I.Meets l → l.token = .queryRef text → E signed (.queryRef text l.start)
  neg : ∀ {signed operand p}, E true operand → I.Offset p → E signed (.unary .neg operand p)
  not : ∀ {signed operand p}, E false operand → I.Offset p → E signed (.unary .not operand p)
  binary : ∀ op {left right p}, E false left → E false right → I.Offset p →
    E false (.binary op left right p)
  call : ∀ {signed l text args}, I.Meets l → l.token = .ident text → Grammar.Names signed text →
    (∀ a ∈ args, E false a) → E signed (.call text args l.start)
  inList : ∀ {left items p}, E false left → (∀ a ∈ items, E false a) → I.Offset p →
    E false (.inList left items p)
  anywhere : ∀ {signed e}, E false e → E signed e

namespace Grammar

variable {I : Parser.Invariant} {E : Bool → Expr → Prop}

/-- The readers of a level keep the invariant. -/
structure KeptAt (I : Parser.Invariant) (E : Bool → Expr → Prop) (g : Grammar) : Prop where
  expr : ∀ least, I.Keeps (g.expr least) (E false)
  unary : I.Keeps g.unary (E true)

variable {inner : Grammar} {signed : Bool}

/-- A word that is no operator starts a constant, a call or a column. -/
theorem word_keeps (hI : I.AnyDepth) (hE : Expr.Composes I E) (h : inner.KeptAt I E) {l : Lexeme}
    {text : String} (hl : I.Meets l) (htoken : l.token = .ident text)
    (hand : Ascii.same text "and" = false) (hor : Ascii.same text "or" = false)
    (hnot : signed = false → Ascii.same text "not" = false) :
    I.Keeps (word inner text l.start) (E signed) := by
  apply Invariant.Keeps.bind .next
  intro _ _
  split
  · rename_i hconstant
    have he : E signed (.constant l.token.text l.start) := hE.constant hl (by rwa [htoken])
    rw [htoken] at he
    exact .pure he
  · rename_i hconstant
    have hname : Names signed text := ⟨by simpa using hconstant, hand, hor, hnot⟩
    apply Invariant.Keeps.bind (.accept _)
    intro opened _
    split
    · exact .bind (.nested hI (I.start hl) (arguments_keeps (h.expr 1))) fun args hargs =>
        .pure (hE.call hl htoken hname hargs)
    · exact .pure (hE.column hl htoken hname)

theorem primary_keeps (hI : I.AnyDepth) (hE : Expr.Composes I E) (h : inner.KeptAt I E) {c : Cursor}
    (hc : I.Sound c) (hnot : NotAhead signed c.after.head?) :
    I.KeepsAt c (primary inner) (E signed) := by
  refine .peek_bind ?_
  cases hhead : c.after.head? with
  | none =>
    refine Invariant.Keeps.bind .get ?_ c hc
    exact fun c hc => .fail (I.endPosition hc) nofun
  | some l =>
    have hl := I.next hc l hhead
    have hstart := I.start hl
    have hconstant : ∀ {token : Token}, l.token = token → IsConstant token →
        I.Keeps (do let _ ← next; return .constant token.text l.start) (E signed) := by
      rintro token rfl htoken
      exact .bind .next fun _ _ => .pure (hE.constant hl htoken)
    dsimp only
    split
    · rename_i text heq
      split
      · exact .fail hc hstart nofun
      · rename_i hoperator
        obtain ⟨hand, hor⟩ : Ascii.same text "and" = false ∧ Ascii.same text "or" = false := by
          simpa using hoperator
        refine word_keeps hI hE h hl heq hand hor (fun hsigned => ?_) c hc
        simpa [Lexeme.isWord, heq, Token.isWord] using hnot hsigned l hhead
    · rename_i text heq
      exact hconstant heq trivial c hc
    · rename_i text heq
      exact hconstant heq trivial c hc
    · rename_i text heq
      exact .next_bind (.pure (I.advance hc) (hE.queryRef hl heq))
    · have hinner : I.Keeps (nested l.start (inner.expr 1)) (E false) :=
        .nested hI hstart (h.expr 1)
      refine .next_bind (hinner.bind (fun e he => ?_) _ (I.advance hc))
      exact .bind needClosing_keeps fun _ _ => .pure (hE.anywhere he)
    · exact .fail hc hstart nofun

theorem signed_keeps (hI : I.AnyDepth) (hE : Expr.Composes I E) (h : inner.KeptAt I E) {c : Cursor}
    (hc : I.Sound c) (hnot : NotAhead signed c.after.head?) :
    I.KeepsAt c (Grammar.signed inner) (E signed) := by
  refine .peek_bind ?_
  cases hhead : c.after.head? with
  | none => exact primary_keeps hI hE h hc hnot
  | some l =>
    have hstart := I.start (I.next hc l hhead)
    dsimp only
    split
    · have hoperand : I.Keeps (nested l.start inner.unary) (E true) := .nested hI hstart h.unary
      exact .next_bind (hoperand.bind (fun e he => .pure (hE.neg he hstart)) _ (I.advance hc))
    · exact primary_keeps hI hE h hc hnot

theorem operand_keeps (hI : I.AnyDepth) (hE : Expr.Composes I E) (h : inner.KeptAt I E) :
    I.Keeps (operand inner) (E false) := by
  intro c hc
  refine .peek_bind ?_
  cases hhead : c.after.head? with
  | none => exact signed_keeps hI hE h hc (by simp [NotAhead, hhead])
  | some l =>
    have hstart := I.start (I.next hc l hhead)
    dsimp only
    split
    · have hoperand : I.Keeps (nested l.start (inner.expr notStrength)) (E false) :=
        .nested hI hstart (h.expr notStrength)
      exact .next_bind (hoperand.bind (fun e he => .pure (hE.not he hstart)) _ (I.advance hc))
    · rename_i hnot
      exact signed_keeps hI hE h hc (by simpa [NotAhead, hhead] using hnot)

/-- What is known of lexemes is known of the expressions that are made of them, on every level. -/
theorem deep_keeps (hI : I.AnyDepth) (hE : Expr.Composes I E) (levels : Nat) :
    (deep levels).KeptAt I E := by
  induction levels with
  | zero => exact ⟨fun _ => .tooDeep hI maxNesting, .tooDeep hI maxNesting⟩
  | succ levels ih =>
    have hoperates : Operates I (deep levels) (fun items => ∀ e ∈ items, E false e) (E false) :=
      ⟨operand_keeps hI hE ih, listItems_keeps hI (ih.expr 1), hE.binary, hE.inList⟩
    exact ⟨climb_keeps hoperates maxStrength, fun c hc => signed_keeps hI hE ih hc nofun⟩

end Grammar

end SeriesQuery
