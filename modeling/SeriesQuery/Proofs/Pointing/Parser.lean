import SeriesQuery.Proofs.Expr.Invariant
import SeriesQuery.Proofs.Expr.Spelling

/-!
Where the errors of a reader are.

A cursor knows where its lexemes start and where a missing one is reported. A reader makes up no other
offset: it fails at one of these, and what it answers carries no others (`Parser.Points`). That is an
invariant of reading (`Points.iff_keeps`), and so it holds of expressions (`Expr.parser_points`).
-/

namespace SeriesQuery

variable {P : Nat → Prop}

/-! ### Offsets of a cursor -/

namespace Cursor

/-- The lexemes of the statement, those already taken included. -/
def lexemes (c : Cursor) : List Lexeme :=
  c.before.reverse ++ c.after

/-- The lexemes start at offsets of `P`, and a missing one is reported at such an offset. -/
structure Within (P : Nat → Prop) (c : Cursor) : Prop where
  start : ∀ l ∈ c.lexemes, P l.start
  endPosition : P c.endPosition

namespace Within

variable {c : Cursor}

theorem next (h : c.Within P) {l : Lexeme} (hl : l ∈ c.after.head?) : P l.start :=
  h.start l (List.mem_append_right _ (List.mem_of_mem_head? hl))

theorem advance (h : c.Within P) : c.advance.Within P := by
  have hlexemes : c.advance.lexemes = c.lexemes := by
    unfold Cursor.advance lexemes
    split
    · rename_i l rest hafter
      simp [hafter]
    · rfl
  constructor
  · rw [hlexemes]
    exact h.start
  · unfold Cursor.advance
    split
    · exact h.endPosition
    · exact h.endPosition

theorem reset (h : c.Within P) (index : Nat) : (c.reset index).Within P := by
  have hlexemes : (c.reset index).lexemes = c.lexemes := by
    simp [Cursor.reset, lexemes]
  constructor
  · rw [hlexemes]
    exact h.start
  · exact h.endPosition

end Within

end Cursor

namespace Parser

variable {α : Type}

/-- In front of lexemes at offsets of `P` the reader answers what satisfies `R`, or it fails at an
offset of `P`. -/
def Points (P : Nat → Prop) (p : Parser α) (R : α → Prop) : Prop :=
  ∀ c : Cursor, c.Within P → match p c with
    | .ok a c' => c'.Within P ∧ R a
    | .error e _ => P e.position

/-- The cursors at offsets of `P` and the errors there. -/
def Invariant.within (P : Nat → Prop) : Invariant where
  Sound := Cursor.Within P
  Meets l := P l.start
  Offset := P
  Fails e _ := P e.position
  advance := Cursor.Within.advance
  next hc _ := hc.next
  start := id
  endPosition := Cursor.Within.endPosition
  fail _ hp _ := hp

variable {p : Parser α} {R : α → Prop}

theorem Points.iff_keeps : Points P p R ↔ (Invariant.within P).Keeps p R :=
  Iff.rfl

theorem Invariant.within_anyDepth : (within P).AnyDepth where
  sound _ hc := ⟨hc.start, hc.endPosition⟩
  fails _ h := h
  tooDeep _ hp := hp

theorem Invariant.within_reset (index : Nat) : (within P).Keeps (Parser.reset index) fun _ => True :=
  fun _ hc => ⟨hc.reset index, trivial⟩

end Parser

/-! ### Expressions -/

/-- The expression and its columns are written at offsets of `P`, and the columns as a text spells
them. -/
structure Expr.Located (P : Nat → Prop) (e : Expr) : Prop where
  position : P e.position
  columns : ∀ c ∈ e.columns, P c.2 ∧ c.1.Written

namespace Expr

variable {left right operand : Expr} {es : List Expr} {p : Nat}

theorem located_list (h : ∀ e ∈ es, e.Located P) :
    ∀ c ∈ columnsOfList es, P c.2 ∧ c.1.Written := by
  rw [columnsOfList_eq_flatMap]
  exact List.forall_mem_flatMap.mpr fun e he => (h e he).columns

theorem Located.column (text : String) (hp : P p) : (Expr.column (.ofText text) p).Located P :=
  ⟨hp, List.forall_mem_singleton.mpr ⟨hp, ColumnRef.written_ofText text⟩⟩

theorem Located.constant (text : String) (hp : P p) : (Expr.constant text p).Located P :=
  ⟨hp, List.forall_mem_nil _⟩

theorem Located.queryRef (text : String) (hp : P p) : (Expr.queryRef text p).Located P :=
  ⟨hp, List.forall_mem_nil _⟩

theorem Located.unary (op : UnaryOp) (h : operand.Located P) (hp : P p) :
    (Expr.unary op operand p).Located P :=
  ⟨hp, h.columns⟩

theorem Located.binary (op : BinaryOp) (hl : left.Located P) (hr : right.Located P) (hp : P p) :
    (Expr.binary op left right p).Located P :=
  ⟨hp, List.forall_mem_append.mpr ⟨hl.columns, hr.columns⟩⟩

theorem Located.call (name : String) (h : ∀ e ∈ es, e.Located P) (hp : P p) :
    (Expr.call name es p).Located P :=
  ⟨hp, located_list h⟩

theorem Located.inList (h : operand.Located P) (hes : ∀ e ∈ es, e.Located P) (hp : P p) :
    (Expr.inList operand es p).Located P :=
  ⟨hp, List.forall_mem_append.mpr ⟨h.columns, located_list hes⟩⟩

theorem composes_within : Composes (Parser.Invariant.within P) fun _ => Expr.Located P where
  column hl _ _ := .column _ hl
  constant hl _ := .constant _ hl
  queryRef hl _ := .queryRef _ hl
  neg h hp := .unary .neg h hp
  not h hp := .unary .not h hp
  binary op _ _ _ := .binary op
  call hl _ _ hargs := .call _ hargs hl
  inList := .inList
  anywhere := id

end Expr

open SeriesQuery.Parser

namespace Grammar

/-- The readers of a level make up no offset. -/
structure PointsAt (P : Nat → Prop) (inner : Grammar) : Prop where
  expr : ∀ least, Points P (inner.expr least) (Expr.Located P)
  unary : Points P inner.unary (Expr.Located P)

theorem deep_points (levels : Nat) : (deep levels).PointsAt P := by
  have hdeep := deep_keeps Invariant.within_anyDepth (Expr.composes_within (P := P)) levels
  exact ⟨hdeep.expr, hdeep.unary⟩

end Grammar

theorem Expr.parser_points : Points P Expr.parser (Expr.Located P) :=
  (Grammar.deep_points _).expr 1

end SeriesQuery
