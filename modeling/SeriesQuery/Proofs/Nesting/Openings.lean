import SeriesQuery.Proofs.Expr.Invariant
import SeriesQuery.Proofs.Statement.OnClause

/-!
Nesting constructs that are open.

A reader goes on in a statement and leaves as many constructs open as it has found
(`Cursor.Onward`). It refuses to nest where `maxNesting` of them are open and the opening of one
more stands next (`Refused`), and what it answers nests no deeper than what is left of
`maxNesting`. `Parser.Nests` puts this together for one reader. From every cursor it is an invariant of
reading (`Nests.iff_keeps`), with a rule for the place where a construct is opened
(`KeepsAt.nested`).
-/

namespace SeriesQuery

/-! ### Cursors further on -/

namespace Cursor

/-- The second cursor is at the same place of the same statement or further on, and as many
constructs are open there. -/
structure Onward (c c' : Cursor) : Prop extends c.SameText c' where
  index : c.index ≤ c'.index

/-- The cursor with one more construct open. -/
def deeper (c : Cursor) : Cursor :=
  { c with depth := c.depth + 1 }

namespace Onward

variable {c c' c'' : Cursor}

theorem refl (c : Cursor) : c.Onward c :=
  ⟨.refl c, Nat.le_refl _⟩

theorem trans (h : c.Onward c') (h' : c'.Onward c'') : c.Onward c'' :=
  ⟨h.toSameText.trans h'.toSameText, Nat.le_trans h.index h'.index⟩

theorem advance (c : Cursor) : c.Onward c.advance := by
  refine ⟨.advance c, ?_⟩
  unfold Cursor.advance Cursor.index
  split <;> simp

/-- The lexeme that is taken is the last one taken. -/
theorem before_advance {l : Lexeme} {ls : List Lexeme} (hc : c.after = l :: ls) :
    c.advance.before = l :: c.before := by
  rw [Cursor.advance, hc]

theorem index_advance {l : Lexeme} {ls : List Lexeme} (hc : c.after = l :: ls) :
    c.index < c.advance.index := by
  rw [Cursor.index, Cursor.index, before_advance hc]
  exact Nat.lt_succ_self _

theorem index_lt_advance (h : c.Onward c') {l : Lexeme} {ls : List Lexeme}
    (hc : c'.after = l :: ls) : c.index < c'.advance.index :=
  Nat.lt_of_le_of_lt h.index (index_advance hc)

/-- No cursor is further on than behind all lexemes. -/
theorem index_le (h : c.Onward c') : c'.index ≤ (c.before.reverse ++ c.after).length := by
  rw [← h.lexemes]
  simp [Cursor.index]

/-- What is read one level down goes on one level up. -/
theorem shallower (h : c.deeper.Onward c') : c.Onward { c' with depth := c'.depth - 1 } :=
  ⟨⟨h.lexemes, h.endPosition, by simp [h.depth, deeper]⟩, h.index⟩

end Onward

end Cursor

/-! ### Openings -/

/-- The constructs that nest. -/
inductive Construct where
  /-- A query in parentheses. -/
  | query
  /-- An expression in parentheses. -/
  | parentheses
  /-- The arguments of a call. -/
  | arguments
  /-- The list of a list test. -/
  | list
  /-- The operand of a `not`. -/
  | not
  /-- The operand of a minus sign. -/
  | sign
deriving DecidableEq, Repr

namespace Construct

/-- The construct is opened right in front of the cursor; its opening is said to be at the
position. -/
inductive Opened : Construct → Cursor → Nat → Prop where
  | query {c : Cursor} {l : Lexeme} {ls : List Lexeme} (hc : c.before = l :: ls)
      (hl : l.token = .leftParen) : Opened .query c l.start
  | parentheses {c : Cursor} {l : Lexeme} {ls : List Lexeme} (hc : c.before = l :: ls)
      (hl : l.token = .leftParen) : Opened .parentheses c l.start
  | arguments {c : Cursor} {l name : Lexeme} {text : String} {ls : List Lexeme}
      (hc : c.before = l :: name :: ls) (hl : l.token = .leftParen)
      (hname : name.token = .ident text) : Opened .arguments c name.start
  | list {c : Cursor} {l : Lexeme} {ls : List Lexeme} (hc : c.before = l :: ls)
      (hl : l.token = .leftParen) : Opened .list c l.start
  | not {c : Cursor} {l : Lexeme} {ls : List Lexeme} (hc : c.before = l :: ls)
      (hl : l.isWord "not" = true) : Opened .not c l.start
  | sign {c : Cursor} {l : Lexeme} {ls : List Lexeme} (hc : c.before = l :: ls)
      (hl : l.token.isSign "-" = true) : Opened .sign c l.start

/-- Behind the opening of the construct its contents are not read, for the error; the levels that
are left reach down to the deepest. -/
inductive Fails (e : SqlError) (c : Cursor) : Construct → Prop where
  | query {levels : Nat} {c' : Cursor} (hlevels : maxNesting < levels + c.depth)
      (h : Query.deep levels c = .error e c') : Fails e c .query
  | parentheses {levels : Nat} {c' : Cursor} (hlevels : maxNesting < levels + c.depth)
      (h : (Grammar.deep levels).expr 1 c = .error e c') : Fails e c .parentheses
  | arguments {levels : Nat} {c' : Cursor} (hlevels : maxNesting < levels + c.depth)
      (h : Grammar.arguments (Grammar.deep levels) c = .error e c') : Fails e c .arguments
  | list {levels : Nat} {c' : Cursor} (hlevels : maxNesting < levels + c.depth)
      (h : Parser.commaList ((Grammar.deep levels).expr 1) c = .error e c') : Fails e c .list
  | not {levels : Nat} {c' : Cursor} (hlevels : maxNesting < levels + c.depth)
      (h : (Grammar.deep levels).expr Grammar.notStrength c = .error e c') : Fails e c .not
  | sign {levels : Nat} {c' : Cursor} (hlevels : maxNesting < levels + c.depth)
      (h : (Grammar.deep levels).unary c = .error e c') : Fails e c .sign

end Construct

/-- After the cursor `n` constructs are opened one in the other, none of which is read to its end,
for the error; then one more is opened, at the position of the error. -/
inductive Refused (e : SqlError) : Nat → Cursor → Prop where
  | next {k : Construct} {c c₁ : Cursor} (hahead : c.Onward c₁) (hlt : c.index < c₁.index)
      (hopened : k.Opened c₁ e.position) : Refused e 0 c
  | inside {k : Construct} {c c₁ : Cursor} {position n : Nat} (hahead : c.Onward c₁)
      (hlt : c.index < c₁.index) (hopened : k.Opened c₁ position) (hfails : k.Fails e c₁.deeper)
      (h : Refused e n c₁.deeper) : Refused e (n + 1) c

theorem Refused.of_onward {e : SqlError} {n : Nat} {c c' : Cursor} (hc : c.Onward c')
    (h : Refused e n c') : Refused e n c := by
  cases h with
  | next hahead hlt hopened =>
    exact .next (hc.trans hahead) (Nat.lt_of_le_of_lt hc.index hlt) hopened
  | inside hahead hlt hopened hfails h =>
    exact .inside (hc.trans hahead) (Nat.lt_of_le_of_lt hc.index hlt) hopened hfails h

namespace Parser

variable {α β : Type}

/-! ### What a reader does -/

/-- Where the reader leaves the cursor, whether it succeeds or fails. -/
def leaves (p : Parser α) (c : Cursor) : Cursor :=
  match p c with
  | .ok _ c' => c'
  | .error _ c' => c'

/-- At the cursor, which is further on than `origin`, the reader answers what satisfies `R`, or
refuses to nest only where as many constructs as may be are open. The depth of `origin` and `levels`
reach down to the deepest level, and the reader goes on in any case. -/
def NestsFrom (origin : Cursor) (levels : Nat) (p : Parser α) (R : α → Prop) (c : Cursor) : Prop :=
  match p c with
  | .ok a c' => origin.Onward c' ∧ R a
  | .error e c' => origin.Onward c' ∧ ∀ limit, e.fault = .nestingTooDeep limit →
      origin.depth ≤ maxNesting → maxNesting < levels + origin.depth →
        limit = maxNesting ∧ Refused e (maxNesting - origin.depth) origin

/-- Where `depth` constructs are open, the reader answers what satisfies `R` or refuses to nest only
with as many constructs open as may be; it goes on in any case. -/
def Nests (levels depth : Nat) (p : Parser α) (R : α → Prop) : Prop :=
  ∀ c : Cursor, c.depth = depth → NestsFrom c levels p R c

variable {origin c : Cursor} {levels depth : Nat} {p : Parser α} {R : α → Prop}

theorem Nests.lift (h : Nests levels depth p R) (hdepth : origin.depth = depth)
    (hc : origin.Onward c) : NestsFrom origin levels p R c := by
  have hrun := h c (hc.depth.trans hdepth)
  unfold NestsFrom at hrun ⊢
  split at hrun
  · exact ⟨hc.trans hrun.1, hrun.2⟩
  · refine ⟨hc.trans hrun.1, fun limit hfault hle hlevels => ?_⟩
    rw [← hc.depth] at hle hlevels ⊢
    obtain ⟨hlimit, hrefused⟩ := hrun.2 limit hfault hle hlevels
    exact ⟨hlimit, hrefused.of_onward hc⟩

/-- More levels than may be nested are as many as are needed. -/
theorem Nests.of_enough {levels' : Nat} (h : Nests levels' depth p R)
    (hlevels : maxNesting < levels') : Nests levels depth p R := by
  intro c hdepth
  have hrun := h c hdepth
  unfold NestsFrom at hrun ⊢
  split at hrun
  · exact hrun
  · exact ⟨hrun.1, fun limit hfault hle _ => hrun.2 limit hfault hle (by omega)⟩

theorem NestsFrom.onward (h : NestsFrom origin levels p R c) : origin.Onward (p.leaves c) := by
  unfold NestsFrom at h
  unfold leaves
  cases hrun : p c with
  | ok a c' =>
    rw [hrun] at h
    exact h.1
  | error e c' =>
    rw [hrun] at h
    exact h.1

namespace Invariant

/-- The cursors that are further on than `origin`, and the errors that refuse to nest only where as many
constructs as may be are open. -/
def onward (origin : Cursor) (levels : Nat) : Invariant where
  Sound := origin.Onward
  Meets _ := True
  Offset _ := True
  Fails e c := origin.Onward c ∧ ∀ limit, e.fault = .nestingTooDeep limit →
    origin.depth ≤ maxNesting → maxNesting < levels + origin.depth →
      limit = maxNesting ∧ Refused e (maxNesting - origin.depth) origin
  advance hc := hc.trans (.advance _)
  next _ _ _ := trivial
  start _ := trivial
  endPosition _ := trivial
  fail hc _ hfault := ⟨hc, fun limit h => absurd h (hfault limit)⟩

end Invariant

theorem NestsFrom.iff_keepsAt :
    NestsFrom origin levels p R c ↔ (Invariant.onward origin levels).KeepsAt c p R :=
  Iff.rfl

/-- A reader nests as it should if it keeps the invariant of every cursor of that depth. -/
theorem Nests.iff_keeps : Nests levels depth p R ↔
    ∀ origin : Cursor, origin.depth = depth → (Invariant.onward origin levels).Keeps p R :=
  ⟨fun h _ hdepth _ hc => h.lift hdepth hc, fun h c hdepth => h c hdepth c (.refl c)⟩

/-! ### Where a construct is opened -/

namespace Invariant.KeepsAt

variable {I : Invariant} {S : β → Prop}

theorem accept_bind {q : Token → Bool} {g : Bool → Parser β}
    (hthere : ∀ l ls, c.after = l :: ls → q l.token = true → I.KeepsAt c.advance (g true) S)
    (hnot : I.KeepsAt c (g false) S) : I.KeepsAt c (Parser.accept q >>= g) S := by
  cases hc : c.after with
  | nil =>
    refine bind_of_ok ?_ hnot
    rw [Parser.accept, Parser.peek_bind, hc]
    rfl
  | cons l ls =>
    cases hq : q l.token with
    | true =>
      refine bind_of_ok ?_ (hthere l ls hc hq)
      rw [Parser.accept, Parser.peek_bind, hc]
      simp only [List.head?_cons, hq, if_true]
      rfl
    | false =>
      refine bind_of_ok ?_ hnot
      rw [Parser.accept, Parser.peek_bind, hc]
      simp only [List.head?_cons, hq, Bool.false_eq_true, if_false]
      rfl

theorem needNext_bind {g : Lexeme → Parser β} (hc : I.Sound c)
    (h : ∀ l ls, c.after = l :: ls → I.KeepsAt c.advance (g l) S) :
    I.KeepsAt c (Parser.needNext >>= g) S := by
  cases hafter : c.after with
  | nil =>
    have hrun : Parser.needNext c = .error ⟨c.endPosition, .unexpectedEndOfInput⟩ c := by
      rw [Parser.needNext, Parser.next_bind, hafter, Cursor.advance, hafter]
      rfl
    simp only [KeepsAt, Bind.bind, EStateM.bind, hrun]
    exact I.fail hc (I.endPosition hc) fun _ hfault => by cases hfault
  | cons l ls =>
    refine bind_of_ok ?_ (h l ls hafter)
    rw [Parser.needNext, Parser.next_bind, hafter]
    rfl

theorem needToken_bind {token : Token} {g : Lexeme → Parser β} (hc : I.Sound c)
    (h : ∀ l ls, c.after = l :: ls → l.token = token → I.KeepsAt c.advance (g l) S) :
    I.KeepsAt c (Parser.needToken token >>= g) S := by
  have hassoc : (Parser.needToken token >>= g) = Parser.needNext >>= fun l =>
      (if l.token = token then return l
        else Parser.fail l.start (.expectedToken ("'" ++ token.text ++ "'"))) >>= g :=
    bind_assoc _ _ _
  rw [hassoc]
  refine needNext_bind hc fun l ls hafter => ?_
  split
  · rename_i hl
    exact bind_of_ok rfl (h l ls hafter hl)
  · have hstart := I.start (I.next hc l (by rw [hafter]; rfl))
    exact bind (R := fun _ => False) (fail (I.advance hc) hstart nofun) fun _ _ _ => False.elim

/-- Where a construct has been opened its contents are read one level down. -/
theorem nested {k : Construct} {position : Nat} (hc : origin.Onward c)
    (hlt : origin.index < c.index) (hopened : k.Opened c position)
    (hp : ∀ inside : Cursor, inside.depth = origin.depth + 1 → (onward inside levels).Keeps p R)
    (hfails : ∀ c e c', maxNesting < levels + c.depth → p c = .error e c' → k.Fails e c) :
    (onward origin (levels + 1)).KeepsAt c (Parser.nested position p)
      fun a => origin.depth < maxNesting ∧ R a := by
  unfold KeepsAt Parser.nested
  rw [hc.depth]
  by_cases hdepth : origin.depth < maxNesting
  · have hinside : c.deeper.depth = origin.depth + 1 := by simp [Cursor.deeper, hc.depth]
    have hinner := hp c.deeper hinside c.deeper (.refl _)
    unfold KeepsAt at hinner
    rw [if_pos hdepth]
    have hdeeper : { c with depth := origin.depth + 1 } = c.deeper := by
      rw [Cursor.deeper, hc.depth]
    rw [hdeeper]
    cases hrun : p c.deeper with
    | ok a c' =>
      rw [hrun] at hinner
      exact ⟨hc.trans hinner.1.shallower, hdepth, hinner.2⟩
    | error e c' =>
      rw [hrun] at hinner
      refine ⟨hc.trans hinner.1.shallower, fun limit hfault _ hlevels => ?_⟩
      obtain ⟨hlimit, hrefused⟩ := hinner.2 limit hfault (by omega) (by omega)
      have hleft : maxNesting - origin.depth = (maxNesting - c.deeper.depth) + 1 := by omega
      rw [hleft]
      exact ⟨hlimit, .inside hc hlt hopened (hfails _ _ _ (by omega) hrun) hrefused⟩
  · rw [if_neg hdepth]
    refine ⟨hc, fun limit hfault hle _ => ?_⟩
    have hleft : maxNesting - origin.depth = 0 := by omega
    rw [hleft]
    cases hfault
    exact ⟨rfl, .next hc hlt hopened⟩

end Invariant.KeepsAt

end Parser

end SeriesQuery
