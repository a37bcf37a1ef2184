import SeriesQuery.Proofs.Nesting.Openings

/-!
How deep an expression nests.

The arguments of a call, the items of a list test and the operand of a `not` or a minus sign are one
level further down than the expression (`Expr.nesting`). An expression that is read nests no deeper
than what the open constructs leave of `maxNesting` (`Expr.parser_nests`).
-/

namespace SeriesQuery

open SeriesQuery.Parser

namespace Expr

mutual

/-- The most steps on a way down through the expression into arguments, list items and operands of
`not` and minus signs. -/
def nesting : Expr → Nat
  | column .. | constant .. | queryRef .. => 0
  | unary _ operand _ => operand.nesting + 1
  | binary _ left right _ => max left.nesting right.nesting
  | call _ args _ => nestingBelow args
  | inList operand list _ => max operand.nesting (nestingBelow list)

/-- The most steps on a way that first goes down into one of the expressions. -/
def nestingBelow : List Expr → Nat
  | [] => 0
  | e :: es => max (e.nesting + 1) (nestingBelow es)

end

theorem nestingBelow_le_iff {es : List Expr} {n : Nat} :
    nestingBelow es ≤ n ↔ ∀ e ∈ es, e.nesting + 1 ≤ n := by
  induction es with
  | nil => simp [nestingBelow]
  | cons e es ih => rw [nestingBelow, Nat.max_le, ih, List.forall_mem_cons]

/-- The expression nests no deeper than may be nested where `depth` constructs are open. -/
def Fits (depth : Nat) (e : Expr) : Prop :=
  e.nesting ≤ maxNesting - depth

variable {depth : Nat} {left right operand : Expr} {es : List Expr} {p : Nat}

theorem Fits.unary (op : UnaryOp) (hdepth : depth < maxNesting) (h : operand.Fits (depth + 1)) :
    (Expr.unary op operand p).Fits depth := by
  unfold Fits at h ⊢
  rw [nesting]
  omega

theorem Fits.binary (op : BinaryOp) (hl : left.Fits depth) (hr : right.Fits depth) :
    (Expr.binary op left right p).Fits depth := by
  rw [Fits, nesting]
  exact Nat.max_le.mpr ⟨hl, hr⟩

theorem nestingBelow_le (hdepth : depth < maxNesting) (h : ∀ e ∈ es, e.Fits (depth + 1)) :
    nestingBelow es ≤ maxNesting - depth := by
  refine nestingBelow_le_iff.mpr fun e he => ?_
  have hfits := h e he
  unfold Fits at hfits
  omega

theorem Fits.call (name : String) (hdepth : depth < maxNesting)
    (h : ∀ e ∈ es, e.Fits (depth + 1)) : (Expr.call name es p).Fits depth := by
  rw [Fits, nesting]
  exact nestingBelow_le hdepth h

theorem Fits.inList (hdepth : depth < maxNesting) (h : operand.Fits depth)
    (hes : ∀ e ∈ es, e.Fits (depth + 1)) : (Expr.inList operand es p).Fits depth := by
  rw [Fits, nesting]
  exact Nat.max_le.mpr ⟨h, nestingBelow_le hdepth hes⟩

/-- What fits one level down fits. -/
theorem Fits.outside {e : Expr} (h : e.Fits (depth + 1)) : e.Fits depth := by
  unfold Fits at h ⊢
  omega

end Expr

namespace Grammar

/-- The readers of a level answer what fits, where `depth` constructs are open. -/
structure NestsAt (levels depth : Nat) : Prop where
  expr : ∀ least, Nests levels depth ((deep levels).expr least) (Expr.Fits depth)
  unary : Nests levels depth (deep levels).unary (Expr.Fits depth)

theorem NestsAt.keeps_expr {levels depth : Nat} (h : NestsAt levels depth) {origin : Cursor}
    (hdepth : origin.depth = depth) (least : Nat) :
    (Invariant.onward origin levels).Keeps ((deep levels).expr least) (Expr.Fits depth) :=
  Nests.iff_keeps.mp (h.expr least) origin hdepth

theorem NestsAt.keeps_unary {levels depth : Nat} (h : NestsAt levels depth) {origin : Cursor}
    (hdepth : origin.depth = depth) :
    (Invariant.onward origin levels).Keeps (deep levels).unary (Expr.Fits depth) :=
  Nests.iff_keeps.mp h.unary origin hdepth

variable {levels : Nat} {origin : Cursor}

theorem listItems_nests (h : NestsAt levels (origin.depth + 1)) :
    (Invariant.onward origin (levels + 1)).Keeps (listItems (deep levels))
      fun items => origin.depth < maxNesting ∧ ∀ e ∈ items, e.Fits (origin.depth + 1) := by
  intro c hc
  refine .needToken_bind hc fun l ls hafter hl => ?_
  refine .bind (.nested (hc.trans (.advance c)) (hc.index_lt_advance hafter)
    (.list (Cursor.Onward.before_advance hafter) hl)
    (fun _ hinside => .commaList (h.keeps_expr hinside 1))
    fun _ _ _ hlevels hrun => .list hlevels hrun) fun items c₁ hc₁ hitems => ?_
  refine Invariant.Keeps.bind needClosing_keeps (fun _ _ => ?_) c₁ hc₁
  exact .pure hitems

/-- The expression that a word starts. -/
theorem word_nests (h : NestsAt levels (origin.depth + 1)) {c : Cursor} (hc : origin.Onward c)
    {l : Lexeme} {ls : List Lexeme} {text : String} (hafter : c.after = l :: ls)
    (hl : l.token = .ident text) :
    (Invariant.onward origin (levels + 1)).KeepsAt c (word (deep levels) text l.start)
      (Expr.Fits origin.depth) := by
  have hahead := hc.trans (.advance c)
  refine .next_bind ?_
  split
  · exact .pure hahead (Nat.zero_le _)
  · refine .accept_bind (fun paren others hothers hparen => ?_) (.pure hahead (Nat.zero_le _))
    have hbefore := Cursor.Onward.before_advance hothers
    rw [Cursor.Onward.before_advance hafter] at hbefore
    refine .bind (.nested (hahead.trans (.advance _)) (hahead.index_lt_advance hothers)
      (.arguments hbefore (of_decide_eq_true hparen) hl)
      (fun _ hinside => arguments_keeps (h.keeps_expr hinside 1))
      fun _ _ _ hlevels hrun => .arguments hlevels hrun) fun args c₁ hc₁ hargs => ?_
    exact .pure hc₁ (.call text hargs.1 hargs.2)

theorem primary_nests (h : NestsAt levels (origin.depth + 1)) :
    (Invariant.onward origin (levels + 1)).Keeps (primary (deep levels)) (Expr.Fits origin.depth) := by
  intro c hc
  refine .peek_bind ?_
  cases hafter : c.after with
  | nil =>
    refine Invariant.Keeps.bind .get ?_ c hc
    exact fun _ _ => .fail trivial nofun
  | cons l ls =>
    have hahead := hc.trans (.advance c)
    simp only [List.head?_cons]
    split
    · rename_i text hl
      split
      · exact .fail hc trivial nofun
      · exact word_nests h hc hafter hl
    · exact .next_bind (.pure hahead (Nat.zero_le _))
    · exact .next_bind (.pure hahead (Nat.zero_le _))
    · exact .next_bind (.pure hahead (Nat.zero_le _))
    · rename_i hl
      refine .next_bind (.bind (.nested hahead (hc.index_lt_advance hafter)
        (.parentheses (Cursor.Onward.before_advance hafter) hl)
        (fun _ hinside => h.keeps_expr hinside 1)
        fun _ _ _ hlevels hrun => .parentheses hlevels hrun) fun e c₁ hc₁ he => ?_)
      exact Invariant.Keeps.bind needClosing_keeps (fun _ _ => .pure he.2.outside) c₁ hc₁
    · exact .fail hc trivial nofun

theorem signed_nests (h : NestsAt levels (origin.depth + 1)) :
    (Invariant.onward origin (levels + 1)).Keeps (signed (deep levels)) (Expr.Fits origin.depth) := by
  intro c hc
  refine .peek_bind ?_
  cases hafter : c.after with
  | nil => exact primary_nests h c hc
  | cons l ls =>
    simp only [List.head?_cons]
    split
    · rename_i hl
      refine .next_bind (.bind (.nested (hc.trans (.advance c)) (hc.index_lt_advance hafter)
        (.sign (Cursor.Onward.before_advance hafter) hl) (fun _ hinside => h.keeps_unary hinside)
        fun _ _ _ hlevels hrun => .sign hlevels hrun) fun e c₁ hc₁ he => ?_)
      exact .pure hc₁ (.unary .neg he.1 he.2)
    · exact primary_nests h c hc

theorem operand_nests (h : NestsAt levels (origin.depth + 1)) :
    (Invariant.onward origin (levels + 1)).Keeps (operand (deep levels)) (Expr.Fits origin.depth) := by
  intro c hc
  refine .peek_bind ?_
  cases hafter : c.after with
  | nil => exact signed_nests h c hc
  | cons l ls =>
    simp only [List.head?_cons]
    split
    · rename_i hl
      refine .next_bind (.bind (.nested (hc.trans (.advance c)) (hc.index_lt_advance hafter)
        (.not (Cursor.Onward.before_advance hafter) hl)
        (fun _ hinside => h.keeps_expr hinside notStrength)
        fun _ _ _ hlevels hrun => .not hlevels hrun) fun e c₁ hc₁ he => ?_)
      exact .pure hc₁ (.unary .not he.1 he.2)
    · exact signed_nests h c hc

theorem operates_nests (h : NestsAt levels (origin.depth + 1)) :
    Operates (Invariant.onward origin (levels + 1)) (deep levels)
      (fun items => origin.depth < maxNesting ∧ ∀ e ∈ items, e.Fits (origin.depth + 1))
      (Expr.Fits origin.depth) where
  operand := operand_nests h
  items := listItems_nests h
  binary op _ _ _ hl hr _ := .binary op hl hr
  inList h hitems _ := .inList hitems.1 h hitems.2

/-- Below the deepest level nothing is read. -/
theorem bottom_nests (depth : Nat) : NestsAt 0 depth := by
  have hbelow : ∀ c : Cursor, c.depth ≤ maxNesting → ¬ maxNesting < 0 + c.depth := by
    intro c hle
    omega
  exact ⟨fun _ c _ => ⟨.refl c, fun _ _ hle hlt => absurd hlt (hbelow c hle)⟩,
    fun c _ => ⟨.refl c, fun _ _ hle hlt => absurd hlt (hbelow c hle)⟩⟩

/-- The readers of every level, however many constructs are open. -/
theorem deep_nests (levels depth : Nat) : NestsAt levels depth := by
  induction levels generalizing depth with
  | zero => exact bottom_nests depth
  | succ levels ih =>
    refine ⟨fun least => Nests.iff_keeps.mpr ?_, Nests.iff_keeps.mpr ?_⟩
    · rintro origin rfl
      exact climb_keeps (operates_nests (ih _)) maxStrength least
    · rintro origin rfl
      exact signed_nests (ih _)

end Grammar

theorem Expr.parser_nests (levels depth : Nat) :
    Nests levels depth Expr.parser (Expr.Fits depth) :=
  ((Grammar.deep_nests _ depth).expr 1).of_enough (Nat.lt_succ_self maxNesting)

end SeriesQuery
