import SeriesQuery.Proofs.Expr.RoundTrip

/-!
Printing and parsing undo each other.

Where a `not` stands for a condition, nothing is drawn into it when the text is read
(`Expr.notsApart_of_notsHold`), so the text of an expression reads as the expression itself,
with its list tests as the calls they are printed as (`Expr.reads_text`).
-/

namespace SeriesQuery

/-! ### Conditions under `not` -/

/-- The operators whose sides are conditions. -/
def BinaryOp.joinsConditions : BinaryOp → Bool
  | .or | .and => true
  | _ => false

namespace Expr

mutual

/-- Whether every `not` stands where a condition is expected: under `and`, `or` and `not`, as
an argument of a call, in a list test, and as the whole expression if `holds`. -/
def notsHold (holds : Bool) : Expr → Bool
  | column .. | constant .. | queryRef .. => true
  | unary .not operand _ => holds && operand.notsHold true
  | unary .neg operand _ => operand.notsHold false
  | binary op left right _ =>
      left.notsHold op.joinsConditions && right.notsHold op.joinsConditions
  | call _ args _ => notsHoldList args
  | inList operand list _ => operand.notsHold true && notsHoldList list

/-- Whether that is so in each of the expressions. -/
def notsHoldList : List Expr → Bool
  | [] => true
  | e :: es => e.notsHold true && notsHoldList es

end

theorem notsHoldList_iff {es : List Expr} :
    notsHoldList es = true ↔ ∀ e ∈ es, e.notsHold true = true := by
  induction es with
  | nil => simp [notsHoldList]
  | cons e es ih => simp [notsHoldList, ih]

theorem strength_of_joinsConditions {op : BinaryOp} (h : op.joinsConditions = true) :
    op.strength < Grammar.notStrength := by
  cases op <;> first | decide | cases h

theorem strength_of_not_joinsConditions {op : BinaryOp} (h : op.joinsConditions = false) :
    Grammar.notStrength < op.strength := by
  cases op <;> first | decide | cases h

/-- Where a `not` ends the text of a side that is no condition, an operator that joins
conditions stands in front of it. -/
theorem strength_of_endsInNot {e : Expr} (h : e.notsHold false = true)
    (hends : e.endsInNot = true) : e.strength < Grammar.notStrength := by
  induction e using Expr.induct with
  | unary op operand p =>
    cases op with
    | neg => simp [endsInNot] at hends
    | not => simp [notsHold] at h
  | binary op left right p _ ihr =>
    obtain ⟨hstrength, hright⟩ := by simpa [endsInNot] using hends
    obtain ⟨-, hholds⟩ := by simpa [notsHold] using h
    cases hop : op.joinsConditions with
    | true => exact strength_of_joinsConditions hop
    | false =>
      have hweak := ihr (hop ▸ hholds) hright
      have hstrong := strength_of_not_joinsConditions hop
      omega
  | _ => simp [endsInNot] at hends

/-- **A `not` that stands for a condition draws nothing in.** -/
theorem notsApart_of_notsHold {e : Expr} {holds : Bool} (h : e.notsHold holds = true) :
    e.notsApart = true := by
  induction e using Expr.induct generalizing holds with
  | column => rfl
  | constant => rfl
  | queryRef => rfl
  | unary op operand p ih =>
    cases op with
    | neg => exact ih h
    | not =>
      obtain ⟨-, hoperand⟩ := by simpa [notsHold] using h
      exact ih hoperand
  | binary op left right p ihl ihr =>
    obtain ⟨hl, hr⟩ := by simpa [notsHold] using h
    have hapart : (!left.endsInNot || decide (left.strength < op.strength) ||
        decide (op.strength < Grammar.notStrength)) = true := by
      cases hop : op.joinsConditions with
      | true => simp [strength_of_joinsConditions hop]
      | false =>
        cases hends : left.endsInNot with
        | false => rfl
        | true =>
          have hweak := strength_of_endsInNot (hop ▸ hl) hends
          have hstrong := strength_of_not_joinsConditions hop
          have hlt : left.strength < op.strength := by omega
          simp [hlt]
    simp [notsApart, hapart, ihl hl, ihr hr]
  | call name args p ih =>
    have hargs := notsHoldList_iff.mp h
    exact notsApartList_iff.mpr fun a ha => ih a ha (hargs a ha)
  | inList operand list p ih ihs =>
    obtain ⟨hoperand, hlist⟩ := by simpa [notsHold] using h
    have hitems := notsHoldList_iff.mp hlist
    simp only [notsApart, ih hoperand, Bool.true_and]
    exact notsApartList_iff.mpr fun a ha => ihs a ha (hitems a ha)

/-! ### List tests as calls -/

mutual

/-- The expression with its list tests as the calls that they are printed as: of the name `in`,
with the list backwards and the tested operand last. -/
def listsAsCalls : Expr → Expr
  | column ref p => column ref p
  | constant text p => constant text p
  | queryRef text p => queryRef text p
  | unary op operand p => unary op operand.listsAsCalls p
  | binary op left right p => binary op left.listsAsCalls right.listsAsCalls p
  | call name args p => call name (listsAsCallsList args) p
  | inList operand list p =>
      call "in" ((listsAsCallsList list).reverse ++ [operand.listsAsCalls]) p

/-- Each of the expressions with its list tests as calls. -/
def listsAsCallsList : List Expr → List Expr
  | [] => []
  | e :: es => e.listsAsCalls :: listsAsCallsList es

end

theorem listsAsCallsList_eq_map (es : List Expr) : listsAsCallsList es = es.map listsAsCalls := by
  induction es with
  | nil => rfl
  | cons e es ih => simp [listsAsCallsList, ih]

/-- Where no `not` stands right after a sign, only list tests are read otherwise. -/
theorem called_of_notsHold {e : Expr} {holds : Bool} (h : e.notsHold holds = true) :
    e.called = e.listsAsCalls := by
  induction e using Expr.induct generalizing holds with
  | column => rfl
  | constant => rfl
  | queryRef => rfl
  | unary op operand p ih =>
    cases op with
    | neg =>
      have hafter : operand.afterSign = operand.called := by
        cases operand with
        | unary op' => cases op' with
          | neg => rfl
          | not => simp [notsHold] at h
        | _ => rfl
      rw [called_neg, hafter, ih h, listsAsCalls]
    | not =>
      obtain ⟨-, hoperand⟩ := by simpa [notsHold] using h
      rw [called_not, ih hoperand, listsAsCalls]
  | binary op left right p ihl ihr =>
    obtain ⟨hl, hr⟩ := by simpa [notsHold] using h
    rw [called, ihl hl, ihr hr, listsAsCalls]
  | call name args p ih =>
    have hargs := notsHoldList_iff.mp h
    rw [called, calledList_eq_map, listsAsCalls, listsAsCallsList_eq_map,
      List.map_congr_left fun a ha => ih a ha (hargs a ha)]
  | inList operand list p ih ihs =>
    obtain ⟨hoperand, hlist⟩ := by simpa [notsHold] using h
    have hitems := notsHoldList_iff.mp hlist
    rw [called, calledList_eq_map, ih hoperand, listsAsCalls, listsAsCallsList_eq_map,
      List.map_congr_left fun a ha => ihs a ha (hitems a ha)]

/-! ### The text of an expression -/

/-- **The text of an expression reads as the expression.** Let the names, constants and query
references of an expression be tokens, each `not` stand for a condition, and the text nest as
deep as the grammar allows. Then the parser takes the whole text and answers the same
expression up to positions, with its list tests as the calls they are printed as. -/
theorem reads_text {e : Expr} (hwords : FromTokens Token.Lexable false e)
    (hnots : e.notsHold true = true) (hdepth : e.depth ≤ maxNesting) :
    ∃ c e' c', Cursor.ofText e.text = .ok c ∧ Expr.parser c = .ok e' c' ∧ c'.atEnd = true ∧
      e'.erase = e.listsAsCalls.erase := by
  have htakes : Parser.Takes Expr.parser e.tokens [] e.depth (·.erase = e.called.erase) :=
    Expr.parser_takes hwords (notsApart_of_notsHold hnots) hdepth (by simp [Grammar.Ends])
      (by simp [Grammar.Ends])
  have hspells : Lexer.Spells e.text.toList e.tokens := by
    simpa using spells_text hwords [] [] Lexer.stops_nil Lexer.Spells.nil
  rw [called_of_notsHold hnots] at htakes
  exact htakes.run_text hdepth hspells

/-- The condition `not(in(t.b,1,a)) and -(x - (y - 2.5)) <= f(not(k),'q') ^ -m`, with a list
test in it. -/
def mixedCondition : Expr :=
  let x (name : String) := column (.ofText name) 0
  let tested := inList (x "a") [constant "1" 0, x "t.b"] 0
  let difference := binary .sub (x "x") (binary .sub (x "y") (constant "2.5" 0) 0) 0
  let value := call "f" [unary .not (x "k") 0, constant "'q'" 0] 0
  binary .and (unary .not tested 0)
    (binary .ltEq (unary .neg difference 0) (binary .pow value (unary .neg (x "m") 0) 0) 0) 0

theorem fromTokens_mixedCondition : FromTokens Token.Lexable false mixedCondition := by
  have name {text : String} {signed : Bool} (htoken : (Token.ident text).Lexable)
      (hname : Grammar.Names false text) :
      FromTokens Token.Lexable signed (column (.ofText text) 0) :=
    (FromTokens.column htoken hname 0).anywhere signed
  have value (t : Token) (htoken : t.Lexable) (hconstant : Grammar.IsConstant t) :
      FromTokens Token.Lexable false (constant t.text 0) :=
    .constant htoken hconstant 0
  have tested : FromTokens Token.Lexable false
      (inList (column (.ofText "a") 0) [constant "1" 0, column (.ofText "t.b") 0] 0) := by
    refine .inList (name (by decide +kernel) (by decide)) ?_ 0
    simp only [List.forall_mem_cons]
    exact ⟨value (.number "1") (by decide +kernel) trivial,
      name (by decide +kernel) (by decide), List.forall_mem_nil _⟩
  have called : FromTokens Token.Lexable false
      (call "f" [unary .not (column (.ofText "k") 0) 0, constant "'q'" 0] 0) := by
    refine .call (by decide +kernel) (by decide) ?_ 0
    simp only [List.forall_mem_cons]
    exact ⟨.not (name (by decide +kernel) (by decide)) 0,
      value (.string "'q'") (by decide +kernel) trivial, List.forall_mem_nil _⟩
  have difference : FromTokens Token.Lexable true
      (binary .sub (column (.ofText "x") 0)
        (binary .sub (column (.ofText "y") 0) (constant "2.5" 0) 0) 0) :=
    .binary _ (name (by decide +kernel) (by decide)) (.binary _ (name (by decide +kernel) (by decide))
      (value (.number "2.5") (by decide +kernel) trivial) 0) 0
  exact .binary _ (.not tested 0) (.binary _ (.neg difference 0) (.binary _ called
    (.neg (name (by decide +kernel) (by decide)) 0) 0) 0) 0

theorem reads_text_mixedCondition :
    FromTokens Token.Lexable false mixedCondition ∧ mixedCondition.notsHold true = true ∧
      mixedCondition.depth ≤ maxNesting ∧
      mixedCondition.text = "not(in(t.b,1,a)) and -(x - (y - 2.5)) <= f(not(k),'q') ^ -m" ∧
      ∃ c e' c', Cursor.ofText mixedCondition.text = .ok c ∧ Expr.parser c = .ok e' c' ∧
        c'.atEnd = true ∧ e'.erase = mixedCondition.listsAsCalls.erase :=
  ⟨fromTokens_mixedCondition, by decide, by decide, by decide +kernel,
    reads_text fromTokens_mixedCondition (by decide) (by decide)⟩

end Expr

end SeriesQuery
