import SeriesQuery.Proofs.Expr.Decoding
import SeriesQuery.Proofs.Positions.Expr
import SeriesQuery.Proofs.Statement.Invariant

/-!
Expressions that are written alike.

Expressions are compared by their canonical texts. What the texts of two of them tell is the same
exactly if the texts are (`Expr.sameText_iff_told`): a list test is like a call of `in` with the list
backwards and the tested operand last, a `not` like a call of `not`, and a name to order by or an
interval to sample by like anything else of one token. Apart from these an expression is told by
its text up to positions, for it can be told back (`Expr.told_recalled`).
-/

namespace SeriesQuery

open SeriesQuery.Lexer SeriesQuery.Parser

/-! ### Expressions of a statement -/

namespace Expr

/-- Part of an expression that is read from tokens, or all of it. -/
inductive Parsed : Expr → Prop where
  | whole {c c' : Cursor} {e : Expr} (hc : c.Holds Token.Lexable)
      (h : Expr.parser c = .ok e c') : Parsed e
  | part {e part : Expr} (h : Parsed e) (hpart : part ∈ e.parts) : Parsed part

/-- An expression of a statement that is read from tokens: one that is parsed, a name to order by or
the interval to sample by. -/
inductive Read : Expr → Prop where
  | parsed {e : Expr} (h : Parsed e) : Read e
  | ordered {fault : Fault} {c c' : Cursor} {item : OrderItem} (hc : c.Holds Token.Lexable)
      (h : OrderItem.parser fault c = .ok item c') : Read item.expr
  | sampled {c c' : Cursor} {e : Expr} (hc : c.Holds Token.Lexable)
      (h : Query.sampleByClause c = .ok (some e) c') : Read e

theorem FromTokens.of_mem_parts {T : Token → Prop} {signed : Bool} {e part : Expr}
    (h : FromTokens T signed e) (hpart : part ∈ e.parts) : ∃ signed, FromTokens T signed part := by
  cases h with
  | column | constant | queryRef => simp [parts] at hpart
  | neg h | not h =>
    obtain rfl := List.mem_singleton.mp hpart
    exact ⟨_, h⟩
  | binary op hl hr =>
    rcases List.mem_pair.mp hpart with rfl | rfl
    · exact ⟨_, hl⟩
    · exact ⟨_, hr⟩
  | call htoken hname hargs => exact ⟨_, hargs part hpart⟩
  | inList h hlist =>
    rcases List.mem_cons.mp hpart with rfl | hpart
    · exact ⟨_, h⟩
    · exact ⟨_, hlist part hpart⟩

theorem Parsed.fromTokens {e : Expr} (h : Parsed e) :
    ∃ signed, FromTokens Token.Lexable signed e := by
  induction h with
  | whole hc h => exact ⟨_, fromTokens_of_read hc h⟩
  | part _ hpart ih =>
    obtain ⟨_, he⟩ := ih
    exact he.of_mem_parts hpart

end Expr

/-- A name to order by is one token. -/
theorem OrderItem.parser_ensures (T : Token → Prop) (fault : Fault) :
    Ensures T (OrderItem.parser fault) fun item =>
      ∃ text position, T (.ident text) ∧ item.expr = .column (.ofText text) position := by
  refine Ensures.iff_keeps.mpr (OrderItem.parser_keeps (E := fun e =>
    ∃ text position, T (.ident text) ∧ e = .column (.ofText text) position) ?_ ?_)
  · exact fun _ _ => trivial
  · intro l text hl htoken
    exact ⟨text, l.start, htoken ▸ hl, rfl⟩

/-- An interval to sample by is one token. -/
theorem Query.sampleByClause_ensures (T : Token → Prop) :
    Ensures T sampleByClause fun e? =>
      ∀ e ∈ e?, ∃ t position, T t ∧ e = .constant t.text position := by
  refine Ensures.iff_keeps.mpr (sampleByClause_keeps (E := fun e =>
    ∃ t position, T t ∧ e = .constant t.text position) fun {l} hl => ?_)
  exact ⟨l.token, l.start, hl, rfl⟩

/-- A text is read as one list of tokens. -/
theorem Lexer.SpellsBefore.unique {text : String} {ts us : List Token} (ht : SpellsBefore text ts)
    (hu : SpellsBefore text us) : ts = us := by
  obtain ⟨ls, hls, hts⟩ := ht [] [] stops_nil Spells.nil 0
  obtain ⟨ls', hls', hus⟩ := hu [] [] stops_nil Spells.nil 0
  rw [hls] at hls'
  cases hls'
  simpa using hts.symm.trans hus

namespace Expr

/-! ### Texts and what they tell -/

/-- The text of the expression is read as tokens, which tell it all that the text tells. -/
structure Spelled (e : Expr) (ts : List Token) : Prop where
  spells : SpellsBefore e.text ts
  one : ts.length = 1 → e.told = constant e.text 0
  more : ts.length ≠ 1 → e.told.tokens = ts.map Token.unquoted

theorem length_side_pos (least : Nat) (e : Expr) : 0 < (e.side least).length := by
  obtain ⟨t, ts, htokens, -⟩ := e.exists_tokens
  simp only [side, Token.parenthesized, htokens]
  split <;> simp

/-- Only a constant is told by one token. -/
theorem Bare.eq_constant {e : Expr} (he : e.Bare) (h : e.tokens.length = 1) :
    e = Expr.constant e.text 0 := by
  cases he with
  | constant => rfl
  | @neg operand =>
    have hoperand := length_side_pos 8 operand
    simp only [tokens_neg, List.length_cons] at h
    omega
  | @binary op left right =>
    have hleft := length_side_pos op.strength left
    simp only [tokens_binary, List.length_append, List.length_cons] at h
    omega
  | call name => simp [tokens, Token.arguments] at h

theorem FromTokens.spelled {signed : Bool} {e : Expr} (h : FromTokens Token.Lexable signed e) :
    e.Spelled e.tokens where
  spells := spells_text h
  one hone := by
    have hbare := e.bare_told.eq_constant (by rw [h.tokens_told, List.length_map, hone])
    rwa [text_told] at hbare
  more _ := h.tokens_told

theorem spelled_of_token {e : Expr} {t : Token} (ht : t.Lexable) (htext : e.text = t.text)
    (htold : e.told = constant e.text 0) : e.Spelled [t] where
  spells := htext ▸ SpellsBefore.token ht
  one _ := htold
  more hne := absurd rfl hne

theorem Read.spelled {e : Expr} (h : Read e) : ∃ ts, e.Spelled ts := by
  cases h with
  | parsed h =>
    obtain ⟨signed, h⟩ := h.fromTokens
    exact ⟨_, h.spelled⟩
  | ordered hc h =>
    obtain ⟨-, text, position, htoken, heq⟩ := OrderItem.parser_ensures _ _ _ _ _ hc h
    rw [heq]
    exact ⟨_, spelled_of_token htoken (ColumnRef.text_ofText text) rfl⟩
  | sampled hc h =>
    obtain ⟨t, position, htoken, rfl⟩ := (Query.sampleByClause_ensures _ _ _ _ hc h).2 e rfl
    exact ⟨_, spelled_of_token htoken rfl rfl⟩

theorem Spelled.told_eq {a b : Expr} {ts us : List Token} (ha : a.Spelled ts) (hb : b.Spelled us)
    (h : a.text = b.text) : a.told = b.told := by
  obtain rfl : ts = us := Lexer.SpellsBefore.unique ha.spells (h ▸ hb.spells)
  by_cases hone : ts.length = 1
  · rw [ha.one hone, hb.one hone, h]
  · exact a.bare_told.eq_of_tokens_eq b.bare_told ((ha.more hone).trans (hb.more hone).symm)

/-! ### Told back -/

mutual

/-- The names of the functions that are called in the expression. -/
def callNames : Expr → List String
  | column .. | constant .. | queryRef .. => []
  | unary _ operand _ => operand.callNames
  | binary _ left right _ => left.callNames ++ right.callNames
  | call name args _ => name :: callNamesList args
  | inList operand list _ => operand.callNames ++ callNamesList list

/-- The names of the functions that are called in one of the expressions. -/
def callNamesList : List Expr → List String
  | [] => []
  | e :: es => e.callNames ++ callNamesList es

end

theorem mem_callNamesList {name : String} {es : List Expr} :
    name ∈ callNamesList es ↔ ∃ e ∈ es, name ∈ e.callNames := by
  induction es with
  | nil => simp [callNamesList]
  | cons e es ih => simp [callNamesList, ih]

/-- The expression that a text of one token stands for. -/
def recalledWord (text : String) : Expr :=
  match token? text.toList with
  | some (.ident text, _) =>
    if Grammar.constantWords.any (Ascii.same text) then constant text 0
    else column (.ofText text) 0
  | some (.queryRef text, _) => queryRef text 0
  | _ => constant text 0

/-- The expression that is written as a call. -/
def recalledCall : String → List Expr → Expr
  | "not", [operand] => unary .not operand 0
  | "in", args =>
    match args.reverse with
    | operand :: list => inList operand list 0
    | [] => call "in" [] 0
  | name, args => call name args 0

mutual

/-- The expression that is told by a text, if it calls neither `in` nor `not`. -/
def recalled : Expr → Expr
  | constant text _ => recalledWord text
  | column ref _ => column ref 0
  | queryRef text _ => queryRef text 0
  | unary op operand _ => unary op operand.recalled 0
  | binary op left right _ => binary op left.recalled right.recalled 0
  | call name args _ => recalledCall name (recalledList args)
  | inList operand list _ => inList operand.recalled (recalledList list) 0

/-- Each of the expressions told by its text. -/
def recalledList : List Expr → List Expr
  | [] => []
  | e :: es => e.recalled :: recalledList es

end

theorem recalledList_eq_map (es : List Expr) : recalledList es = es.map recalled := by
  induction es with
  | nil => rfl
  | cons e es ih => simp [recalledList, ih]

theorem recalledCall_of_ne {name : String} (hin : name ≠ "in") (hnot : name ≠ "not")
    (args : List Expr) : recalledCall name args = call name args 0 := by
  unfold recalledCall
  split
  · exact absurd rfl hnot
  · exact absurd rfl hin
  · rfl

/-- **An expression is told back by its text**, up to positions, if it calls neither `in` nor
`not`. -/
theorem FromTokens.told_recalled {signed : Bool} {e : Expr}
    (h : FromTokens Token.Lexable signed e) (hin : "in" ∉ e.callNames)
    (hnot : "not" ∉ e.callNames) : e.told.recalled = e.erase := by
  have hlist : ∀ {es : List Expr}, "in" ∉ callNamesList es → "not" ∉ callNamesList es →
      (∀ e ∈ es, "in" ∉ e.callNames → "not" ∉ e.callNames → e.told.recalled = e.erase) →
      (es.map told).map recalled = es.map erase := by
    intro es hin hnot ih
    simp only [mem_callNamesList, not_exists, not_and] at hin hnot
    simpa using fun e he => ih e he (hin e he) (hnot e he)
  induction h with
  | column htoken hname =>
    have hread := htoken.token?
    simp only [Token.text] at hread
    simp [told, recalled, recalledWord, ColumnRef.text_ofText, hread, hname.constant, erase]
  | @constant _ token htoken hconstant =>
    have hread := htoken.token?
    simp only [told, recalled, recalledWord, hread, erase]
    cases token with
    | ident text => exact if_pos hconstant
    | number | string => rfl
    | _ => exact hconstant.elim
  | queryRef htoken =>
    have hread := htoken.token?
    simp only [Token.text] at hread
    simp [told, recalled, recalledWord, hread, erase]
  | neg _ _ ih => simp only [told, recalled, erase, ih hin hnot]
  | not _ _ ih => simp only [told, recalled, recalledList, recalledCall, erase, ih hin hnot]
  | binary op _ _ _ ihl ihr =>
    simp only [callNames, List.mem_append, not_or] at hin hnot
    simp only [told, recalled, erase, ihl hin.1 hnot.1, ihr hin.2 hnot.2]
  | call _ _ _ _ ih =>
    simp only [callNames, List.mem_cons, not_or] at hin hnot
    simp only [told, recalled, toldList_eq_map, recalledList_eq_map, erase, eraseList_eq_map,
      recalledCall_of_ne (Ne.symm hin.1) (Ne.symm hnot.1), hlist hin.2 hnot.2 ih]
  | inList _ _ _ ih ihs =>
    simp only [callNames, List.mem_append, not_or] at hin hnot
    simp [told, recalled, toldList_eq_map, recalledList_eq_map, erase, eraseList_eq_map,
      recalledCall, hlist hin.2 hnot.2 ihs, ih hin.1 hnot.1]

/-! ### The same text -/

/-- **Two expressions of statements have the same text exactly if it tells the same of them.** For
parts of parsed expressions that call neither `in` nor `not` that is to say that they are the same
up to positions. -/
theorem sameText_iff_told {a b : Expr} (ha : a.Read) (hb : b.Read) :
    (a.sameText b = true ↔ a.told = b.told) ∧
      (a.Parsed → b.Parsed → (∀ name ∈ a.callNames ++ b.callNames, name ≠ "in" ∧ name ≠ "not") →
        (a.sameText b = true ↔ a.erase = b.erase)) := by
  obtain ⟨ts, hts⟩ := ha.spelled
  obtain ⟨us, hus⟩ := hb.spelled
  have htold : a.sameText b = true ↔ a.told = b.told := by
    rw [sameText, beq_iff_eq]
    exact ⟨hts.told_eq hus, fun h => by rw [← text_told a, h, text_told]⟩
  refine ⟨htold, fun ha hb hnames => htold.trans ⟨fun h => ?_, fun h => ?_⟩⟩
  · obtain ⟨_, ha⟩ := ha.fromTokens
    obtain ⟨_, hb⟩ := hb.fromTokens
    simp only [List.forall_mem_append] at hnames
    have hback : ∀ {e : Expr} {signed : Bool}, FromTokens Token.Lexable signed e →
        (∀ name ∈ e.callNames, name ≠ "in" ∧ name ≠ "not") → e.told.recalled = e.erase :=
      fun he hnames => he.told_recalled (fun hin => (hnames _ hin).1 rfl)
        fun hnot => (hnames _ hnot).2 rfl
    rw [← hback ha hnames.1, h, hback hb hnames.2]
  · exact hts.told_eq hus (by rw [← text_erase a, h, text_erase])

/-- What stands at the start of a text is read from its tokens. -/
theorem parsed_of_ofText {source : String} {e : Expr} (h : Expr.ofText source = .ok e) :
    Parsed e := by
  simp only [Expr.ofText, Cursor.ofText] at h
  split at h
  · cases h
  · rename_i c hc
    split at hc
    · rename_i lexemes hlex
      cases hc
      split at h
      · rename_i c' hrun
        cases h
        exact .whole (fun l hl => lexable_of_mem_lex hlex hl) hrun
      · cases h
    · cases hc

theorem sameText_spaced :
    ∃ a b, Expr.ofText "f(x)-1" = .ok a ∧ Expr.ofText "f( x ) - 1" = .ok b ∧ a ≠ b ∧
      a.sameText b = true := by
  have hcompact : Cursor.ofText "f(x)-1" =
      .ok ⟨[], [⟨.ident "f", 0, 1⟩, ⟨.leftParen, 1, 2⟩, ⟨.ident "x", 2, 3⟩, ⟨.rightParen, 3, 4⟩,
        ⟨.op "-", 4, 5⟩, ⟨.number "1", 5, 6⟩], 5, 0⟩ := by
    decide +kernel
  have hspaced : Cursor.ofText "f( x ) - 1" =
      .ok ⟨[], [⟨.ident "f", 0, 1⟩, ⟨.leftParen, 1, 2⟩, ⟨.ident "x", 3, 4⟩, ⟨.rightParen, 5, 6⟩,
        ⟨.op "-", 7, 8⟩, ⟨.number "1", 9, 10⟩], 9, 0⟩ := by
    decide +kernel
  have ha : Expr.ofText "f(x)-1" = .ok (.binary .sub (.call "f" [.column (.plain "x") 2] 0)
      (.constant "1" 5) 4) := by
    simp only [Expr.ofText, hcompact]
    rfl
  have hb : Expr.ofText "f( x ) - 1" = .ok (.binary .sub (.call "f" [.column (.plain "x") 3] 0)
      (.constant "1" 9) 7) := by
    simp only [Expr.ofText, hspaced]
    rfl
  have hpa := parsed_of_ofText ha
  have hpb := parsed_of_ofText hb
  refine ⟨_, _, ha, hb, by simp, ?_⟩
  exact ((sameText_iff_told (.parsed hpa) (.parsed hpb)).2 hpa hpb (by decide)).mpr rfl

/-- A list test has the text of a call of `in`. -/
theorem sameText_listTest :
    ∃ a b, Expr.ofText "a in (x)" = .ok a ∧ Expr.ofText "in(x, a)" = .ok b ∧
      a.sameText b = true ∧ a.erase ≠ b.erase := by
  have hlist : Cursor.ofText "a in (x)" =
      .ok ⟨[], [⟨.ident "a", 0, 1⟩, ⟨.ident "in", 2, 4⟩, ⟨.leftParen, 5, 6⟩, ⟨.ident "x", 6, 7⟩,
        ⟨.rightParen, 7, 8⟩], 7, 0⟩ := by
    decide +kernel
  have hcall : Cursor.ofText "in(x, a)" =
      .ok ⟨[], [⟨.ident "in", 0, 2⟩, ⟨.leftParen, 2, 3⟩, ⟨.ident "x", 3, 4⟩, ⟨.comma, 4, 5⟩,
        ⟨.ident "a", 6, 7⟩, ⟨.rightParen, 7, 8⟩], 7, 0⟩ := by
    decide +kernel
  refine ⟨inList (.column (.plain "a") 0) [.column (.plain "x") 6] 2,
    call "in" [.column (.plain "x") 3, .column (.plain "a") 6] 0, ?_, ?_, by decide +kernel, nofun⟩
  · simp only [Expr.ofText, hlist]
    rfl
  · simp only [Expr.ofText, hcall]
    rfl

end Expr

end SeriesQuery
