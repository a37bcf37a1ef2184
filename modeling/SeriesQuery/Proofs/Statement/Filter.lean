import SeriesQuery.Proofs.Expr.RoundTrip
import SeriesQuery.Proofs.Statement.Running
import SeriesQuery.Proofs.TableFilter

/-!
Reading a table with a condition.

A statement that is read as one table with a condition starts with the name of the table, which
is none of the words that start another statement, and its condition is made of the tokens that
follow (`Statement.tokens_of_filter`). A text of these parts is read as such a statement again
(`Statement.takes_filter`).
-/

namespace SeriesQuery

/-- Every lexeme starts behind the one before it. -/
theorem Lexer.starts_of_lexFrom {position : Nat} {cs : List Char} {lexemes : List Lexeme}
    (h : lexFrom position cs = .ok lexemes) :
    (∀ l ∈ lexemes, position ≤ l.start) ∧ lexemes.Pairwise fun a b => a.start < b.start := by
  fun_induction lexFrom position cs generalizing lexemes with
  | case1 =>
    cases h
    exact ⟨by simp, .nil⟩
  | case2 => cases h
  | case3 => cases h
  | case4 position cs start hne token after htoken stop rest hrest =>
    rename_i ih
    cases h
    obtain ⟨hbehind, hpairwise⟩ := ih hrest
    have hsize : 0 < token.text.utf8ByteSize := by
      have hne := text_ne_empty_of_token? htoken
      exact Nat.pos_of_ne_zero fun hzero => hne (String.utf8ByteSize_eq_zero_iff.mp hzero)
    have hstart : position ≤ start := Nat.le_add_right _ _
    have hstop : start < stop := Nat.lt_add_of_pos_right hsize
    constructor
    · intro l hl
      rcases List.mem_cons.mp hl with rfl | hl
      · exact hstart
      · have := hbehind l hl
        omega
    · refine .cons (fun l hl => ?_) hpairwise
      exact Nat.lt_of_lt_of_le hstop (hbehind l hl)

namespace Parser

/-- Where the reader answers `a`, it takes nothing. -/
def Idle {α : Type} (p : Parser α) (a : α) : Prop :=
  ∀ c c', p c = .ok a c' → c' = c

end Parser

open SeriesQuery.Parser

/-! ### Clauses that are left out -/

theorem sourceAlias_idle : Idle sourceAlias none := by
  intro c c' h
  simp only [sourceAlias, peek_bind] at h
  cases hhead : c.after.head? with
  | none =>
    rw [hhead] at h
    cases h
    rfl
  | some l =>
    rw [hhead] at h
    cases hl : l.token with
    | ident text =>
      simp only [hl] at h
      split at h
      · cases h
        rfl
      · split at h
        · cases h
        · obtain ⟨_, _, -, h⟩ := bind_eq_ok.mp h
          cases h
    | string text =>
      simp only [hl] at h
      obtain ⟨_, _, -, h⟩ := bind_eq_ok.mp h
      cases h
    | _ =>
      simp only [hl] at h
      cases h
      rfl

theorem many_idle {α : Type} {step : Parser (Option α)} (hstep : Idle step none) :
    Idle (many step) [] := by
  intro c c' h
  obtain ⟨_, _, hget, h⟩ := bind_eq_ok.mp h
  cases hget
  obtain ⟨a?, c₁, hrun, h⟩ := bind_eq_ok.mp h
  cases a? with
  | none =>
    cases h
    exact hstep c _ hrun
  | some a =>
    obtain ⟨_, _, -, h⟩ := bind_eq_ok.mp h
    cases h

namespace Query

theorem join?_idle (inner : Parser Query) : Idle (join? inner) none := by
  intro c c' h
  simp only [join?, peek_bind] at h
  cases hhead : c.after.head? with
  | none =>
    rw [hhead] at h
    cases h
    rfl
  | some l =>
    rw [hhead] at h
    cases hkind : joinKind? l with
    | none =>
      simp only [hkind] at h
      cases h
      rfl
    | some kind =>
      simp only [hkind, next_bind] at h
      split at h
      · obtain ⟨_, _, -, h⟩ := bind_eq_ok.mp h
        obtain ⟨_, _, -, h⟩ := bind_eq_ok.mp h
        obtain ⟨_, _, -, h⟩ := bind_eq_ok.mp h
        obtain ⟨_, _, -, h⟩ := bind_eq_ok.mp h
        cases h
      · obtain ⟨_, _, -, h⟩ := bind_eq_ok.mp h
        obtain ⟨_, _, -, h⟩ := bind_eq_ok.mp h
        obtain ⟨_, _, -, h⟩ := bind_eq_ok.mp h
        cases h

theorem timestampClause_idle : Idle timestampClause none := by
  intro c c' h
  simp only [timestampClause, bind_eq_ok] at h
  obtain ⟨taken, c₁, htaken, h⟩ := h
  rcases of_accept htaken with ⟨rfl, rfl, -⟩ | ⟨l, rfl, -⟩
  · cases h
    rfl
  · obtain ⟨_, _, -, h⟩ := bind_eq_ok.mp h
    obtain ⟨_, _, -, h⟩ := bind_eq_ok.mp h
    obtain ⟨_, _, -, h⟩ := bind_eq_ok.mp h
    cases h

theorem latestByClause_idle (source : SourceOf Query) : Idle (latestByClause source) [] := by
  intro c c' h
  simp only [latestByClause, peek_bind] at h
  cases hhead : c.after.head? with
  | none =>
    rw [hhead] at h
    cases h
    rfl
  | some l =>
    simp only [hhead] at h
    split at h
    · cases source with
      | query q => cases h
      | table name =>
        simp only [next_bind, bind_eq_ok] at h
        obtain ⟨_, _, -, h⟩ := h
        obtain ⟨_, _, -, h⟩ := bind_eq_ok.mp h
        obtain ⟨_, _, -, h⟩ := bind_eq_ok.mp h
        cases h
    · cases h
      rfl

/-- Without a select list a query starts with its source, or with three words before it. -/
theorem of_selectClause {c c' : Cursor} (h : selectClause c = .ok none c') :
    (c' = c ∧ ∀ l ∈ c.after.head?, l.isWord "select" = false) ∨
      ∃ select star word, c.after = select :: star :: word :: c'.after := by
  obtain ⟨before, after, endPosition, depth⟩ := c
  simp only [selectClause, peek_bind] at h
  cases after with
  | nil =>
    cases h
    exact .inl ⟨rfl, by simp⟩
  | cons select after =>
    simp only [List.head?_cons] at h
    split at h
    · simp only [next_bind, SelectClause.parser, Cursor.advance, peek_bind] at h
      cases after with
      | nil => cases h
      | cons star after =>
        simp only [List.head?_cons] at h
        split at h
        · cases h
        · split at h
          · simp only [next_bind, Cursor.advance, bind_eq_ok] at h
            obtain ⟨word, _, hword, h⟩ := h
            cases h
            have hrest : after = word :: c'.after := of_needWord hword
            exact .inr ⟨select, star, word, by rw [hrest]⟩
          · obtain ⟨_, _, -, h⟩ := bind_eq_ok.mp h
            cases h
    · rename_i hselect
      cases h
      exact .inl ⟨rfl, by simpa using hselect⟩

/-- A source that is a table is the word it is read from. -/
theorem of_sourceParser {inner : Parser Query} {c c' : Cursor} {name : Ident}
    (h : sourceParser inner c = .ok (.table name) c') :
    ∃ l, c.after = l :: c'.after ∧ l.token = .ident name.name ∧ l.start = name.position := by
  obtain ⟨l, c₁, hl, h⟩ := bind_eq_ok.mp h
  cases htoken : l.token with
  | ident text =>
    simp only [htoken] at h
    cases h
    exact ⟨l, of_needNext hl, htoken, rfl⟩
  | leftParen =>
    simp only [htoken] at h
    obtain ⟨_, _, -, h⟩ := bind_eq_ok.mp h
    obtain ⟨_, _, -, h⟩ := bind_eq_ok.mp h
    cases h
  | _ =>
    simp only [htoken] at h
    cases h

/-- A condition follows its word. -/
theorem of_whereClause {c c' : Cursor} {condition : Expr}
    (h : whereClause c = .ok (some condition) c') :
    ∃ c₁ w, c.after = w :: c₁.after ∧ Expr.parser c₁ = .ok condition c' := by
  simp only [whereClause, takeWord, bind_eq_ok] at h
  obtain ⟨taken, c₁, htaken, h⟩ := h
  rcases of_accept htaken with ⟨rfl, rfl, -⟩ | ⟨w, rfl, hw, -⟩
  · cases h
  · obtain ⟨e, c₂, he, h⟩ := bind_eq_ok.mp h
    cases h
    exact ⟨c₁, w, hw, he⟩

/-- A query that is a table with a condition is read from the name of the table, perhaps behind
`select * from`, and from the condition. -/
theorem of_around {inner : Parser Query} {c c' : Cursor} {p : Nat} {name : Ident} {condition : Expr}
    (h : around inner c = .ok (.ofFilter p name condition) c') :
    p = c.position ∧ ∃ before l c₁ w, c.after = before ++ l :: w :: c₁.after ∧
      (before = [] → l.isWord "select" = false) ∧ l.token = .ident name.name ∧
      l.start = name.position ∧ ∃ c₂, Expr.parser c₁ = .ok condition c₂ := by
  simp only [around, bind_eq_ok] at h
  obtain ⟨position, _, hposition, h⟩ := h
  cases hposition
  obtain ⟨select, c₁, hselect, h⟩ := h
  obtain ⟨source, c₂, hsource, h⟩ := h
  obtain ⟨givenName, c₃, halias, h⟩ := h
  obtain ⟨timestamp, c₄, htimestamp, h⟩ := h
  obtain ⟨latestBy, c₅, hlatest, h⟩ := h
  obtain ⟨joins, c₆, hjoins, h⟩ := h
  obtain ⟨filter, c₇, hfilter, h⟩ := h
  obtain ⟨sampleBy, c₈, -, h⟩ := h
  obtain ⟨orderBy, c₉, -, h⟩ := h
  obtain ⟨limit, c₁₀, -, h⟩ := h
  cases h
  obtain ⟨l, hl, hname, hstart⟩ := of_sourceParser hsource
  obtain rfl := sourceAlias_idle _ _ halias
  obtain rfl := timestampClause_idle _ _ htimestamp
  obtain rfl := latestByClause_idle _ _ _ hlatest
  obtain rfl := many_idle (join?_idle inner) _ _ hjoins
  obtain ⟨c₁₁, w, hw, he⟩ := of_whereClause hfilter
  have hrest : c₁.after = l :: w :: c₁₁.after := by rw [hl, hw]
  refine ⟨rfl, ?_⟩
  rcases of_selectClause hselect with ⟨rfl, hword⟩ | ⟨select, star, word, hbefore⟩
  · refine ⟨[], l, c₁₁, w, hrest, fun _ => hword l ?_, hname, hstart, c₇, he⟩
    rw [hrest]
    rfl
  · refine ⟨[select, star, word], l, c₁₁, w, ?_, (fun h => by cases h), hname, hstart,
      c₇, he⟩
    rw [hbefore, hrest]
    rfl

end Query

namespace Statement

/-- A statement that is no declaration is read as a query from its first word on. -/
theorem of_ofText {sql : String} {q : Query} (h : ofText sql = .ok (.query q)) :
    ∃ lexemes c c', lex sql = .ok lexemes ∧ c.after = lexemes ∧
      (∀ l ∈ lexemes.head?, l.isWord "create" = false) ∧ Query.parser c = .ok q c' := by
  obtain ⟨lexemes, c, c', hlex, rfl, hbody⟩ := body_of_ofText h
  simp only [bodyParser, takeWord, bind_eq_ok] at hbody
  obtain ⟨created, c₁, hcreated, hbody⟩ := hbody
  rcases of_accept hcreated with ⟨rfl, rfl, hword⟩ | ⟨l, rfl, -⟩
  · obtain ⟨_, _, hquery, hbody⟩ := bind_eq_ok.mp hbody
    cases hbody
    exact ⟨_, _, _, hlex, rfl, hword, hquery⟩
  · obtain ⟨_, _, -, hbody⟩ := bind_eq_ok.mp hbody
    cases hbody

/-- A statement that is read as a table with a condition, where the name of the table comes
first: that name is a word of its own and starts no other statement, and the condition is made
of words of the text. -/
theorem tokens_of_filter {sql : String} {name : Ident} {condition : Expr}
    (h : ofText sql = .ok (.query (.ofFilter name.position name condition))) :
    (Token.ident name.name).Lexable ∧ Ascii.same name.name "create" = false ∧
      Ascii.same name.name "select" = false ∧ Expr.FromTokens Token.Lexable false condition := by
  obtain ⟨lexemes, c, c', hlex, hafter, hcreate, hrun⟩ := of_ofText h
  obtain ⟨hposition, before, l, c₁, w, hsplit, hselect, hname, hstart, c₂, hcondition⟩ :=
    Query.of_around hrun
  rw [hafter] at hsplit
  have hfirst : before = [] := by
    cases before with
    | nil => rfl
    | cons first before =>
      have hstarts := (Lexer.starts_of_lexFrom hlex).2
      rw [hsplit, List.cons_append, List.pairwise_cons] at hstarts
      have hlt : first.start < l.start := hstarts.1 l (by simp)
      have hposition : name.position = first.start := by
        rw [hposition, Cursor.position, hafter, hsplit]
        rfl
      omega
  obtain rfl := hfirst
  have hlexable : ∀ t ∈ lexemes, t.token.Lexable := fun t ht => lexable_of_mem_lex hlex ht
  have hword := hcreate l (by rw [hsplit]; rfl)
  have hselect := hselect rfl
  rw [Lexeme.isWord, hname] at hword hselect
  refine ⟨hname ▸ hlexable l (by simp [hsplit]), hword, hselect, ?_⟩
  exact Expr.fromTokens_of_read (fun t ht => hlexable t (by simp [hsplit, ht])) hcondition

end Statement

/-! ### The text of a table with a condition -/

section Takes

variable {name : String} {rest : List Token} {n : Nat}

/-- A word that starts a clause is no alias. -/
theorem takes_sourceAlias {t : Token} (h : t.startsClause = true) (hword : ∃ text, t = .ident text) :
    Takes sourceAlias [] (t :: rest) n (· = none) := by
  refine Takes.peek_bind_rest fun l? hl => ?_
  obtain ⟨text, rfl⟩ := hword
  cases l? with
  | none => cases hl
  | some l =>
    have hl : l.token = .ident text := Option.some.inj hl
    simp only [hl, h, if_true]
    exact .pure rfl

namespace Query

theorem takes_selectClause (h : ∀ t ∈ rest.head?, t.isWord "select" = false) :
    Takes selectClause [] rest n (· = none) := by
  refine Takes.peek_bind_rest fun l? hl => ?_
  cases l? with
  | none => exact .pure rfl
  | some l =>
    have hl : l.isWord "select" = false := h l.token (by rw [← hl]; rfl)
    simp only [hl, Bool.false_eq_true, if_false]
    exact .pure rfl

theorem takes_sourceParser (inner : Parser Query) :
    Takes (sourceParser inner) [.ident name] rest n fun source => ∃ p, source = .table ⟨name, p⟩ := by
  refine Takes.bind (u := []) Takes.needNext fun l hl => ?_
  simp only [hl]
  exact .pure ⟨l.start, rfl⟩

theorem takes_join? (inner : Parser Query)
    (h : ∀ t ∈ rest.head?, ∀ l : Lexeme, l.token = t → joinKind? l = none) :
    Takes (join? inner) [] rest n (· = none) := by
  refine Takes.peek_bind_rest fun l? hl => ?_
  cases l? with
  | none => exact .pure rfl
  | some l =>
    have hl : joinKind? l = none := h l.token (by rw [← hl]; rfl) l rfl
    simp only [hl]
    exact .pure rfl

theorem takes_latestByClause (source : SourceOf Query)
    (h : ∀ t ∈ rest.head?, t.isWord "latest" = false) :
    Takes (latestByClause source) [] rest n (· = []) := by
  refine Takes.peek_bind_rest fun l? hl => ?_
  cases l? with
  | none => exact .pure rfl
  | some l =>
    have hl : l.isWord "latest" = false := h l.token (by rw [← hl]; rfl)
    simp only [hl, Bool.false_eq_true, if_false]
    exact .pure rfl

theorem takes_timestampClause (h : ∀ t ∈ rest.head?, t.isWord "timestamp" = false) :
    Takes timestampClause [] rest n (· = none) := by
  refine Takes.bind (s := []) (u := []) (Takes.accept_rest h) fun taken htaken => ?_
  rw [htaken]
  exact .pure rfl

theorem takes_whereClause {filter : Expr} {R : Expr → Prop} {w : Token}
    (hw : w.isWord "where" = true) (h : Takes Expr.parser filter.tokens rest n R) :
    Takes whereClause (w :: filter.tokens) rest n fun e? => ∃ e, e? = some e ∧ R e := by
  refine Takes.bind (s := [w]) (Takes.accept hw) fun taken htaken => ?_
  rw [htaken]
  exact Takes.bind_pure h fun e he => ⟨e, rfl, he⟩

/-- At the end of a text no clause follows. -/
theorem takes_sampleByClause : Takes sampleByClause [] [] n (· = none) := by
  refine Takes.bind (s := []) (u := []) (Takes.accept_rest (by simp)) fun taken htaken => ?_
  rw [htaken]
  exact .pure rfl

theorem takes_orderByClause : Takes orderByClause [] [] n (· = []) := by
  refine Takes.bind (s := []) (u := []) (Takes.accept_rest (by simp)) fun taken htaken => ?_
  rw [htaken]
  exact .pure rfl

theorem takes_limitClause : Takes limitClause [] [] n (· = none) := by
  refine Takes.bind (s := []) (u := []) (Takes.accept_rest (by simp)) fun taken htaken => ?_
  rw [htaken]
  exact .pure rfl

/-- A table with a condition is read as such. -/
theorem takes_around {inner : Parser Query} {filter : Expr} {R : Expr → Prop}
    (hselect : Ascii.same name "select" = false) (h : Takes Expr.parser filter.tokens [] n R) :
    Takes (around inner) (.ident name :: .ident "where" :: filter.tokens) [] n fun q =>
      ∃ p q' read, q = .ofFilter p ⟨name, q'⟩ read ∧ R read := by
  have hword : ∀ {p : Token → Bool}, p (.ident "where") = false →
      ∀ t ∈ (Token.ident "where" :: filter.tokens).head?, p t = false := by
    rintro p hp t ht
    cases ht
    exact hp
  have hclause : (Token.ident "where").startsClause = true := by decide
  have hjoin : ∀ t ∈ (Token.ident "where" :: filter.tokens).head?, ∀ l : Lexeme, l.token = t →
      joinKind? l = none := by
    rintro t ht l hl
    cases ht
    simp only [joinKind?, Lexeme.isWord, hl]
    decide
  refine Takes.position_bind fun p => ?_
  refine Takes.bind (s := []) (takes_selectClause (by rintro t ht; cases ht; exact hselect))
    fun select hselect => ?_
  refine Takes.bind (s := [.ident name]) (takes_sourceParser inner) fun source hsource => ?_
  refine Takes.bind (s := []) (takes_sourceAlias hclause ⟨_, rfl⟩) fun given hgiven => ?_
  refine Takes.bind (s := []) (takes_timestampClause (hword (by decide))) fun stamp hstamp => ?_
  refine Takes.bind (s := []) (takes_latestByClause source (hword (by decide))) fun latest hlatest => ?_
  refine Takes.bind (s := []) (Takes.many_none (takes_join? inner hjoin)) fun joins hjoins => ?_
  refine Takes.bind_all (takes_whereClause (by decide) h) fun filter hfilter => ?_
  refine Takes.bind_all takes_sampleByClause fun sample hsample => ?_
  refine Takes.bind_all takes_orderByClause fun order horder => ?_
  refine Takes.bind_all takes_limitClause fun limit hlimit => ?_
  obtain ⟨q', rfl⟩ := hsource
  obtain ⟨read, rfl, hread⟩ := hfilter
  subst hselect hgiven hstamp hlatest hjoins hsample horder hlimit
  exact .pure ⟨p, q', read, rfl, hread⟩

end Query

end Takes

namespace Statement

theorem takes_filter {name : String} {filter : Expr} {n : Nat} {R : Expr → Prop}
    (hcreate : Ascii.same name "create" = false) (hselect : Ascii.same name "select" = false)
    (h : Takes Expr.parser filter.tokens [] n R) :
    Takes parser (.ident name :: .ident "where" :: filter.tokens) [] n fun s =>
      ∃ p q read, s = .query (.ofFilter p ⟨name, q⟩ read) ∧ R read := by
  have hbody : Takes bodyParser (.ident name :: .ident "where" :: filter.tokens) [] n fun s =>
      ∃ p q read, s = .query (.ofFilter p ⟨name, q⟩ read) ∧ R read := by
    refine Takes.bind (s := []) (Takes.accept_rest ?_) fun created hcreated => ?_
    · rintro t ht
      cases ht
      exact hcreate
    · rw [hcreated]
      refine Takes.bind_pure (Query.takes_around hselect h) ?_
      rintro _ ⟨p, q, read, rfl, hread⟩
      exact ⟨p, q, read, rfl, hread⟩
  refine Takes.bind_all hbody fun statement hstatement => ?_
  refine Takes.bind_all (Takes.accept_rest (by simp)) fun _ _ => ?_
  exact Takes.next_bind_end (.pure hstatement)

/-- **The text of a table with a condition is read as such a statement.** -/
theorem ofText_filter {name : String} {filter : Expr} (hname : (Token.ident name).Lexable)
    (hcreate : Ascii.same name "create" = false) (hselect : Ascii.same name "select" = false)
    (h : Expr.FromTokens Token.Lexable false filter) (hnots : filter.notsApart)
    (hdepth : filter.depth ≤ maxNesting) :
    ∃ p q read, ofText (name ++ " where " ++ filter.text) = .ok (.query (.ofFilter p ⟨name, q⟩ read)) ∧
      read.erase = filter.called.erase := by
  have hread : Parser.Takes Expr.parser filter.tokens [] filter.depth (·.erase = filter.called.erase) :=
    Expr.parser_takes h hnots hdepth (by simp [Grammar.Ends]) (by simp [Grammar.Ends])
  have hwhere := lexable_keyword "where" (by simp [keywords])
  have hspells : Lexer.Spells (name ++ " where " ++ filter.text).toList
      (.ident name :: .ident "where" :: filter.tokens) := by
    have hfilter := Expr.spells_text h [] [] (by simp) .nil
    have hclause := (hfilter.space.token hwhere (by simp)).space
    simpa [Token.text] using hclause.token hname (by simp)
  obtain ⟨c, s, c', hc, hrun, -, p, q, read, rfl, hfilter⟩ :=
    (takes_filter hcreate hselect hread).run_text hdepth hspells
  refine ⟨p, q, read, ?_, hfilter⟩
  simp only [ofText, hc, hrun]

end Statement

end SeriesQuery
