import SeriesQuery.Compile
import SeriesQuery.Proofs.Expr.Tokens
import SeriesQuery.Proofs.Statement.Invariant
import SeriesQuery.Proofs.Statement.Running
import SeriesQuery.Proofs.Token.Taking

/-!
Table definitions written and read again.

What is read as a declaration has words for names and numbers that fit (`parser_written`), so the
definition it makes is well-formed. The canonical text of a well-formed definition is read as its
tokens (`spells_text`) and these as a declaration that says all of it (`parser_takes`): the text of
a definition defines the same table again, under any settings (`compile_definition_again`).
-/

namespace SeriesQuery

open SeriesQuery.Parser Lexer

/-! ### Declarations that are read -/

/-- What is read as a declaration has words for its names and numbers that fit. -/
theorem TableDeclaration.parser_written : Ensures Token.Lexable parser Written := by
  have hnames : Ident.Kept (Invariant.tokens Token.Lexable)
      fun name => (Token.ident name.name).Lexable := by
    intro l text hl htoken
    have hlexable : l.token.Lexable := hl
    rwa [htoken] at hlexable
  refine Ensures.iff_keeps.mpr ((parser_keeps hnames).mono fun d h => ?_)
  exact ⟨h.name, h.nonempty, fun c hc => ⟨(h.columns c hc).1, (h.columns c hc).2⟩,
    fun i hi => (h.indexes i hi).2, h.recordHint⟩

/-- A declaration that a text writes. -/
theorem Statement.written_of_ofText {sql : String} {d : TableDeclaration}
    (h : ofText sql = .ok (.createTable d)) : d.Written := by
  obtain ⟨lexemes, c, c', hlex, rfl, hbody⟩ := body_of_ofText h
  simp only [bodyParser, takeWord, bind_eq_ok] at hbody
  obtain ⟨created, c₁, hcreated, hbody⟩ := hbody
  have hc : c.Holds Token.Lexable := fun l hl => lexable_of_mem_lex hlex hl
  have hc₁ := (Ensures.iff_keeps.mpr (.accept _) c created c₁ hc hcreated).1
  split at hbody
  · obtain ⟨d', c₂, hd, hbody⟩ := bind_eq_ok.mp hbody
    cases hbody
    exact (TableDeclaration.parser_written c₁ _ _ hc₁ hd).2
  · obtain ⟨_, _, -, hbody⟩ := bind_eq_ok.mp hbody
    cases hbody

/-! ### Numbers -/

namespace Text

theorem isBlank_of_isDigit {c : Char} (h : c.isDigit = true) : isBlank c = false := by
  obtain ⟨hlow, hhigh⟩ : 48 ≤ c.toNat ∧ c.toNat ≤ 57 := by
    simpa [Char.isDigit, UInt32.le_iff_toNat_le] using h
  simp only [isBlank, Bool.or_eq_false_iff, Bool.and_eq_false_imp, decide_eq_true_eq,
    decide_eq_false_iff_not, beq_eq_false_iff_ne]
  omega

theorem toList_toString (n : Nat) : (toString n).toList = Nat.toDigits 10 n := by
  simp [toString]

theorem isDigit_toString (n : Nat) : ∀ c ∈ (toString n).toList, c.isDigit = true := by
  intro c hc
  rw [toList_toString] at hc
  exact Nat.isDigit_of_mem_toDigits (by decide) (by decide) hc

/-- A number is the value of its digits. -/
theorem natBelow?_toString {bound n : Nat} (h : n < bound) :
    natBelow? bound (toString n) = some n := by
  have hne : (toString n).toList ≠ [] := by simp
  have hdigits : (toString n).toList.all Char.isDigit = true := List.all_eq_true.mpr (isDigit_toString n)
  have hvalue : digitsValue (toString n).toList = n := by
    rw [toList_toString]
    exact Nat.ofDigitChars_toDigits (by decide) (by decide)
  simp only [natBelow?, hvalue]
  exact if_pos ⟨hne, hdigits, h⟩

end Text

/-- Digits are read as a number. -/
theorem Lexer.token?_digits {c : Char} {cs : List Char} (h : ∀ d ∈ c :: cs, d.isDigit = true) :
    token? (c :: cs) = some (.number (String.ofList (c :: cs)), []) := by
  obtain ⟨hc, hcs⟩ := List.forall_mem_cons.mp h
  have hstart : Text.isIdentStart c = false := by
    by_contra hstart
    exact absurd (Text.isDigit_of_isIdentStart (by simpa using hstart)) (by simp [hc])
  have htake : cs.takeWhile Char.isDigit = cs := List.takeWhile_eq_self_iff.mpr hcs
  have hdrop : cs.dropWhile Char.isDigit = [] := List.dropWhile_eq_nil_iff.mpr hcs
  simp only [token?, hstart, hc, Bool.false_eq_true, if_false, if_true]
  simp [splitNumber, htake, hdrop, splitFraction, word?]

theorem Token.lexable_number (n : Nat) : (Token.number (toString n)).Lexable := by
  have hdigits := Text.isDigit_toString n
  cases hn : (toString n).toList with
  | nil => exact absurd hn (by simp)
  | cons c cs =>
    rw [hn] at hdigits
    have htext : String.ofList (c :: cs) = toString n := by rw [← hn, String.ofList_toList]
    constructor
    · rw [Token.text, hn, token?_digits hdigits, htext]
    · rw [Token.text, hn]
      exact avoids_cons.mpr (Text.isBlank_of_isDigit (hdigits c List.mem_cons_self))

/-! ### The tokens of a definition -/

/-- The tokens of the text of a column. -/
def ColumnDefinition.tokens (c : ColumnDefinition) : List Token :=
  .ident c.name :: .ident c.type.name ::
    if c.indexed then
      [.ident "index", .ident "block", .ident "size", .number (toString c.indexBlockSize)]
    else []

namespace TableDefinition

/-- The tokens of the text of the designated timestamp. -/
def timestampTokens (t : TableDefinition) : List Token :=
  match t.timestampName? with
  | some name => [.ident "timestamp", .leftParen, .ident name, .rightParen]
  | none => []

/-- The tokens of the text of the partitioning. -/
def partitionTokens (t : TableDefinition) : List Token :=
  [.ident "partition", .ident "by", .ident t.partitionBy.name]

/-- The tokens of the text of the expected number of records. -/
def recordHintTokens (t : TableDefinition) : List Token :=
  match t.recordHint with
  | some n => [.ident "record", .ident "hint", .number (toString n)]
  | none => []

/-- The tokens of the canonical text of a definition. -/
def tokens (t : TableDefinition) : List Token :=
  .ident "create" :: .ident "table" :: .ident t.name :: .leftParen ::
    ([Token.comma].intercalate (t.columns.map ColumnDefinition.tokens) ++ .rightParen ::
      (t.timestampTokens ++ (t.partitionTokens ++ t.recordHintTokens)))

end TableDefinition

/-! ### The text is read as the tokens -/

/-- Items with a comma and a space between them. -/
theorem Lexer.SpellsBefore.listed {γ : Type} {text : γ → String} {tokens : γ → List Token}
    {xs : List γ} (h : ∀ x ∈ xs, SpellsBefore (text x) (tokens x)) :
    SpellsBefore (", ".intercalate (xs.map text)) ([Token.comma].intercalate (xs.map tokens)) := by
  induction xs with
  | nil => exact fun cs us _ hus => by simpa using hus
  | cons x xs ih =>
    obtain ⟨hx, hxs⟩ := List.forall_mem_cons.mp h
    intro cs us hcs hus
    cases xs with
    | nil => simpa using hx cs us hcs hus
    | cons y xs =>
      have hothers := (ih hxs cs us hcs hus).space.comma
      simpa [String.intercalate_cons_cons, List.intercalate_cons_cons] using
        hx _ _ (by simp) hothers

theorem lexable_typeName {w : String}
    (h : w ∈ ColumnType.all.map ColumnType.name ++ Partition.all.map Partition.name) :
    (Token.ident w).Lexable := by
  have hall : ∀ w ∈ ColumnType.all.map ColumnType.name ++ Partition.all.map Partition.name,
      (Token.ident w).Lexable := by decide +kernel
  exact hall w h

theorem ColumnType.lexable_name (type : ColumnType) : (Token.ident type.name).Lexable :=
  lexable_typeName <| List.mem_append_left _ <|
    List.mem_map_of_mem (by cases type <;> simp [ColumnType.all])

theorem Partition.lexable_name (partition : Partition) : (Token.ident partition.name).Lexable :=
  lexable_typeName <| List.mem_append_right _ <|
    List.mem_map_of_mem (by cases partition <;> simp [Partition.all])

namespace TableDefinition

theorem spells_columnText {c : ColumnDefinition} (h : (Token.ident c.name).Lexable) :
    SpellsBefore (columnText c) c.tokens := by
  intro cs us hcs hus
  by_cases hindexed : c.indexed = true
  · have hsize := (hus.token (Token.lexable_number c.indexBlockSize) hcs).space
    have hblock := (hsize.token (lexable_keyword "size" (by simp [keywords])) (by simp)).space
    have hindex := (hblock.token (lexable_keyword "block" (by simp [keywords])) (by simp)).space
    have htype := (hindex.token (lexable_keyword "index" (by simp [keywords])) (by simp)).space
    have hname := (htype.token c.type.lexable_name (by simp)).space
    simpa [columnText, ColumnDefinition.tokens, hindexed, Token.text] using hname.token h (by simp)
  · have hname := (hus.token c.type.lexable_name hcs).space
    simpa [columnText, ColumnDefinition.tokens, hindexed, Token.text] using hname.token h (by simp)

variable {t : TableDefinition}

theorem timestampText_eq : t.timestampText =
    match t.timestampName? with
    | some name => " timestamp(" ++ name ++ ")"
    | none => "" := by
  unfold timestampText timestampName?
  cases t.timestampIndex.bind fun i => t.columns[i]? <;> rfl

/-- The designated timestamp is a column, and so has its name. -/
theorem WellFormed.lexable_timestampName (h : t.WellFormed) {name : String}
    (hname : t.timestampName? = some name) : (Token.ident name).Lexable := by
  simp only [timestampName?, Option.map_eq_some_iff, Option.bind_eq_some_iff] at hname
  obtain ⟨c, ⟨i, -, hc⟩, rfl⟩ := hname
  exact (h.columns c (List.mem_of_getElem? hc)).name

/-- What follows the columns. -/
theorem spells_clauses (h : t.WellFormed) :
    Spells (t.timestampText ++ " partition by " ++ t.partitionBy.name ++ t.recordHintText).toList
      (t.timestampTokens ++ (t.partitionTokens ++ t.recordHintTokens)) := by
  have hhint : Spells t.recordHintText.toList t.recordHintTokens ∧ Stops t.recordHintText.toList := by
    unfold recordHintText recordHintTokens
    cases t.recordHint with
    | none => exact ⟨.nil, by simp⟩
    | some n =>
      have hnumber := (Spells.nil.token (Token.lexable_number n) (by simp)).space
      have hword := (hnumber.token (lexable_keyword "hint" (by simp [keywords])) (by simp)).space
      have hrecord := (hword.token (lexable_keyword "record" (by simp [keywords])) (by simp)).space
      exact ⟨by simpa [Token.text] using hrecord, by simp⟩
  have hname := (hhint.1.token t.partitionBy.lexable_name hhint.2).space
  have hby := (hname.token (lexable_keyword "by" (by simp [keywords])) (by simp)).space
  have hpartition := (hby.token (lexable_keyword "partition" (by simp [keywords])) (by simp)).space
  rw [timestampText_eq]
  unfold timestampTokens partitionTokens
  cases htimestamp : t.timestampName? with
  | none => simpa [Token.text] using hpartition
  | some name =>
    have hcolumn := hpartition.rightParen.token (h.lexable_timestampName htimestamp) (by simp)
    have hword := hcolumn.leftParen.token (lexable_keyword "timestamp" (by simp [keywords])) (by simp)
    simpa [Token.text] using hword.space

/-- A name and columns in parentheses, in front of the clauses. -/
theorem spells_create {name columns clauses : String} {cs ts : List Token}
    (hname : (Token.ident name).Lexable) (hcolumns : SpellsBefore columns cs)
    (hclauses : Spells clauses.toList ts) :
    Spells ("create table " ++ name ++ " (" ++ columns ++ ")" ++ clauses).toList
      (.ident "create" :: .ident "table" :: .ident name :: .leftParen ::
        (cs ++ .rightParen :: ts)) := by
  have hlist := (hcolumns _ _ (by simp) hclauses.rightParen).leftParen.space
  have htarget := (hlist.token hname (by simp)).space
  have htable := (htarget.token (lexable_keyword "table" (by simp [keywords])) (by simp)).space
  have hcreate := htable.token (lexable_keyword "create" (by simp [keywords])) (by simp)
  simpa [Token.text] using hcreate

/-- **The canonical text of a definition is read as its tokens.** -/
theorem spells_text (h : t.WellFormed) : Spells t.text.toList t.tokens := by
  have hcolumns : SpellsBefore (", ".intercalate (t.columns.map columnText))
      ([Token.comma].intercalate (t.columns.map ColumnDefinition.tokens)) :=
    .listed fun c hc => spells_columnText (h.columns c hc).name
  have hcreate := spells_create h.name hcolumns (spells_clauses h)
  unfold text tokens
  simpa only [String.append_assoc] using hcreate

end TableDefinition

/-! ### The tokens are read as a declaration -/

section Takes

variable {rest : List Token} {n : Nat}

theorem takes_needName (name : String) : Takes needName [.ident name] rest n (·.name = name) := by
  refine Takes.bind_all Takes.needNext fun l hl => ?_
  simp only [hl]
  exact .pure rfl

theorem takes_needNumber {k : Nat} (h : k < UInt64.size) :
    Takes needNumber [.number (toString k)] rest n (·.1 = k) := by
  refine Takes.bind_all Takes.needNext fun l hl => ?_
  simp only [Lexeme.text, hl, Token.text, Text.natBelow?_toString h]
  exact .pure rfl

/-- Where the next token is another one, a clause that starts with a word is left out. -/
theorem takes_word_rest {keyword : String} {u : List Token}
    (h : ∀ t ∈ u.head?, t.isWord keyword = false) : Takes (takeWord keyword) [] u n (· = false) :=
  Takes.accept_rest h

theorem IndexSpec.parser_takes {size : Nat} (h : size < UInt32.size) :
    Takes IndexSpec.parser [.ident "block", .ident "size", .number (toString size)] rest n
      (· = ⟨some size⟩) := by
  have hlong : size < UInt64.size := Nat.lt_trans h (by decide)
  refine Takes.bind (s := [.ident "block"]) (Takes.accept (by decide)) fun taken htaken => ?_
  rw [htaken]
  refine Takes.bind (s := [.ident "size"]) (Takes.needWord (by decide)) fun _ _ => ?_
  refine Takes.bind_all (takes_needNumber hlong) fun number hnumber => ?_
  simp only [hnumber, h, if_true]
  exact .pure rfl

/-- A column is read as a declaration that defines it, whatever the settings. -/
theorem ColumnDeclaration.parser_takes {c : ColumnDefinition} (h : c.WellFormed) {u : List Token}
    (hu : Takes.Closes u) :
    Takes ColumnDeclaration.parser c.tokens u n fun d =>
      ∀ blockSize, TableDefinition.defineColumn blockSize d = c := by
  obtain ⟨name, type, indexed, size⟩ := c
  refine Takes.bind (s := [.ident name]) (takes_needName name) fun given hgiven => ?_
  refine Takes.bind (s := [.ident type.name]) Takes.needNext fun l hl => ?_
  simp only [Lexeme.text, hl, Token.text, ColumnType.ofName?_name]
  cases indexed with
  | false =>
    have hzero : size = 0 := h.unindexed rfl
    have hnext : ∀ t ∈ u.head?, t.isWord "index" = false := by
      rintro t ht
      rcases hu with hcomma | hparen
      · rw [hcomma] at ht
        cases ht
        rfl
      · rw [hparen] at ht
        cases ht
        rfl
    refine Takes.bind (s := []) (takes_word_rest hnext) fun taken htaken => ?_
    rw [htaken]
    refine .pure fun blockSize => ?_
    rw [hzero, ← hgiven]
    rfl
  | true =>
    refine Takes.bind (s := [.ident "index"]) (Takes.accept (by decide)) fun taken htaken => ?_
    rw [htaken]
    refine Takes.bind_all (Takes.map (IndexSpec.parser_takes h.blockSize) fun spec hspec => ?_)
      fun index (hindex : index = some ⟨some size⟩) => .pure fun blockSize => ?_
    · rw [hspec]
    · rw [hindex, ← hgiven]
      rfl

namespace TableDeclaration

theorem takes_timestampClause (t : TableDefinition) {u : List Token}
    (hu : ∀ t ∈ u.head?, t.isWord "timestamp" = false) :
    Takes timestampClause t.timestampTokens u n fun timestamp =>
      timestamp.map Ident.name = t.timestampName? := by
  unfold TableDefinition.timestampTokens
  cases t.timestampName? with
  | none =>
    refine Takes.bind (s := []) (takes_word_rest hu) fun taken htaken => ?_
    rw [htaken]
    exact .pure rfl
  | some name =>
    refine Takes.bind (s := [.ident "timestamp"]) (Takes.accept (by decide)) fun taken htaken => ?_
    rw [htaken]
    refine Takes.bind (s := [.leftParen]) Takes.needToken fun _ _ => ?_
    refine Takes.bind (s := [.ident name]) (takes_needName name) fun column hcolumn => ?_
    refine Takes.bind_all Takes.needToken fun _ _ => .pure ?_
    rw [Option.map_some, hcolumn]

theorem takes_partitionClause (t : TableDefinition) :
    Takes partitionClause t.partitionTokens rest n
      fun partitionBy => partitionBy.map Prod.fst = some t.partitionBy := by
  unfold TableDefinition.partitionTokens
  refine Takes.bind (s := [.ident "partition"]) (Takes.accept (by decide)) fun taken htaken => ?_
  rw [htaken]
  refine Takes.bind (s := [.ident "by"]) (Takes.needWord (by decide)) fun _ _ => ?_
  refine Takes.bind_all Takes.needNext fun l hl => ?_
  simp only [Lexeme.text, hl, Token.text, Partition.ofName?_name]
  exact .pure rfl

theorem takes_recordHintClause {t : TableDefinition} (h : ∀ k ∈ t.recordHint, k < UInt64.size) :
    Takes recordHintClause t.recordHintTokens [] n (· = t.recordHint) := by
  unfold TableDefinition.recordHintTokens
  cases hhint : t.recordHint with
  | none =>
    refine Takes.bind_all (takes_word_rest (by simp)) fun taken htaken => ?_
    rw [htaken]
    exact .pure rfl
  | some k =>
    refine Takes.bind (s := [.ident "record"]) (Takes.accept (by decide)) fun taken htaken => ?_
    rw [htaken]
    refine Takes.bind (s := [.ident "hint"]) (Takes.needWord (by decide)) fun _ _ => ?_
    refine Takes.bind_pure (takes_needNumber (h k hhint)) fun number hnumber => ?_
    rw [hnumber]

/-- What follows the columns is no further index. -/
theorem takes_indexes {u : List Token} (h : ∀ t ∈ u.head?, t ≠ .comma) :
    Takes (many IndexDeclaration.parser?) [] u n (· = []) := by
  refine Takes.many_none (Takes.bind_all (Takes.accept_rest (by simpa using h)) fun taken htaken => ?_)
  rw [htaken]
  exact .pure rfl

/-- The tokens of a well-formed definition are read as a declaration that says all of it. -/
theorem parser_takes {t : TableDefinition} (h : t.WellFormed) :
    Takes parser t.tokens.tail [] n t.Says := by
  have htokens : t.tokens.tail = .ident "table" :: .ident t.name :: .leftParen ::
      ([Token.comma].intercalate (t.columns.map ColumnDefinition.tokens) ++ [.rightParen] ++
        (t.timestampTokens ++ (t.partitionTokens ++ t.recordHintTokens))) := by
    simp [TableDefinition.tokens]
  -- a clause starts with its own word, or with that of the partitioning
  have hclauses : ∀ u ∈ (t.timestampTokens ++ (t.partitionTokens ++ t.recordHintTokens)).head?,
      u ≠ .comma := by
    unfold TableDefinition.timestampTokens TableDefinition.partitionTokens
    cases t.timestampName? <;> simp
  have hpartition : ∀ u ∈ (t.partitionTokens ++ t.recordHintTokens).head?,
      u.isWord "timestamp" = false := by
    simp only [TableDefinition.partitionTokens, List.cons_append, List.head?_cons, Option.mem_def,
      Option.some.injEq, forall_eq']
    decide
  rw [htokens]
  refine Takes.bind (s := [.ident "table"]) Takes.needNext fun target htarget => ?_
  simp only [Lexeme.isWord, htarget]
  refine Takes.bind (s := [.ident t.name]) (takes_needName t.name) fun name hname => ?_
  refine Takes.bind (s := [.leftParen]) Takes.needToken fun _ _ => ?_
  refine Takes.bind (Takes.listUntil (by decide) h.nonempty fun c hc u hu =>
    ColumnDeclaration.parser_takes (h.columns c hc) hu) fun columns hcolumns => ?_
  refine Takes.bind (s := []) (takes_indexes (by simpa using hclauses)) fun indexes hindexes => ?_
  refine Takes.bind (takes_timestampClause t (by simpa using hpartition)) fun timestamp htimestamp => ?_
  refine Takes.bind (takes_partitionClause t) fun partitionBy hpartitionBy => ?_
  refine Takes.bind_all (takes_recordHintClause h.recordHint) fun recordHint hhint => .pure ?_
  refine ⟨hname, fun blockSize => ?_, hindexes, htimestamp, hpartitionBy, hhint⟩
  have hdefined := List.forall₂_map_left_iff.mpr (hcolumns.flip.imp fun d c hc => hc blockSize)
  rwa [List.forall₂_eq_eq_eq] at hdefined

end TableDeclaration

/-- The text of a well-formed definition is read as a declaration that says all of it. -/
theorem Statement.ofText_definition {t : TableDefinition} (h : t.WellFormed) :
    ∃ d, ofText t.text = .ok (.createTable d) ∧ t.Says d := by
  have hbody : Takes bodyParser t.tokens [] 0 fun s => ∃ d, s = .createTable d ∧ t.Says d := by
    refine Takes.bind (s := [.ident "create"]) (Takes.accept (by decide)) fun created hcreated => ?_
    rw [hcreated]
    exact Takes.bind_pure (TableDeclaration.parser_takes h) fun d hd => ⟨d, rfl, hd⟩
  have hstatement : Takes parser t.tokens [] 0 fun s => ∃ d, s = .createTable d ∧ t.Says d := by
    refine Takes.bind_all hbody fun statement hstatement => ?_
    refine Takes.bind_all (Takes.accept_rest (by simp)) fun _ _ => ?_
    exact Takes.next_bind_end (.pure hstatement)
  obtain ⟨c, s, c', hc, hrun, -, d, rfl, hd⟩ :=
    hstatement.run_text (Nat.zero_le _) (TableDefinition.spells_text h)
  refine ⟨d, ?_, hd⟩
  simp only [ofText, hc, hrun]

end Takes

/-- **The text of a table definition defines the same table again.** What a statement defines
under some settings, with a block size of 32 bits, its canonical text defines under any. -/
theorem compile_definition_again {env env' : Environment} {sql : String} {t : TableDefinition}
    (h : compile env sql = .ok (.createTable t))
    (hsize : env.settings.indexValueBlockSize < UInt32.size) :
    compile env' t.text = .ok (.createTable t) := by
  obtain ⟨statement, hstatement, h⟩ := Except.bind_eq_ok.mp h
  cases statement with
  | query q =>
    obtain ⟨m, -, h⟩ := Except.bind_eq_ok.mp h
    cases h
  | createTable d =>
    obtain ⟨t', hdefined, h⟩ := Except.bind_eq_ok.mp h
    cases h
    have hwell : t.WellFormed :=
      TableDefinition.wellFormed_of_ofDeclaration (Statement.written_of_ofText hstatement) hsize hdefined
    obtain ⟨d', hread, hsays⟩ := Statement.ofText_definition hwell
    have hagain : TableDefinition.ofDeclaration env'.settings d' = .ok t :=
      TableDefinition.ofDeclaration_of_says hwell hsays
    simp only [compile, hread, Statement.compile, Bind.bind, Except.bind, hagain]
    rfl

/-- A table of ticks with an index on one of its columns. -/
def ticksDefinition : TableDefinition :=
  ⟨"ticks", [⟨"id", .long, true, 256⟩, ⟨"ts", .timestamp, false, 0⟩], some 1, .none, none⟩

/-- The settings fill in the block size of an index once. -/
theorem compile_definition_again_ticks :
    compile ⟨fun _ => none, .standard⟩
        "create table ticks (id long, ts timestamp), index (ID) timestamp (TS)" =
        .ok (.createTable ticksDefinition) ∧
      compile ⟨fun _ => none, ⟨0, 1, true⟩⟩ ticksDefinition.text =
        .ok (.createTable ticksDefinition) := by
  have hcursor : Cursor.ofText
      "create table ticks (id long, ts timestamp), index (ID) timestamp (TS)" =
      .ok ⟨[], [⟨.ident "create", 0, 6⟩, ⟨.ident "table", 7, 12⟩, ⟨.ident "ticks", 13, 18⟩,
        ⟨.leftParen, 19, 20⟩, ⟨.ident "id", 20, 22⟩, ⟨.ident "long", 23, 27⟩, ⟨.comma, 27, 28⟩,
        ⟨.ident "ts", 29, 31⟩, ⟨.ident "timestamp", 32, 41⟩, ⟨.rightParen, 41, 42⟩, ⟨.comma, 42, 43⟩,
        ⟨.ident "index", 44, 49⟩, ⟨.leftParen, 50, 51⟩, ⟨.ident "ID", 51, 53⟩, ⟨.rightParen, 53, 54⟩,
        ⟨.ident "timestamp", 55, 64⟩, ⟨.leftParen, 65, 66⟩, ⟨.ident "TS", 66, 68⟩,
        ⟨.rightParen, 68, 69⟩], 68, 0⟩ := by
    decide +kernel
  have hticks : compile ⟨fun _ => none, .standard⟩
      "create table ticks (id long, ts timestamp), index (ID) timestamp (TS)" =
        .ok (.createTable ticksDefinition) := by
    simp only [compile, Statement.ofText, hcursor]
    rfl
  exact ⟨hticks, compile_definition_again hticks (by decide)⟩

end SeriesQuery
