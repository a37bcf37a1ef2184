import SeriesQuery.Error
import SeriesQuery.Text.Blank
import SeriesQuery.Text.Identifier
import SeriesQuery.Token

/-!
From statement text to lexemes.

A text is read as gaps and tokens in turn. A gap is a run of blanks and
complete comments, and it is taken before any operator is looked for, so `--`
never reads as two minus signs; a `/*` that nothing closes is no comment and
reads as two operators. Every token takes as many characters as it can.

The splitting functions return what they took together with what is left; each
comes with the lemma that the two parts make up the text it was given.
-/

namespace SeriesQuery

namespace Lexer

open Text

/-- The bytes that `cs` occupies. -/
def byteLength : List Char → Nat
  | [] => 0
  | c :: cs => c.utf8Size + byteLength cs

/-! ### Gaps -/

/-- The text up to and with the first `*/`, and what follows it. -/
def blockBody? : List Char → Option (List Char × List Char)
  | [] => none
  | '*' :: '/' :: rest => some (['*', '/'], rest)
  | c :: rest => (blockBody? rest).map fun (body, after) => (c :: body, after)

/-- The comment that starts the text: from `--` to the end of the line, or from
`/*` to `*/`. -/
def comment? : List Char → Option (List Char × List Char)
  | '-' :: '-' :: rest =>
      some ('-' :: '-' :: rest.takeWhile (· != '\n'), rest.dropWhile (· != '\n'))
  | '/' :: '*' :: rest =>
      (blockBody? rest).map fun (body, after) => ('/' :: '*' :: body, after)
  | _ => none

theorem append_of_blockBody? {cs body after : List Char}
    (h : blockBody? cs = some (body, after)) : body ++ after = cs := by
  fun_induction blockBody? cs generalizing body after with
  | case1 => simp at h
  | case2 rest =>
    simp only [Option.some.injEq, Prod.mk.injEq] at h
    simp [← h.1, ← h.2]
  | case3 c rest _ ih =>
    obtain ⟨⟨b, a⟩, hb, he⟩ := Option.map_eq_some_iff.mp h
    simp only [Prod.mk.injEq] at he
    obtain ⟨rfl, rfl⟩ := he
    simp [ih hb]

theorem append_of_comment? {cs body after : List Char}
    (h : comment? cs = some (body, after)) : body ++ after = cs := by
  unfold comment? at h
  split at h
  · simp only [Option.some.injEq, Prod.mk.injEq] at h
    obtain ⟨rfl, rfl⟩ := h
    simp [List.takeWhile_append_dropWhile]
  · obtain ⟨⟨b, a⟩, hb, he⟩ := Option.map_eq_some_iff.mp h
    simp only [Prod.mk.injEq] at he
    obtain ⟨rfl, rfl⟩ := he
    simp [append_of_blockBody? hb]
  · simp at h

theorem comment?_ne_nil {cs body after : List Char}
    (h : comment? cs = some (body, after)) : body ≠ [] := by
  unfold comment? at h
  split at h
  · simp only [Option.some.injEq, Prod.mk.injEq] at h
    simp [← h.1]
  · obtain ⟨⟨b, a⟩, -, he⟩ := Option.map_eq_some_iff.mp h
    simp only [Prod.mk.injEq] at he
    simp [← he.1]
  · simp at h

theorem length_lt_of_comment? {cs body after : List Char}
    (h : comment? cs = some (body, after)) : after.length < cs.length := by
  have hne := List.length_pos_iff.mpr (comment?_ne_nil h)
  have := congrArg List.length (append_of_comment? h)
  simp only [List.length_append] at this
  omega

/-- The gap that starts the text, which may be empty, and what follows it. -/
def splitGap (cs : List Char) : List Char × List Char :=
  match cs with
  | [] => ([], [])
  | c :: rest =>
    if isBlank c then
      (c :: (splitGap rest).1, (splitGap rest).2)
    else
      match _h : comment? (c :: rest) with
      | some (body, after) => (body ++ (splitGap after).1, (splitGap after).2)
      | none => ([], c :: rest)
termination_by cs.length
decreasing_by all_goals first | exact Nat.lt_succ_self _ | exact length_lt_of_comment? _h

theorem splitGap_append (cs : List Char) : (splitGap cs).1 ++ (splitGap cs).2 = cs := by
  fun_induction splitGap cs with
  | case1 => rfl
  | case2 c rest _ ih => simp [ih]
  | case3 c rest _ body after h ih => simp [List.append_assoc, ih, append_of_comment? h]
  | case4 => rfl

theorem length_splitGap_le (cs : List Char) : (splitGap cs).2.length ≤ cs.length := by
  have := congrArg List.length (splitGap_append cs)
  simp only [List.length_append] at this
  omega

/-! ### Tokens -/

/-- The word that starts the text. -/
def word? : List Char → Option (List Char × List Char)
  | [] => none
  | c :: rest =>
    if isIdentStart c then
      some (c :: rest.takeWhile isIdentPart, rest.dropWhile isIdentPart)
    else
      none

theorem append_of_word? {cs word after : List Char} (h : word? cs = some (word, after)) :
    word ++ after = cs := by
  cases cs with
  | nil => simp [word?] at h
  | cons c rest =>
    simp only [word?, Option.ite_none_right_eq_some, Option.some.injEq, Prod.mk.injEq] at h
    obtain ⟨-, rfl, rfl⟩ := h
    simp [List.takeWhile_append_dropWhile]

theorem length_le_of_word? {cs word after : List Char} (h : word? cs = some (word, after)) :
    after.length ≤ cs.length := by
  have := congrArg List.length (append_of_word? h)
  simp only [List.length_append] at this
  omega

/-- The `.word` parts that start the text, as many as there are. -/
def splitQualifiers (cs : List Char) : List Char × List Char :=
  match cs with
  | '.' :: rest =>
    match _h : word? rest with
    | some (word, after) =>
        ('.' :: word ++ (splitQualifiers after).1, (splitQualifiers after).2)
    | none => ([], '.' :: rest)
  | cs => ([], cs)
termination_by cs.length
decreasing_by all_goals exact Nat.lt_succ_of_le (length_le_of_word? _h)

theorem splitQualifiers_append (cs : List Char) :
    (splitQualifiers cs).1 ++ (splitQualifiers cs).2 = cs := by
  fun_induction splitQualifiers cs with
  | case1 rest word after h ih => simp [List.append_assoc, ih, append_of_word? h]
  | case2 => rfl
  | case3 => rfl

/-- The fraction of a number, `.` and digits, if the text starts with one. -/
def splitFraction : List Char → List Char × List Char
  | '.' :: d :: rest =>
    if d.isDigit then
      ('.' :: d :: rest.takeWhile Char.isDigit, rest.dropWhile Char.isDigit)
    else
      ([], '.' :: d :: rest)
  | cs => ([], cs)

theorem splitFraction_append (cs : List Char) :
    (splitFraction cs).1 ++ (splitFraction cs).2 = cs := by
  unfold splitFraction
  split
  · split <;> simp [List.takeWhile_append_dropWhile]
  · rfl

/-- The text between two quotes, quotes included, after the first of them. -/
def quoted? (quote : Char) (cs : List Char) : Option (List Char × List Char) :=
  match cs.dropWhile (· != quote) with
  | [] => none
  | q :: after => some (quote :: cs.takeWhile (· != quote) ++ [q], after)

theorem append_of_quoted? {quote : Char} {cs body after : List Char}
    (h : quoted? quote cs = some (body, after)) : body ++ after = quote :: cs := by
  unfold quoted? at h
  split at h
  · simp at h
  · rename_i q rest hd
    simp only [Option.some.injEq, Prod.mk.injEq] at h
    obtain ⟨rfl, rfl⟩ := h
    have := List.takeWhile_append_dropWhile (p := (· != quote)) (l := cs)
    rw [hd] at this
    simp [List.append_assoc, this]

theorem quoted?_ne_nil {quote : Char} {cs body after : List Char}
    (h : quoted? quote cs = some (body, after)) : body ≠ [] := by
  unfold quoted? at h
  split at h
  · simp at h
  · simp only [Option.some.injEq, Prod.mk.injEq] at h
    simp [← h.1]

/-- The operator sign that starts the text; two-character signs come first. -/
def sign? : List Char → Option (String × List Char)
  | '!' :: '=' :: rest => some ("!=", rest)
  | '<' :: '>' :: rest => some ("<>", rest)
  | '<' :: '=' :: rest => some ("<=", rest)
  | '>' :: '=' :: rest => some (">=", rest)
  | '=' :: rest => some ("=", rest)
  | '<' :: rest => some ("<", rest)
  | '>' :: rest => some (">", rest)
  | '+' :: rest => some ("+", rest)
  | '-' :: rest => some ("-", rest)
  | '*' :: rest => some ("*", rest)
  | '/' :: rest => some ("/", rest)
  | '%' :: rest => some ("%", rest)
  | '^' :: rest => some ("^", rest)
  | '~' :: rest => some ("~", rest)
  | _ => none

theorem append_of_sign? {cs after : List Char} {sign : String}
    (h : sign? cs = some (sign, after)) : sign.toList ++ after = cs ∧ sign ≠ "" := by
  unfold sign? at h
  split at h <;> simp_all <;> obtain ⟨rfl, rfl⟩ := h <;> simp

/-- The identifier that starts with `first` and goes on with `cs`. -/
def splitIdent (first : Char) (cs : List Char) : Token × List Char :=
  let tail := splitQualifiers (cs.dropWhile isIdentPart)
  (.ident (String.ofList (first :: cs.takeWhile isIdentPart ++ tail.1)), tail.2)

/-- The number that starts with the digit `first` and goes on with `cs`. -/
def splitNumber (first : Char) (cs : List Char) : Token × List Char :=
  let fraction := splitFraction (cs.dropWhile Char.isDigit)
  let unit := (word? fraction.2).getD ([], fraction.2)
  (.number (String.ofList (first :: cs.takeWhile Char.isDigit ++ fraction.1 ++ unit.1)), unit.2)

/-- The token that starts the text, and what follows it. -/
def token? : List Char → Option (Token × List Char)
  | [] => none
  | c :: rest =>
    if isIdentStart c then some (splitIdent c rest)
    else if c.isDigit then some (splitNumber c rest)
    else match c with
      | '\x27' => (quoted? c rest).map fun (s, after) => (.string (String.ofList s), after)
      | '\x60' => (quoted? c rest).map fun (s, after) => (.queryRef (String.ofList s), after)
      | '(' => some (.leftParen, rest)
      | ')' => some (.rightParen, rest)
      | ',' => some (.comma, rest)
      | ';' => some (.semicolon, rest)
      | _ => (sign? (c :: rest)).map fun (s, after) => (.op s, after)

theorem append_of_token? {cs after : List Char} {token : Token}
    (h : token? cs = some (token, after)) : token.text.toList ++ after = cs := by
  unfold token? at h
  split at h
  · simp at h
  · rename_i c rest
    split at h
    · simp only [splitIdent, Option.some.injEq, Prod.mk.injEq] at h
      obtain ⟨rfl, rfl⟩ := h
      simp [Token.text, List.append_assoc, splitQualifiers_append,
        List.takeWhile_append_dropWhile]
    split at h
    · simp only [splitNumber, Option.some.injEq, Prod.mk.injEq] at h
      obtain ⟨rfl, rfl⟩ := h
      have hunit : ∀ cs, ((word? cs).getD ([], cs)).1 ++ ((word? cs).getD ([], cs)).2 = cs := by
        intro cs
        cases hw : word? cs with
        | none => rfl
        | some w => exact append_of_word? hw
      simp [Token.text, List.append_assoc, hunit, splitFraction_append,
        List.takeWhile_append_dropWhile]
    split at h
    any_goals
      simp only [Option.some.injEq, Prod.mk.injEq] at h
      obtain ⟨rfl, rfl⟩ := h
      rfl
    all_goals
      obtain ⟨⟨s, a⟩, hs, he⟩ := Option.map_eq_some_iff.mp h
      simp only [Prod.mk.injEq] at he
      obtain ⟨rfl, rfl⟩ := he
    · simpa [Token.text] using append_of_quoted? hs
    · simpa [Token.text] using append_of_quoted? hs
    · exact (append_of_sign? hs).1

theorem text_ne_empty_of_token? {cs after : List Char} {token : Token}
    (h : token? cs = some (token, after)) : token.text ≠ "" := by
  unfold token? at h
  split at h
  · simp at h
  · rename_i c rest
    split at h
    · simp only [splitIdent, Option.some.injEq, Prod.mk.injEq] at h
      simp [← h.1, Token.text, ← String.toList_inj]
    split at h
    · simp only [splitNumber, Option.some.injEq, Prod.mk.injEq] at h
      simp [← h.1, Token.text, ← String.toList_inj]
    split at h
    any_goals
      simp only [Option.some.injEq, Prod.mk.injEq] at h
      obtain ⟨rfl, rfl⟩ := h
      simp [Token.text]
    all_goals
      obtain ⟨⟨s, a⟩, hs, he⟩ := Option.map_eq_some_iff.mp h
      simp only [Prod.mk.injEq] at he
      obtain ⟨rfl, rfl⟩ := he
    · simpa [Token.text, ← String.toList_inj] using quoted?_ne_nil hs
    · simpa [Token.text, ← String.toList_inj] using quoted?_ne_nil hs
    · exact (append_of_sign? hs).2

theorem length_lt_of_token? {cs after : List Char} {token : Token}
    (h : token? cs = some (token, after)) : after.length < cs.length := by
  have hpos : 0 < token.text.toList.length := by
    rw [List.length_pos_iff]
    simpa using text_ne_empty_of_token? h
  have := congrArg List.length (append_of_token? h)
  simp only [List.length_append] at this
  omega

/-! ### The whole text -/

/-- Why no token starts at `position`, where the text goes on with `cs`: a quote
that nothing closes is missed at the end of the text, and a `!` without its `=`
faults what stands in the place of the `=`. -/
def fault (position : Nat) : List Char → SqlError
  | '!' :: c :: _ => ⟨position + 1, .unexpectedToken (String.ofList [c])⟩
  | ['!'] => ⟨position + 1, .unexpectedEndOfInput⟩
  | [] => ⟨position, .unexpectedEndOfInput⟩
  | c :: rest =>
    if c = '\x27' ∨ c = '\x60' then ⟨position + byteLength (c :: rest), .unexpectedEndOfInput⟩
    else ⟨position, .unexpectedToken (String.ofList [c])⟩

/-- The lexemes of a text that starts at byte `position`. -/
def lexFrom (position : Nat) (cs : List Char) : Except SqlError (List Lexeme) :=
  let start := position + byteLength (splitGap cs).1
  if (splitGap cs).2 = [] then
    .ok []
  else
    match _h : token? (splitGap cs).2 with
    | none => .error (fault start (splitGap cs).2)
    | some (token, after) =>
      let stop := start + token.text.utf8ByteSize
      match lexFrom stop after with
      | .error e => .error e
      | .ok lexemes => .ok (⟨token, start, stop⟩ :: lexemes)
termination_by cs.length
decreasing_by exact Nat.lt_of_lt_of_le (length_lt_of_token? _h) (length_splitGap_le cs)

end Lexer

/-- The lexemes of a statement text, or the first place where none starts. -/
def lex (source : String) : Except SqlError (List Lexeme) :=
  Lexer.lexFrom 0 source.toList

end SeriesQuery
