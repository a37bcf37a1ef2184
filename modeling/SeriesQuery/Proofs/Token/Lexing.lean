import SeriesQuery.Token.Lexer

/-!
Texts put together from tokens.

A token that has been read from a text is read again wherever its text stands in front of a
space, a parenthesis, a comma or the end (`Token.Lexable`). So a text that puts such tokens
one after the other and keeps them apart is read back as these tokens
(`Lexer.Spells.cons`).
-/

namespace SeriesQuery

open Text

namespace Lexer

/-- The text is empty or starts with a character that ends every token. -/
def Stops (cs : List Char) : Prop :=
  ∀ c ∈ cs.head?, c = ' ' ∨ c = '(' ∨ c = ')' ∨ c = ','

/-- The text does not start with a character that satisfies `p`. -/
def Avoids (p : Char → Bool) (cs : List Char) : Prop :=
  ∀ c ∈ cs.head?, p c = false

theorem Stops.avoids {p : Char → Bool} {cs : List Char} (h : Stops cs)
    (hp : [' ', '(', ')', ','].all (fun c => !p c) = true) : Avoids p cs := by
  intro c hc
  have hall : ∀ c ∈ [' ', '(', ')', ','], p c = false := by simpa using hp
  rcases h c hc with rfl | rfl | rfl | rfl <;> exact hall _ (by simp)

@[simp] theorem stops_nil : Stops [] := by
  simp [Stops]

@[simp] theorem stops_cons {c : Char} {cs : List Char} :
    Stops (c :: cs) ↔ c = ' ' ∨ c = '(' ∨ c = ')' ∨ c = ',' := by
  simp [Stops]

@[simp] theorem avoids_cons {p : Char → Bool} {c : Char} {cs : List Char} :
    Avoids p (c :: cs) ↔ p c = false := by
  simp [Avoids]

/-- Only the first character is looked at. -/
instance (p : Char → Bool) : (cs : List Char) → Decidable (Avoids p cs)
  | [] => isTrue fun _ h => by cases h
  | _ :: _ => decidable_of_iff' _ avoids_cons

/-- What was taken while `p` held is taken again in front of a text that avoids `p`. -/
theorem takeWhile_append_of_avoids {p : Char → Bool} (cs : List Char) {rest : List Char}
    (h : Avoids p rest) : (cs.takeWhile p ++ rest).takeWhile p = cs.takeWhile p := by
  have hrest : rest.takeWhile p = [] := by
    cases rest with
    | nil => rfl
    | cons c rest => simp [avoids_cons.mp h]
  rw [List.takeWhile_append_of_pos fun c hc => List.all_eq_true.mp List.all_takeWhile c hc, hrest,
    List.append_nil]

theorem dropWhile_append_of_avoids {p : Char → Bool} (cs : List Char) {rest : List Char}
    (h : Avoids p rest) : (cs.takeWhile p ++ rest).dropWhile p = rest := by
  rw [List.dropWhile_append_of_pos fun c hc => List.all_eq_true.mp List.all_takeWhile c hc]
  cases rest with
  | nil => rfl
  | cons c rest => simp [avoids_cons.mp h]

theorem avoids_dropWhile (p : Char → Bool) (cs : List Char) : Avoids p (cs.dropWhile p) := by
  intro c hc
  induction cs with
  | nil => cases hc
  | cons d cs ih =>
    cases hd : p d with
    | true => exact ih (by simpa [hd] using hc)
    | false =>
      simp only [List.dropWhile_cons, hd] at hc
      cases hc
      exact hd

/-! ### Tokens in front of another text -/

variable {cs after rest : List Char} {t : Token}

theorem word?_append {word : List Char} (h : word? cs = some (word, after))
    (hrest : Avoids isIdentPart rest) : word? (word ++ rest) = some (word, rest) := by
  cases cs with
  | nil => simp [word?] at h
  | cons c cs =>
    simp only [word?, Option.ite_none_right_eq_some, Option.some.injEq, Prod.mk.injEq] at h
    obtain ⟨hc, rfl, -⟩ := h
    simp [word?, hc, takeWhile_append_of_avoids cs hrest, dropWhile_append_of_avoids cs hrest]

theorem splitQualifiers_of_avoids (h : Avoids (· == '.') cs) : splitQualifiers cs = ([], cs) := by
  cases cs with
  | nil => simp [splitQualifiers]
  | cons c cs =>
    have hc : c ≠ '.' := by simpa using avoids_cons.mp h
    rw [splitQualifiers]
    intro cs' heq
    exact hc (List.cons.inj heq).1

/-- The qualifiers that were read start with a dot, if there are any. -/
theorem avoids_splitQualifiers_append (cs : List Char) (hrest : Avoids isIdentPart rest) :
    Avoids isIdentPart ((splitQualifiers cs).1 ++ rest) := by
  fun_cases splitQualifiers cs with
  | case1 => simp only [List.cons_append, avoids_cons]; decide
  | case2 => simpa using hrest
  | case3 => simpa using hrest

theorem splitQualifiers_append_of_avoids (hpart : Avoids isIdentPart rest)
    (hdot : Avoids (· == '.') rest) :
    splitQualifiers ((splitQualifiers cs).1 ++ rest) = ((splitQualifiers cs).1, rest) := by
  fun_induction splitQualifiers cs with
  | case1 cs word after h ih =>
    have hword := word?_append h (avoids_splitQualifiers_append after hpart)
    rw [List.cons_append, List.cons_append, List.append_assoc, splitQualifiers]
    split
    · rename_i word' after' h'
      rw [hword] at h'
      cases h'
      simp [ih]
    · rename_i h'
      rw [hword] at h'
      cases h'
  | case2 => exact splitQualifiers_of_avoids hdot
  | case3 => exact splitQualifiers_of_avoids hdot

/-! Numbers -/

/-- The unit of a number, if a word follows it. -/
theorem word?_getD_append (hrest : Stops rest) :
    (word? (((word? cs).getD ([], cs)).1 ++ rest)).getD
        ([], ((word? cs).getD ([], cs)).1 ++ rest) = (((word? cs).getD ([], cs)).1, rest) := by
  cases hword : word? cs with
  | some found =>
    have hfound : word? cs = some (found.1, found.2) := hword
    have hagain := word?_append hfound (hrest.avoids (by decide +kernel))
    simp [hagain]
  | none =>
    cases rest with
    | nil => rfl
    | cons c rest =>
      have hc : isIdentStart c = false :=
        avoids_cons.mp (hrest.avoids (p := isIdentStart) (by decide +kernel))
      simp [word?, hc]

/-- A unit does not start with a digit or a dot, for no word does. -/
theorem avoids_unit {p : Char → Bool} (hrest : Avoids p rest)
    (hword : ∀ c, isIdentStart c = true → c ∈ cs.head? → p c = false) :
    Avoids p (((word? cs).getD ([], cs)).1 ++ rest) := by
  cases cs with
  | nil => simpa [word?] using hrest
  | cons c cs =>
    cases hc : isIdentStart c with
    | false => simpa [word?, hc] using hrest
    | true => simpa [word?, hc] using hword c hc rfl

theorem avoids_isDigit_splitFraction (h : Avoids Char.isDigit cs) :
    Avoids Char.isDigit (splitFraction cs).2 := by
  unfold splitFraction
  split
  · split
    · exact avoids_dropWhile _ _
    · exact h
  · exact h

/-- A fraction starts with a dot. -/
theorem avoids_splitFraction_append (hrest : Avoids Char.isDigit rest) :
    Avoids Char.isDigit ((splitFraction cs).1 ++ rest) := by
  fun_cases splitFraction cs with
  | case1 => simp only [List.cons_append, avoids_cons]; decide
  | case2 => simpa using hrest
  | case3 => simpa using hrest

theorem splitFraction_append_of_avoids (hdigit : Avoids Char.isDigit rest)
    (hdot : Avoids (· == '.') rest) :
    splitFraction ((splitFraction cs).1 ++ rest) = ((splitFraction cs).1, rest) := by
  have hnone : splitFraction rest = ([], rest) := by
    unfold splitFraction
    split
    · simp at hdot
    · rfl
  fun_cases splitFraction cs with
  | case1 d cs hd =>
    simp [splitFraction, hd, takeWhile_append_of_avoids cs hdigit,
      dropWhile_append_of_avoids cs hdigit]
  | case2 => exact hnone
  | case3 => exact hnone

theorem splitNumber_append (first : Char) (cs : List Char) (hrest : Stops rest) :
    ∃ body, (splitNumber first cs).1.text.toList = first :: body ∧
      splitNumber first (body ++ rest) = ((splitNumber first cs).1, rest) := by
  -- the fraction is read from `fraction`, and the unit from what it leaves
  generalize hfraction : splitFraction (cs.dropWhile Char.isDigit) = fraction
  generalize hunit : (word? fraction.2).getD ([], fraction.2) = unit
  have hdigit : Avoids Char.isDigit (unit.1 ++ rest) := by
    have hleft : Avoids Char.isDigit fraction.2 :=
      hfraction ▸ avoids_isDigit_splitFraction (avoids_dropWhile _ _)
    exact hunit ▸ avoids_unit (hrest.avoids (by decide)) fun c _ hc => hleft c hc
  have hdot : Avoids (· == '.') (unit.1 ++ rest) := by
    refine hunit ▸ avoids_unit (hrest.avoids (by decide)) fun c hc _ => ?_
    simp only [beq_eq_false_iff_ne]
    rintro rfl
    exact absurd hc (by decide +kernel)
  have hdigits : Avoids Char.isDigit (fraction.1 ++ (unit.1 ++ rest)) :=
    hfraction ▸ avoids_splitFraction_append hdigit
  refine ⟨cs.takeWhile Char.isDigit ++ fraction.1 ++ unit.1, ?_, ?_⟩
  · simp [splitNumber, hfraction, hunit, Token.text]
  · have hfraction' : splitFraction (fraction.1 ++ (unit.1 ++ rest)) =
        (fraction.1, unit.1 ++ rest) :=
      hfraction ▸ splitFraction_append_of_avoids hdigit hdot
    have hunit' : (word? (unit.1 ++ rest)).getD ([], unit.1 ++ rest) = (unit.1, rest) :=
      hunit ▸ word?_getD_append hrest
    simp only [splitNumber, List.append_assoc, takeWhile_append_of_avoids cs hdigits,
      dropWhile_append_of_avoids cs hdigits, hfraction', hunit', hfraction, hunit]

theorem splitIdent_append (first : Char) (cs : List Char) (hrest : Stops rest) :
    ∃ body, (splitIdent first cs).1.text.toList = first :: body ∧
      splitIdent first (body ++ rest) = ((splitIdent first cs).1, rest) := by
  have hpart : Avoids isIdentPart rest := hrest.avoids (by decide +kernel)
  generalize hqualifiers : splitQualifiers (cs.dropWhile isIdentPart) = qualifiers
  have hwhole : splitQualifiers (qualifiers.1 ++ rest) = (qualifiers.1, rest) :=
    hqualifiers ▸ splitQualifiers_append_of_avoids hpart (hrest.avoids (by decide))
  have havoids : Avoids isIdentPart (qualifiers.1 ++ rest) :=
    hqualifiers ▸ avoids_splitQualifiers_append _ hpart
  refine ⟨cs.takeWhile isIdentPart ++ qualifiers.1, ?_, ?_⟩
  · simp [splitIdent, hqualifiers, Token.text]
  · simp only [splitIdent, List.append_assoc, takeWhile_append_of_avoids cs havoids,
      dropWhile_append_of_avoids cs havoids, hwhole, hqualifiers]

/-! Quoted texts and signs -/

theorem quoted?_append {quote : Char} {body : List Char}
    (h : quoted? quote cs = some (body, after)) (rest : List Char) :
    ∃ tail, body = quote :: tail ∧ quoted? quote (tail ++ rest) = some (body, rest) := by
  unfold quoted? at h
  split at h
  · cases h
  · rename_i q after' hdrop
    cases h
    have havoids : Avoids (· != quote) (q :: rest) := by
      have hleft := avoids_dropWhile (· != quote) cs
      rw [hdrop] at hleft
      exact avoids_cons.mpr ((avoids_cons (p := (· != quote))).mp hleft)
    refine ⟨cs.takeWhile (· != quote) ++ [q], by simp, ?_⟩
    simp [quoted?, takeWhile_append_of_avoids cs havoids, dropWhile_append_of_avoids cs havoids]

/-- No sign goes on with a character that ends every token. -/
theorem sign?_append {sign : String} (h : sign? cs = some (sign, after)) (hrest : Stops rest) :
    sign? (sign.toList ++ rest) = some (sign, rest) := by
  have hnext : ∀ c cs', rest = c :: cs' → c ≠ '=' ∧ c ≠ '>' := by
    rintro c cs' rfl
    rcases stops_cons.mp hrest with rfl | rfl | rfl | rfl <;> decide
  unfold sign? at h
  split at h
  all_goals cases h
  all_goals
    cases rest with
    | nil => rfl
    | cons c cs =>
      obtain ⟨heq, hgt⟩ := hnext c cs rfl
      simp [sign?, heq, hgt]

/-- A token that was read from a text is read again in front of a text that ends it. -/
theorem token?_append (h : token? cs = some (t, after)) (hrest : Stops rest) :
    token? (t.text.toList ++ rest) = some (t, rest) := by
  unfold token? at h
  split at h
  · cases h
  · rename_i c cs
    split at h
    · rename_i hident
      obtain ⟨body, hbody, hread⟩ := splitIdent_append c cs hrest
      obtain rfl : (splitIdent c cs).1 = t := by simpa using congrArg (·.map Prod.fst) h
      rw [hbody]
      simp [token?, hident, hread]
    split at h
    · rename_i hident hdigit
      obtain ⟨body, hbody, hread⟩ := splitNumber_append c cs hrest
      obtain rfl : (splitNumber c cs).1 = t := by simpa using congrArg (·.map Prod.fst) h
      rw [hbody]
      simp [token?, hident, hdigit, hread]
    rename_i hident hdigit
    split at h
    · obtain ⟨⟨s, a⟩, hs, he⟩ := Option.map_eq_some_iff.mp h
      cases he
      obtain ⟨tail, htail, hread⟩ := quoted?_append hs rest
      rw [htail] at hread
      simp [Token.text, htail, token?, hident, hdigit, hread]
    · obtain ⟨⟨s, a⟩, hs, he⟩ := Option.map_eq_some_iff.mp h
      cases he
      obtain ⟨tail, htail, hread⟩ := quoted?_append hs rest
      rw [htail] at hread
      simp [Token.text, htail, token?, hident, hdigit, hread]
    iterate 4
      cases h
      simp [Token.text, token?, hident, hdigit]
    · obtain ⟨⟨s, a⟩, hs, he⟩ := Option.map_eq_some_iff.mp h
      cases he
      obtain ⟨tail, htail⟩ : ∃ tail, s.toList = c :: tail := by
        obtain ⟨happend, hne⟩ := append_of_sign? hs
        cases hs' : s.toList with
        | nil => exact absurd (String.toList_eq_nil_iff.mp hs') hne
        | cons d tail =>
          rw [hs'] at happend
          exact ⟨tail, by rw [(List.cons.inj happend).1]⟩
      have hread := sign?_append hs hrest
      rw [htail] at hread
      simp_all [Token.text, token?]

/-! ### Gaps in front of tokens -/

theorem splitGap_nil : splitGap [] = ([], []) := by
  rw [splitGap.eq_def]

theorem splitGap_blank {c : Char} (h : isBlank c = true) (cs : List Char) :
    splitGap (c :: cs) = (c :: (splitGap cs).1, (splitGap cs).2) := by
  rw [splitGap.eq_def]
  simp [h]

theorem splitGap_of_solid (hblank : Avoids isBlank cs) (hcomment : comment? cs = none) :
    splitGap cs = ([], cs) := by
  cases cs with
  | nil => exact splitGap_nil
  | cons c cs =>
    rw [splitGap.eq_def]
    simp only [avoids_cons.mp hblank, Bool.false_eq_true, if_false]
    split
    · rename_i h
      rw [hcomment] at h
      cases h
    · rfl

/-- A gap takes every blank there is. -/
theorem avoids_isBlank_splitGap (cs : List Char) : Avoids isBlank (splitGap cs).2 := by
  fun_induction splitGap cs with
  | case1 => simp [Avoids]
  | case2 c rest _ ih => exact ih
  | case3 c rest _ body after _ ih => exact ih
  | case4 c rest hblank _ => simpa using hblank

@[simp] theorem token?_minus (cs : List Char) : token? ('-' :: cs) = some (.op "-", cs) := by
  have hstart : isIdentStart '-' = false := by decide
  simp [token?, hstart, sign?]

@[simp] theorem token?_slash (cs : List Char) : token? ('/' :: cs) = some (.op "/", cs) := by
  have hstart : isIdentStart '/' = false := by decide
  simp [token?, hstart, sign?]

/-- After the first of the two signs that start a comment comes no character that ends every
token. -/
theorem comment?_eq_none (h : token? cs = some (t, rest)) (hrest : Stops rest) :
    comment? cs = none := by
  unfold comment?
  split
  · rw [token?_minus] at h
    cases h
    simp at hrest
  · rw [token?_slash] at h
    cases h
    simp at hrest
  · rfl

end Lexer

/-- A token that is read from its own text. -/
structure Token.Lexable (t : Token) : Prop where
  token? : Lexer.token? t.text.toList = some (t, [])
  solid : Lexer.Avoids isBlank t.text.toList

instance (t : Token) : Decidable t.Lexable :=
  decidable_of_iff (Lexer.token? t.text.toList = some (t, []) ∧ Lexer.Avoids isBlank t.text.toList)
    ⟨fun h => ⟨h.1, h.2⟩, fun h => ⟨h.1, h.2⟩⟩

namespace Lexer

variable {cs after rest : List Char} {t : Token} {ts : List Token}

theorem lexable_of_token? (h : token? cs = some (t, after)) (hcs : Avoids isBlank cs) :
    t.Lexable where
  token? := by simpa using token?_append h stops_nil
  solid := by
    intro c hc
    refine hcs c ?_
    rw [← append_of_token? h, List.head?_append, Option.mem_def.mp hc, Option.some_or]
    rfl

theorem lexable_of_mem_lexFrom {position : Nat} {lexemes : List Lexeme}
    (h : lexFrom position cs = .ok lexemes) {l : Lexeme} (hl : l ∈ lexemes) :
    l.token.Lexable := by
  fun_induction lexFrom position cs generalizing lexemes with
  | case1 =>
    cases h
    cases hl
  | case2 => cases h
  | case3 => cases h
  | case4 position cs start hne token after htoken stop rest hrest =>
    rename_i ih
    cases h
    rcases List.mem_cons.mp hl with rfl | hl
    · exact lexable_of_token? htoken (avoids_isBlank_splitGap cs)
    · exact ih hrest hl

/-! ### Texts read as tokens -/

/-- The text is read as the tokens, wherever it starts. -/
def Spells (cs : List Char) (ts : List Token) : Prop :=
  ∀ position, ∃ lexemes, lexFrom position cs = .ok lexemes ∧ lexemes.map Lexeme.token = ts

/-- The lexemes of a text are those after its gap. -/
theorem lexFrom_eq (position : Nat) (cs : List Char) :
    lexFrom position cs =
      if (splitGap cs).2 = [] then .ok []
      else
        match token? (splitGap cs).2 with
        | none => .error (fault (position + byteLength (splitGap cs).1) (splitGap cs).2)
        | some (t, after) =>
          let start := position + byteLength (splitGap cs).1
          (lexFrom (start + t.text.utf8ByteSize) after).map
            (⟨t, start, start + t.text.utf8ByteSize⟩ :: ·) := by
  rw [lexFrom]
  by_cases hnil : (splitGap cs).2 = []
  · simp [hnil]
  · simp only [hnil, if_false]
    split
    · rename_i h
      simp only [h]
    · rename_i t after h
      simp only [h]
      cases lexFrom (position + byteLength (splitGap cs).1 + t.text.utf8ByteSize) after <;> rfl

/-- One token and what is read after it. -/
theorem lexFrom_of_token? {position : Nat} (hgap : splitGap cs = ([], cs))
    (ht : token? cs = some (t, after)) :
    lexFrom position cs = (lexFrom (position + t.text.utf8ByteSize) after).map
      (⟨t, position, position + t.text.utf8ByteSize⟩ :: ·) := by
  have hne : cs ≠ [] := by
    rintro rfl
    cases ht
  simp [lexFrom_eq position cs, hgap, hne, ht, byteLength]

/-- A space in front of a text moves its tokens by one byte. -/
theorem lexFrom_space (position : Nat) (cs : List Char) :
    lexFrom position (' ' :: cs) = lexFrom (position + 1) cs := by
  have hgap := splitGap_blank (by decide : isBlank ' ' = true) cs
  have hstart : position + byteLength (' ' :: (splitGap cs).1) =
      position + 1 + byteLength (splitGap cs).1 := by
    rw [byteLength, Nat.add_assoc]
    rfl
  rw [lexFrom_eq position, lexFrom_eq (position + 1), hgap]
  simp only [hstart]

namespace Spells

theorem nil : Spells [] [] :=
  fun position => ⟨[], by rw [lexFrom]; simp [splitGap_nil], rfl⟩

theorem cons (h : Spells rest ts) (hgap : splitGap cs = ([], cs))
    (ht : token? cs = some (t, rest)) : Spells cs (t :: ts) := by
  intro position
  obtain ⟨lexemes, hlex, hmap⟩ := h (position + t.text.utf8ByteSize)
  exact ⟨_, by rw [lexFrom_of_token? hgap ht, hlex]; rfl, by rw [List.map_cons, hmap]⟩

theorem space (h : Spells cs ts) : Spells (' ' :: cs) ts := by
  intro position
  rw [lexFrom_space]
  exact h (position + 1)

/-- A token in front of a text that ends it. -/
theorem token (h : Spells cs ts) (ht : t.Lexable) (hcs : Stops cs) :
    Spells (t.text.toList ++ cs) (t :: ts) := by
  have hread : token? (t.text.toList ++ cs) = some (t, cs) := token?_append ht.token? hcs
  refine h.cons (splitGap_of_solid ?_ (comment?_eq_none hread hcs)) hread
  cases htext : t.text.toList with
  | nil => simpa [htext, Lexer.token?] using ht.token?
  | cons c tail => exact avoids_cons.mpr (ht.solid c (by simp [htext]))

/-- A minus sign in front of a text that does not make it a comment. -/
theorem minus (h : Spells cs ts) (hcs : Avoids (· == '-') cs) :
    Spells ('-' :: cs) (.op "-" :: ts) := by
  refine h.cons (splitGap_of_solid (avoids_cons.mpr (by decide)) ?_) (token?_minus cs)
  unfold comment?
  split
  · rename_i heq
    obtain rfl := (List.cons.inj heq).2
    simp at hcs
  · rename_i heq
    exact absurd (List.cons.inj heq).1 (by decide)
  · rfl

/-- A parenthesis or a comma is read in front of every text. -/
theorem leftParen (h : Spells cs ts) : Spells ('(' :: cs) (.leftParen :: ts) :=
  h.cons (splitGap_of_solid (avoids_cons.mpr (by decide)) (by simp [comment?]))
    (by simp [Lexer.token?, show isIdentStart '(' = false by decide])

theorem rightParen (h : Spells cs ts) : Spells (')' :: cs) (.rightParen :: ts) :=
  h.cons (splitGap_of_solid (avoids_cons.mpr (by decide)) (by simp [comment?]))
    (by simp [Lexer.token?, show isIdentStart ')' = false by decide])

theorem comma (h : Spells cs ts) : Spells (',' :: cs) (.comma :: ts) :=
  h.cons (splitGap_of_solid (avoids_cons.mpr (by decide)) (by simp [comment?]))
    (by simp [Lexer.token?, show isIdentStart ',' = false by decide])

end Spells

end Lexer

/-- The lexemes of a text are read from their own texts. -/
theorem lexable_of_mem_lex {source : String} {lexemes : List Lexeme}
    (h : lex source = .ok lexemes) {l : Lexeme} (hl : l ∈ lexemes) : l.token.Lexable :=
  Lexer.lexable_of_mem_lexFrom h hl

/-- The words of the grammar that canonical texts are written with. -/
def keywords : List String :=
  ["in", "not", "where", "create", "table", "index", "block", "size", "timestamp", "partition", "by",
    "record", "hint"]

theorem lexable_keyword (w : String) (h : w ∈ keywords) : (Token.ident w).Lexable := by
  have hall : ∀ w ∈ keywords, (Token.ident w).Lexable := by decide +kernel
  exact hall w h

end SeriesQuery
