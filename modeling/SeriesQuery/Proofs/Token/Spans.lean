import SeriesQuery.Proofs.Token.Lexing

/-!
Where the tokens of a text lie, and what lies between them.

A text is a gap and a token in turn, and a gap at its end (`Lexer.Laid`): a gap holds blanks and
complete comments only, where the comment of a line goes on to the end of the line
(`Lexer.Gap`), or of the text (`Lexer.LastGap`). So the spans of the tokens are in order, each
covers the text of its token, and what they leave out is gaps (`lex_lossless`). Nothing hangs on
the gaps: with a space between any two of them the same tokens are read again.
-/

namespace SeriesQuery

open Text

namespace Lexer

theorem byteLength_append (cs ds : List Char) :
    byteLength (cs ++ ds) = byteLength cs + byteLength ds := by
  induction cs with
  | nil => simp [byteLength]
  | cons c cs ih => simp only [List.cons_append, byteLength, ih, Nat.add_assoc]

theorem byteLength_toList (s : String) : byteLength s.toList = s.utf8ByteSize := by
  suffices h : ∀ cs, byteLength cs = (String.ofList cs).utf8ByteSize by simpa using h s.toList
  intro cs
  induction cs with
  | nil => rfl
  | cons c cs ih => simp [byteLength, ih, String.ofList_cons]

/-! ### Gaps -/

/-- Blanks and complete comments, after which a token may start: the comment of a line has the end
of its line behind it, and one between `/*` and `*/` ends with the first `*/`. -/
inductive Gap : List Char → Prop where
  | nil : Gap []
  | blank {c : Char} {cs : List Char} (hc : isBlank c = true) (h : Gap cs) : Gap (c :: cs)
  | line {body cs : List Char} (hbody : '\n' ∉ body) (h : Gap ('\n' :: cs)) :
      Gap ('-' :: '-' :: body ++ '\n' :: cs)
  | block {body cs : List Char} (hbody : ¬ ['*', '/'] <:+: body) (h : Gap cs) :
      Gap ('/' :: '*' :: body ++ '*' :: '/' :: cs)

/-- The gap at the end of a text, where the comment of a line may be left without a line end. -/
inductive LastGap : List Char → Prop where
  | gap {cs : List Char} (h : Gap cs) : LastGap cs
  | line {cs body : List Char} (h : Gap cs) (hbody : '\n' ∉ body) :
      LastGap (cs ++ '-' :: '-' :: body)

theorem not_mem_takeWhile_ne (c : Char) (cs : List Char) : c ∉ cs.takeWhile (· != c) := by
  intro h
  have hne := List.all_eq_true.mp (List.all_takeWhile (l := cs)) c h
  simp at hne

/-- The comment between `/*` and `*/` ends with the first `*/`. -/
theorem blockBody?_eq_some {cs body after : List Char} (h : blockBody? cs = some (body, after)) :
    ∃ inner, body = inner ++ ['*', '/'] ∧ ¬ ['*', '/'] <:+: inner := by
  fun_induction blockBody? cs generalizing body after with
  | case1 => cases h
  | case2 rest =>
    cases h
    exact ⟨[], rfl, by simp⟩
  | case3 c rest hne ih =>
    obtain ⟨⟨b, a⟩, hb, he⟩ := Option.map_eq_some_iff.mp h
    cases he
    obtain ⟨inner, rfl, hinner⟩ := ih hb
    refine ⟨c :: inner, rfl, fun hinfix => ?_⟩
    rcases List.infix_cons_iff.mp hinfix with ⟨tail, hprefix⟩ | hinfix
    · obtain ⟨hc, htail⟩ := List.cons.inj hprefix
      have hrest : rest = '/' :: tail ++ (['*', '/'] ++ after) := by
        rw [← append_of_blockBody? hb, ← htail]
        simp
      exact hne _ hc.symm hrest
    · exact hinner hinfix

/-- The comment of a line, in front of its line end or at the end of the text, or one between `/*`
and `*/`. -/
theorem of_comment? {cs body after : List Char} (h : comment? cs = some (body, after)) :
    (∃ line, body = '-' :: '-' :: line ∧ '\n' ∉ line ∧ (after = [] ∨ ∃ tail, after = '\n' :: tail)) ∨
      ∃ inner, body = '/' :: '*' :: inner ++ ['*', '/'] ∧ ¬ ['*', '/'] <:+: inner := by
  unfold comment? at h
  split at h
  · rename_i line
    cases h
    refine .inl ⟨_, rfl, not_mem_takeWhile_ne '\n' line, ?_⟩
    cases hafter : line.dropWhile (· != '\n') with
    | nil => exact .inl rfl
    | cons d tail =>
      have havoids := avoids_dropWhile (· != '\n') line
      rw [hafter, avoids_cons] at havoids
      exact .inr ⟨tail, by simpa using havoids⟩
  · obtain ⟨⟨b, a⟩, hb, he⟩ := Option.map_eq_some_iff.mp h
    cases he
    obtain ⟨inner, rfl, hinner⟩ := blockBody?_eq_some hb
    exact .inr ⟨inner, rfl, hinner⟩
  · cases h

/-- What makes gaps of gaps makes a last gap of a last gap. -/
theorem LastGap.prepend {piece cs : List Char} (h : LastGap cs)
    (hpiece : ∀ gap rest, Gap gap → cs = gap ++ rest → rest.head? ≠ some '\n' → Gap (piece ++ gap)) :
    LastGap (piece ++ cs) := by
  cases h with
  | gap h => exact .gap (hpiece cs [] h (by simp) (by simp))
  | @line gap body h hbody =>
    rw [← List.append_assoc]
    exact .line (hpiece gap _ h rfl (by simp)) hbody

/-- A gap that is taken from the start of a text is a gap, and the last one if nothing follows. -/
theorem gap_splitGap (cs : List Char) :
    ((splitGap cs).2 ≠ [] → Gap (splitGap cs).1) ∧ ((splitGap cs).2 = [] → LastGap (splitGap cs).1) := by
  fun_induction splitGap cs with
  | case1 => exact ⟨fun _ => .nil, fun _ => .gap .nil⟩
  | case2 c rest hc ih =>
    have hblank : (splitGap rest).2 = [] → LastGap ([c] ++ (splitGap rest).1) :=
      fun hnil => (ih.2 hnil).prepend fun _ _ hgap _ _ => .blank hc hgap
    exact ⟨fun hne => .blank hc (ih.1 hne), hblank⟩
  | case3 c rest hc body after h ih =>
    rcases of_comment? h with ⟨line, rfl, hline, rfl | ⟨tail, rfl⟩⟩ | ⟨inner, rfl, hinner⟩
    · simpa [splitGap_nil] using LastGap.line Gap.nil hline
    · rw [splitGap_blank (by decide : isBlank '\n' = true)] at ih ⊢
      refine ⟨fun hne => .line hline (ih.1 hne), fun hnil => (ih.2 hnil).prepend ?_⟩
      intro gap rest hgap heq hrest
      cases gap with
      | nil =>
        rw [← List.nil_append rest, ← heq] at hrest
        exact absurd rfl hrest
      | cons d gap =>
        obtain rfl := (List.cons.inj heq).1
        exact .line hline hgap
    · have hblock : ∀ gap, Gap gap → Gap ('/' :: '*' :: inner ++ ['*', '/'] ++ gap) := by
        intro gap hgap
        simpa using Gap.block hinner hgap
      exact ⟨fun hne => hblock _ (ih.1 hne),
        fun hnil => (ih.2 hnil).prepend fun gap _ hgap _ _ => hblock gap hgap⟩
  | case4 c rest hc hcomment =>
    exact ⟨fun _ => .nil, fun hnil => absurd hnil (List.cons_ne_nil c rest)⟩

/-! ### Texts laid out -/

/-- After `before` the text goes on with gaps and the lexemes in turn. -/
inductive Laid : List Char → List Char → List Lexeme → Prop where
  | last {before cs : List Char} (h : LastGap cs) : Laid before cs []
  | token {before gap rest : List Char} {t : Token} {ls : List Lexeme} (hgap : Gap gap)
      (ht : t.text ≠ "") (h : Laid (before ++ gap ++ t.text.toList) rest ls) :
      Laid before (gap ++ t.text.toList ++ rest)
        (⟨t, byteLength (before ++ gap), byteLength (before ++ gap ++ t.text.toList)⟩ :: ls)

/-- What is read from a text is laid out in it. -/
theorem laid_of_lexFrom {before cs : List Char} {ls : List Lexeme}
    (h : lexFrom (byteLength before) cs = .ok ls) : Laid before cs ls := by
  generalize hposition : byteLength before = position at h
  fun_induction lexFrom position cs generalizing before ls with
  | case1 position cs hnil =>
    cases h
    have hcs := splitGap_append cs
    rw [hnil, List.append_nil] at hcs
    exact .last (hcs ▸ (gap_splitGap cs).2 hnil)
  | case2 => cases h
  | case3 => cases h
  | case4 position cs start hne t after htoken stop others =>
    rename_i hothers ih
    cases h
    have hcs : cs = (splitGap cs).1 ++ t.text.toList ++ after := by
      rw [List.append_assoc, append_of_token? htoken, splitGap_append]
    have hstart : start = byteLength (before ++ (splitGap cs).1) := by
      rw [byteLength_append, hposition]
    have hstop : stop = byteLength (before ++ (splitGap cs).1 ++ t.text.toList) := by
      rw [byteLength_append, ← hstart, byteLength_toList]
    have hlaid := Laid.token ((gap_splitGap cs).1 hne) (text_ne_empty_of_token? htoken)
      (ih hstop.symm hothers)
    rwa [← hcs, ← hstart, ← hstop] at hlaid

theorem laid_of_lex {source : String} {lexemes : List Lexeme} (h : lex source = .ok lexemes) :
    Laid [] source.toList lexemes :=
  laid_of_lexFrom h

/-! ### Pieces of a text -/

/-- From byte `start` up to byte `stop` of `source` stands `text`. -/
def Covers (source : String) (start stop : Nat) (text : String) : Prop :=
  ∃ before after : String, source = before ++ text ++ after ∧
    before.utf8ByteSize = start ∧ (before ++ text).utf8ByteSize = stop

theorem covers_of_append {source : String} {before cs after : List Char}
    (h : source.toList = before ++ cs ++ after) :
    Covers source (byteLength before) (byteLength (before ++ cs)) (String.ofList cs) := by
  refine ⟨String.ofList before, String.ofList after, ?_, ?_, ?_⟩
  · rw [← String.toList_inj]
    simpa using h
  · rw [← byteLength_toList, String.toList_ofList]
  · rw [← byteLength_toList]
    simp

variable {source : String} {before cs : List Char} {ls : List Lexeme}

namespace Laid

/-- Each lexeme stands where its span says, behind what is before it. -/
theorem covers (h : Laid before cs ls) (hsource : source.toList = before ++ cs) :
    ∀ l ∈ ls, byteLength before ≤ l.start ∧ l.start < l.stop ∧
      Covers source l.start l.stop l.text := by
  induction h with
  | last => simp
  | @token before gap rest t ls hgap ht h ih =>
    have hrest : source.toList = before ++ gap ++ t.text.toList ++ rest := by simpa using hsource
    have hpos : 0 < byteLength t.text.toList := by
      rw [byteLength_toList, Nat.pos_iff_ne_zero]
      simpa [String.utf8ByteSize_eq_zero_iff] using ht
    refine List.forall_mem_cons.mpr ⟨⟨?_, ?_, ?_⟩, fun l hl => ?_⟩
    · simp [byteLength_append]
    · simpa [byteLength_append] using hpos
    · simpa [Lexeme.text] using covers_of_append hrest
    · obtain ⟨hstart, hl⟩ := ih hrest l hl
      simp only [byteLength_append] at hstart
      exact ⟨by omega, hl⟩

/-- The lexemes come one after the other. -/
theorem ordered (h : Laid before cs ls) (hsource : source.toList = before ++ cs) :
    ls.Pairwise fun a b => a.stop ≤ b.start := by
  induction h with
  | last => exact .nil
  | @token before gap rest t ls hgap ht h ih =>
    have hrest : source.toList = before ++ gap ++ t.text.toList ++ rest := by simpa using hsource
    exact .cons (fun l hl => (h.covers hrest l hl).1) (ih hrest)

/-- A gap stands in front of every lexeme, from the end of the one before it. -/
theorem gaps (h : Laid before cs ls) (hsource : source.toList = before ++ cs) :
    ∀ b ∈ (byteLength before :: ls.map Lexeme.stop).zip (ls.map Lexeme.start),
      ∃ gap, Covers source b.1 b.2 (String.ofList gap) ∧ Gap gap := by
  induction h with
  | last => simp
  | @token before gap rest t ls hgap ht h ih =>
    have hrest : source.toList = before ++ gap ++ (t.text.toList ++ rest) := by simpa using hsource
    simp only [List.map_cons, List.zip_cons_cons]
    exact List.forall_mem_cons.mpr
      ⟨⟨gap, covers_of_append hrest, hgap⟩, ih (by simpa using hsource)⟩

/-- A last gap follows the last lexeme. -/
theorem lastGap (h : Laid before cs ls) (hsource : source.toList = before ++ cs) :
    ∃ gap, Covers source ((ls.map Lexeme.stop).getLastD (byteLength before)) source.utf8ByteSize
      (String.ofList gap) ∧ LastGap gap := by
  induction h with
  | @last before cs h =>
    refine ⟨cs, ?_, h⟩
    have happend : source.toList = before ++ cs ++ [] := by simpa using hsource
    have hcovers := covers_of_append happend
    rwa [← hsource, byteLength_toList] at hcovers
  | @token before gap rest t ls hgap ht h ih =>
    rw [List.map_cons, List.getLastD_cons]
    exact ih (by simpa using hsource)

end Laid

/-! ### Respacing -/

/-- The texts of tokens spell those tokens if a space stands between any two of them. -/
theorem spells_intercalate {ts : List Token} (h : ∀ t ∈ ts, t.Lexable) :
    Spells (" ".intercalate (ts.map Token.text)).toList ts := by
  induction ts with
  | nil => exact Spells.nil
  | cons t ts ih =>
    obtain ⟨ht, hts⟩ := List.forall_mem_cons.mp h
    cases ts with
    | nil => simpa using Spells.nil.token ht stops_nil
    | cons u us =>
      rw [List.map_cons, List.map_cons, String.intercalate_cons_cons]
      simpa using (ih hts).space.token ht (by simp)

/-! ### Nothing lost -/

/-- The lexemes keep everything of `source` but its gaps. -/
structure Lossless (source : String) (lexemes : List Lexeme) : Prop where
  /-- No span is empty, and the text of its token is what it covers. -/
  covers : ∀ l ∈ lexemes, l.start < l.stop ∧ Covers source l.start l.stop l.text
  /-- The spans are in order and have nothing in common. -/
  ordered : lexemes.Pairwise fun a b => a.stop ≤ b.start
  /-- A gap stands in front of every token, from the start of the text or from the token before. -/
  gaps : ∀ b ∈ (0 :: lexemes.map Lexeme.stop).zip (lexemes.map Lexeme.start),
    ∃ gap, Covers source b.1 b.2 (String.ofList gap) ∧ Gap gap
  /-- Behind the last token the text ends with a gap. -/
  lastGap : ∃ gap, Covers source ((lexemes.map Lexeme.stop).getLastD 0) source.utf8ByteSize
    (String.ofList gap) ∧ LastGap gap
  /-- With one space between any two of them, the same tokens are read again. -/
  respaced : ∃ again, lex (" ".intercalate (lexemes.map Lexeme.text)) = .ok again ∧
    again.map Lexeme.token = lexemes.map Lexeme.token

/-- **Nothing of a text is lost** when its tokens are read: they stand in it one after the other,
only gaps are between them, and their texts are enough to read them again. -/
theorem lex_lossless {lexemes : List Lexeme} (h : lex source = .ok lexemes) :
    Lossless source lexemes where
  covers l hl := ((laid_of_lex h).covers rfl l hl).2
  ordered := (laid_of_lex h).ordered rfl
  gaps := (laid_of_lex h).gaps rfl
  lastGap := (laid_of_lex h).lastGap rfl
  respaced := by
    have hlexable : ∀ t ∈ lexemes.map Lexeme.token, t.Lexable :=
      List.forall_mem_map.mpr fun l hl => lexable_of_mem_lex h hl
    obtain ⟨again, hagain, htokens⟩ := spells_intercalate hlexable 0
    refine ⟨again, ?_, htokens⟩
    rw [List.map_map] at hagain
    exact hagain

/-- The lexemes of a text with a comment of each kind, where the `/*` that nothing closes is read
as a slash and a star. -/
def commentedLexemes : List Lexeme :=
  [⟨.ident "a", 0, 1⟩, ⟨.op "-", 5, 6⟩, ⟨.number "1.5m", 10, 14⟩, ⟨.op "/", 14, 15⟩,
    ⟨.op "*", 15, 16⟩, ⟨.string "'x y'", 16, 21⟩]

theorem lex_lossless_comments :
    lex "a--b\n-/**/1.5m/*'x y'--" = .ok commentedLexemes ∧
      Lossless "a--b\n-/**/1.5m/*'x y'--" commentedLexemes := by
  have hread : (lex "a--b\n-/**/1.5m/*'x y'--").toOption = some commentedLexemes := by
    decide +kernel
  have hlex : lex "a--b\n-/**/1.5m/*'x y'--" = .ok commentedLexemes := by
    cases hlex : lex "a--b\n-/**/1.5m/*'x y'--" with
    | error e => simp [hlex, Except.toOption] at hread
    | ok lexemes => simpa [hlex, Except.toOption] using hread
  exact ⟨hlex, lex_lossless hlex⟩

end Lexer

end SeriesQuery
