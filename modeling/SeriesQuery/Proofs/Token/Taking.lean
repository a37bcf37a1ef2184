import Mathlib.Data.List.Forall2
import SeriesQuery.Proofs.Token.Lexing
import SeriesQuery.Token.Cursor

/-!
Readers in front of known tokens.

`Parser.Takes p ts rest n R` says that `p`, in front of the tokens `ts` and then `rest`, takes
`ts` and answers a value that satisfies `R`, if `n` more nesting levels are allowed. There is a
rule for each way to put readers together, so what a reader takes is put together from what its
parts take.
-/

namespace SeriesQuery

/-- The tokens still to come. -/
def Cursor.tokens (c : Cursor) : List Token :=
  c.after.map Lexeme.token

theorem Cursor.length_tokens (c : Cursor) : c.tokens.length = c.after.length :=
  List.length_map _

/-- The next lexeme of a cursor in front of known tokens. -/
theorem Cursor.tokens_eq_cons {c : Cursor} {t : Token} {ts : List Token} (h : c.tokens = t :: ts) :
    ∃ l, l.token = t ∧ c.after.head? = some l ∧ c.advance.tokens = ts ∧
      c.advance.depth = c.depth := by
  obtain ⟨before, after, endPosition, depth⟩ := c
  cases after with
  | nil => cases h
  | cons l after =>
    obtain ⟨ht, hts⟩ := List.cons.inj h
    exact ⟨l, ht, rfl, hts, rfl⟩

namespace Parser

variable {α β : Type}

/-- In front of `ts` and then `rest` the reader takes `ts` and answers a value that satisfies
`R`, if `n` more nesting levels are allowed; the nesting stays as it is. -/
def Takes (p : Parser α) (ts rest : List Token) (n : Nat) (R : α → Prop) : Prop :=
  ∀ c : Cursor, c.tokens = ts ++ rest → c.depth + n ≤ maxNesting →
    ∃ a c', p c = .ok a c' ∧ c'.tokens = rest ∧ c'.depth = c.depth ∧ R a

namespace Takes

variable {p : Parser α} {f : α → Parser β} {s u rest : List Token} {t : Token} {n : Nat}
  {R : α → Prop} {S : β → Prop}

theorem mono {m : Nat} {R' : α → Prop} (h : Takes p s rest m R) (hm : m ≤ n)
    (himp : ∀ a, R a → R' a) : Takes p s rest n R' := by
  intro c hc hn
  obtain ⟨a, c', hrun, htokens, hdepth, ha⟩ := h c hc (by omega)
  exact ⟨a, c', hrun, htokens, hdepth, himp a ha⟩

theorem pure {a : α} (h : R a) : Takes (Pure.pure a) [] rest n R :=
  fun c hc _ => ⟨a, c, rfl, hc, rfl, h⟩

theorem bind (hp : Takes p s (u ++ rest) n R) (hf : ∀ a, R a → Takes (f a) u rest n S) :
    Takes (p >>= f) (s ++ u) rest n S := by
  intro c hc hn
  obtain ⟨a, c', hrun, htokens, hdepth, ha⟩ := hp c (by rw [hc, List.append_assoc]) hn
  obtain ⟨b, c'', hrun', htokens', hdepth', hb⟩ := hf a ha c' htokens (by omega)
  refine ⟨b, c'', ?_, htokens', hdepth'.trans hdepth, hb⟩
  simp only [Bind.bind, EStateM.bind, hrun, hrun']

/-- A reader that takes all of the tokens, and one that takes none. -/
theorem bind_all (hp : Takes p s rest n R) (hf : ∀ a, R a → Takes (f a) [] rest n S) :
    Takes (p >>= f) s rest n S := by
  have h := bind (u := []) hp hf
  rwa [List.append_nil] at h

theorem bind_pure {g : α → β} (hp : Takes p s rest n R) (hg : ∀ a, R a → S (g a)) :
    Takes (p >>= fun a => Pure.pure (g a)) s rest n S :=
  bind_all hp fun a ha => pure (hg a ha)

theorem map {g : α → β} (hp : Takes p s rest n R) (hg : ∀ a, R a → S (g a)) :
    Takes (g <$> p) s rest n S := by
  intro c hc hn
  obtain ⟨a, c', hrun, htokens, hdepth, ha⟩ := hp c hc hn
  refine ⟨g a, c', ?_, htokens, hdepth, hg a ha⟩
  simp only [Functor.map, EStateM.map, hrun]

theorem position_bind {g : Nat → Parser β} (h : ∀ position, Takes (g position) s rest n S) :
    Takes (Parser.position >>= g) s rest n S :=
  fun c hc hn => h c.position c hc hn

theorem get_bind {g : Cursor → Parser β}
    (h : ∀ c : Cursor, c.tokens = s ++ rest → Takes (g c) s rest n S) :
    Takes (MonadState.get >>= g) s rest n S :=
  fun c hc hn => h c hc c hc hn

/-- A look at the next of the tokens. -/
theorem peek_bind {g : Option Lexeme → Parser β}
    (h : ∀ l : Lexeme, l.token = t → Takes (g (some l)) (t :: s) rest n S) :
    Takes (Parser.peek >>= g) (t :: s) rest n S := by
  intro c hc hn
  obtain ⟨l, hl, hhead, -, -⟩ := Cursor.tokens_eq_cons hc
  have hstep : (Parser.peek >>= g) c = g (some l) c := by
    simp only [Bind.bind, EStateM.bind, Parser.peek, hhead]
  rw [hstep]
  exact h l hl c hc hn

/-- A look past the tokens, at the next of those after them. -/
theorem peek_bind_rest {g : Option Lexeme → Parser β}
    (h : ∀ l? : Option Lexeme, l?.map Lexeme.token = rest.head? → Takes (g l?) [] rest n S) :
    Takes (Parser.peek >>= g) [] rest n S := by
  intro c hc hn
  refine h c.after.head? ?_ c hc hn
  rw [List.nil_append] at hc
  rw [← hc, Cursor.tokens, List.head?_map]

theorem next_bind {g : Option Lexeme → Parser β}
    (h : ∀ l : Lexeme, l.token = t → Takes (g (some l)) s rest n S) :
    Takes (Parser.next >>= g) (t :: s) rest n S := by
  intro c hc hn
  obtain ⟨l, hl, hhead, htokens, hdepth⟩ := Cursor.tokens_eq_cons hc
  have hstep : (Parser.next >>= g) c = g (some l) c.advance := by
    simp only [Bind.bind, EStateM.bind, Parser.next, hhead]
  rw [hstep, ← hdepth]
  exact h l hl c.advance htokens (by omega)

/-- After the last token there is none. -/
theorem next_bind_end {g : Option Lexeme → Parser β} (h : Takes (g none) [] [] n S) :
    Takes (Parser.next >>= g) [] [] n S := by
  intro c hc hn
  obtain ⟨before, after, endPosition, depth⟩ := c
  obtain rfl : after = [] := List.map_eq_nil_iff.mp hc
  exact h ⟨before, [], endPosition, depth⟩ hc hn

theorem accept {q : Token → Bool} (hq : q t = true) :
    Takes (Parser.accept q) [t] rest n (· = true) := by
  refine peek_bind fun l hl => ?_
  simp only [hl, hq, if_true]
  exact next_bind fun _ _ => pure rfl

theorem accept_rest {q : Token → Bool} (hq : ∀ u ∈ rest.head?, q u = false) :
    Takes (Parser.accept q) [] rest n (· = false) := by
  refine peek_bind_rest fun l? hl => ?_
  cases l? with
  | none => exact pure rfl
  | some l =>
    have hl : q l.token = false := hq l.token (by rw [← hl]; rfl)
    simp only [hl, Bool.false_eq_true, if_false]
    exact pure rfl

theorem needNext : Takes Parser.needNext [t] rest n fun l => l.token = t :=
  next_bind fun _ hl => pure hl

theorem needToken : Takes (Parser.needToken t) [t] rest n fun l => l.token = t := by
  refine bind (u := []) needNext fun l hl => ?_
  simp only [hl, if_true]
  exact pure hl

theorem needWord {keyword : String} (ht : t.isWord keyword = true) :
    Takes (Parser.needWord keyword) [t] rest n fun l => l.token = t := by
  refine bind_all needNext fun l hl => ?_
  simp only [Lexeme.isWord, hl, ht, if_true]
  exact pure hl

theorem nested (position : Nat) (h : Takes p s rest n R) :
    Takes (Parser.nested position p) s rest (n + 1) R := by
  intro c hc hn
  obtain ⟨a, c', hrun, htokens, hdepth, ha⟩ := h { c with depth := c.depth + 1 } hc
    (by simp only; omega)
  have hlt : c.depth < maxNesting := by omega
  refine ⟨a, { c' with depth := c'.depth - 1 }, ?_, htokens, ?_, ha⟩
  · simp only [Parser.nested, hlt, if_true, hrun]
  · simp only [hdepth, Nat.add_sub_cancel]

/-- No round of a step that finds nothing. -/
theorem many_none {step : Parser (Option α)} (h : Takes step [] rest n (· = none)) :
    Takes (Parser.many step) [] rest n (· = []) := by
  refine get_bind fun c _ => bind_all h fun a? ha => ?_
  rw [ha]
  exact pure rfl

/-! Items between commas, up to a closing parenthesis -/

/-- The tokens go on with a comma or a closing parenthesis. -/
def Closes (rest : List Token) : Prop :=
  rest.head? = some .comma ∨ rest.head? = some .rightParen

variable {γ : Type} {tokens : γ → List Token} {item : Parser α} {Q : γ → α → Prop} {xs : List γ}

/-- After an item comes the comma of the next one, or what closes the list. -/
theorem closes_commas (h : Closes rest) :
    Closes (xs.flatMap (fun x => .comma :: tokens x) ++ rest) := by
  cases xs with
  | nil => exact h
  | cons x xs => exact .inl rfl

theorem length_le_commas (tokens : γ → List Token) (xs : List γ) :
    xs.length ≤ (xs.flatMap fun x => .comma :: tokens x).length := by
  induction xs with
  | nil => exact Nat.le_refl 0
  | cons x xs ih =>
    rw [List.flatMap_cons, List.length_append, List.length_cons, List.length_cons]
    omega

/-- Every further item is taken in one round, with the comma in front of it, and the last round takes
what closes the list. -/
theorem collect (closing : List Token) (hclosing : Closes (closing ++ rest))
    {round : Parser (Option α)}
    (hround : ∀ x ∈ xs, ∀ u, Closes u →
      Takes round (.comma :: tokens x) u n fun a? => ∃ a, a? = some a ∧ Q x a)
    (hend : Takes round closing rest n (· = none)) {rounds : Nat} (hrounds : xs.length < rounds) :
    Takes (Parser.collect round rounds) (xs.flatMap (fun x => .comma :: tokens x) ++ closing) rest n
      (List.Forall₂ Q xs) := by
  induction xs generalizing rounds with
  | nil =>
    obtain ⟨rounds, rfl⟩ := Nat.exists_eq_add_one_of_ne_zero (Nat.ne_zero_of_lt hrounds)
    refine bind_all hend fun a? ha => ?_
    rw [ha]
    exact pure .nil
  | cons x xs ih =>
    obtain ⟨hx, hxs⟩ := List.forall_mem_cons.mp hround
    obtain ⟨rounds, rfl⟩ := Nat.exists_eq_add_one_of_ne_zero (Nat.ne_zero_of_lt hrounds)
    rw [List.flatMap_cons, List.append_assoc]
    refine bind (hx _ ?_) fun a? ha => ?_
    · rw [List.append_assoc]
      exact closes_commas hclosing
    · obtain ⟨a, rfl, ha⟩ := ha
      exact bind_pure (ih hxs (by simpa using hrounds)) fun as has => .cons ha has

/-- Commas between items are commas in front of all items but the first. -/
theorem intercalate_eq_flatMap (x : γ) (xs : List γ) :
    [Token.comma].intercalate ((x :: xs).map tokens) =
      tokens x ++ xs.flatMap fun x => .comma :: tokens x := by
  induction xs generalizing x with
  | nil => simp
  | cons y xs ih =>
    rw [List.map_cons, List.map_cons, List.intercalate_cons_cons, ← List.map_cons, ih y]
    simp

theorem commaList (hne : xs ≠ [])
    (hitem : ∀ x ∈ xs, ∀ u, Closes u → Takes item (tokens x) u n (Q x)) :
    Takes (Parser.commaList item) ([Token.comma].intercalate (xs.map tokens))
      (.rightParen :: rest) n (List.Forall₂ Q xs) := by
  cases xs with
  | nil => exact absurd rfl hne
  | cons x xs =>
    obtain ⟨hx, hxs⟩ := List.forall_mem_cons.mp hitem
    rw [intercalate_eq_flatMap]
    refine bind (hx _ (closes_commas (.inr rfl))) fun a ha => bind_pure (get_bind fun c hc => ?_)
      fun as has => .cons ha has
    have hcommas := length_le_commas tokens xs
    have hafter := congrArg List.length hc
    rw [Cursor.length_tokens, List.length_append] at hafter
    rw [← List.append_nil (xs.flatMap _)]
    refine collect [] (.inr rfl) (fun x hx u hu => ?_) ?_ (by omega)
    · refine bind (s := [.comma]) (accept (by simp)) fun taken htaken => ?_
      rw [htaken]
      exact bind_pure (hxs x hx u hu) fun a ha => ⟨a, rfl, ha⟩
    · refine bind_all (accept_rest (by simp)) fun taken htaken => ?_
      rw [htaken]
      exact pure rfl

/-- Items up to the parenthesis that closes the list, which is taken too. -/
theorem listUntil {isEnd : Token → Bool} {expected : String} (hend : isEnd .rightParen = true)
    (hne : xs ≠ []) (hitem : ∀ x ∈ xs, ∀ u, Closes u → Takes item (tokens x) u n (Q x)) :
    Takes (Parser.listUntil isEnd expected item)
      ([Token.comma].intercalate (xs.map tokens) ++ [.rightParen]) rest n (List.Forall₂ Q xs) := by
  cases xs with
  | nil => exact absurd rfl hne
  | cons x xs =>
    obtain ⟨hx, hxs⟩ := List.forall_mem_cons.mp hitem
    rw [intercalate_eq_flatMap, List.append_assoc]
    refine bind (hx _ (by rw [List.append_assoc]; exact closes_commas (.inr rfl))) fun a ha =>
      bind_pure (get_bind fun c hc => ?_) fun as has => .cons ha has
    have hcommas := length_le_commas tokens xs
    have hafter := congrArg List.length hc
    rw [Cursor.length_tokens, List.length_append, List.length_append] at hafter
    refine collect [.rightParen] (.inr rfl) (fun x hx u hu => ?_) ?_ (by omega)
    · refine bind (s := [.comma]) needNext fun l hl => ?_
      simp only [hl, if_true]
      exact bind_pure (hxs x hx u hu) fun a ha => ⟨a, rfl, ha⟩
    · refine bind_all needNext fun l hl => ?_
      simp only [hl, hend, reduceCtorEq, if_true, if_false]
      exact pure rfl

end Takes

end Parser

/-! ### Reading a text that spells known tokens -/

/-- The cursor in front of a text that spells known tokens. -/
theorem Cursor.ofText_of_spells {source : String} {ts : List Token}
    (h : Lexer.Spells source.toList ts) :
    ∃ c, Cursor.ofText source = .ok c ∧ c.tokens = ts ∧ c.depth = 0 := by
  obtain ⟨lexemes, hlex, hmap⟩ := h 0
  refine ⟨⟨[], lexemes, Cursor.endOf source.utf8ByteSize lexemes, 0⟩, ?_, hmap, rfl⟩
  simp only [Cursor.ofText, lex, hlex]

theorem Cursor.atEnd_of_tokens {c : Cursor} (h : c.tokens = []) : c.atEnd = true := by
  rw [Cursor.atEnd, List.isEmpty_iff]
  exact List.map_eq_nil_iff.mp h

/-- A reader that takes all tokens of a text reads it in full. -/
theorem Parser.Takes.run_text {α : Type} {p : Parser α} {ts : List Token} {n : Nat}
    {R : α → Prop} {source : String} (h : Takes p ts [] n R) (hn : n ≤ maxNesting)
    (hsource : Lexer.Spells source.toList ts) :
    ∃ c a c', Cursor.ofText source = .ok c ∧ p c = .ok a c' ∧ c'.atEnd = true ∧ R a := by
  obtain ⟨c, hc, htokens, hdepth⟩ := Cursor.ofText_of_spells hsource
  obtain ⟨a, c', hrun, hrest, -, ha⟩ := h c (by rw [htokens, List.append_nil]) (by omega)
  exact ⟨c, a, c', hc, hrun, Cursor.atEnd_of_tokens hrest, ha⟩

end SeriesQuery
