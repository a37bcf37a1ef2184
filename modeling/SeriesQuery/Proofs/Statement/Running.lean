import SeriesQuery.Statement.Parser

/-!
Runs of readers that succeed.

What a reader has answered is followed back through its parts (`Parser.bind_eq_ok`), to the
lexemes that it has taken and, from the end of a statement, to the run that has read its body
(`Statement.body_of_ofText`).
-/

namespace SeriesQuery

namespace Parser

variable {α β : Type} {c c' : Cursor}

theorem bind_eq_ok {p : Parser α} {f : α → Parser β} {b : β} :
    (p >>= f) c = .ok b c' ↔ ∃ a c₁, p c = .ok a c₁ ∧ f a c₁ = .ok b c' := by
  simp only [Bind.bind, EStateM.bind]
  cases p c with
  | ok a c₁ =>
    constructor
    · intro h
      exact ⟨a, c₁, rfl, h⟩
    · rintro ⟨_, _, heq, h⟩
      cases heq
      exact h
  | error e c₁ => simp

theorem peek_bind (f : Option Lexeme → Parser β) (c : Cursor) :
    (peek >>= f) c = f c.after.head? c := rfl

theorem next_bind (f : Option Lexeme → Parser β) (c : Cursor) :
    (next >>= f) c = f c.after.head? c.advance := rfl

/-- Where a reader that may take the next lexeme takes it. -/
theorem of_accept {q : Token → Bool} {taken : Bool} (h : accept q c = .ok taken c') :
    (taken = false ∧ c' = c ∧ ∀ l ∈ c.after.head?, q l.token = false) ∨
      ∃ l, taken = true ∧ c.after = l :: c'.after ∧ q l.token = true := by
  obtain ⟨before, after, endPosition, depth⟩ := c
  cases after with
  | nil =>
    cases h
    exact .inl ⟨rfl, rfl, by simp⟩
  | cons l after =>
    simp only [accept, bind_eq_ok, peek, List.head?_cons] at h
    obtain ⟨_, _, hpeek, h⟩ := h
    cases hpeek
    simp only at h
    split at h
    · rename_i hq
      cases h
      exact .inr ⟨l, rfl, rfl, hq⟩
    · rename_i hq
      cases h
      exact .inl ⟨rfl, rfl, by simpa using hq⟩

theorem of_needNext {l : Lexeme} (h : needNext c = .ok l c') : c.after = l :: c'.after := by
  obtain ⟨before, after, endPosition, depth⟩ := c
  cases after with
  | nil => cases h
  | cons l' after =>
    cases h
    rfl

theorem of_needWord {keyword : String} {l : Lexeme} (h : needWord keyword c = .ok l c') :
    c.after = l :: c'.after := by
  obtain ⟨l', c₁, hl, h⟩ := bind_eq_ok.mp h
  split at h
  · cases h
    exact of_needNext hl
  · cases h

/-- What a reader answers one nesting level down. -/
theorem of_nested {p : Parser α} {position : Nat} {a : α} (h : nested position p c = .ok a c') :
    ∃ c₁, p { c with depth := c.depth + 1 } = .ok a c₁ ∧ c₁.after = c'.after := by
  simp only [nested] at h
  split at h
  · split at h
    · rename_i hinner
      cases h
      exact ⟨_, hinner, rfl⟩
    · cases h
  · cases h

end Parser

open SeriesQuery.Parser

/-- A text that is read as a statement has its body in front of all its lexemes. -/
theorem Statement.body_of_ofText {sql : String} {s : Statement} (h : ofText sql = .ok s) :
    ∃ lexemes c c', lex sql = .ok lexemes ∧ c.after = lexemes ∧ bodyParser c = .ok s c' := by
  unfold ofText Cursor.ofText at h
  cases hlex : lex sql with
  | error e =>
    rw [hlex] at h
    cases h
  | ok lexemes =>
    simp only [hlex] at h
    split at h
    · rename_i statement c' hrun
      cases h
      simp only [parser, bind_eq_ok] at hrun
      obtain ⟨_, _, hbody, _, _, -, extra, _, -, hend⟩ := hrun
      cases extra with
      | some extra => cases hend
      | none =>
        cases hend
        exact ⟨lexemes, _, _, rfl, rfl, hbody⟩
    · cases h

end SeriesQuery
