import SeriesQuery.Join.Equality

/-!
Equalities seen from one of their sides, and lists without two expressions that are
written alike.

`extendDistinct_eq_append` says all about an extended list: it starts with the old one and
goes on with what is new to it, of everything that is written alike the first.
-/

namespace SeriesQuery

namespace Equality

variable {q : Equality}

theorem touches_iff {s : Nat} : q.touches s = true ↔ q.leftSource = s ∨ q.rightSource = s := by
  simp [touches]

theorem touches_left : q.touches q.leftSource = true :=
  touches_iff.mpr (Or.inl rfl)

theorem touches_right : q.touches q.rightSource = true :=
  touches_iff.mpr (Or.inr rfl)

/-- Seen from either side, an equality is one of its two spellings. -/
theorem startingAt_eq (q : Equality) (s : Nat) :
    q.startingAt s = .equality q.left q.right ∨ q.startingAt s = .equality q.right q.left := by
  unfold startingAt
  split
  · exact Or.inl rfl
  · exact Or.inr rfl

theorem partnerOf_left : q.partnerOf q.leftSource = q.rightSource :=
  if_pos rfl

theorem partnerOf_right (h : q.leftSource ≠ q.rightSource) :
    q.partnerOf q.rightSource = q.leftSource :=
  if_neg h

end Equality

namespace Expr

theorem sameText_iff {a b : Expr} : a.sameText b = true ↔ a.text = b.text := by
  simp [sameText]

theorem mem_addDistinct_of_mem {es : List Expr} {e a : Expr} (h : a ∈ es) :
    a ∈ addDistinct es e := by
  unfold addDistinct
  split
  · exact h
  · exact List.mem_append_left _ h

theorem mem_of_mem_addDistinct {es : List Expr} {e a : Expr} (h : a ∈ addDistinct es e) :
    a ∈ es ∨ a = e := by
  unfold addDistinct at h
  split at h
  · exact Or.inl h
  · simpa using h

theorem exists_text_eq_mem_addDistinct (es : List Expr) (e : Expr) :
    ∃ a ∈ addDistinct es e, a.text = e.text := by
  unfold addDistinct
  split
  · rename_i h
    obtain ⟨a, ha, hsame⟩ := List.any_eq_true.mp h
    exact ⟨a, ha, sameText_iff.mp hsame⟩
  · exact ⟨e, by simp, rfl⟩

theorem mem_extendDistinct_of_mem {es more : List Expr} {a : Expr} (h : a ∈ es) :
    a ∈ extendDistinct es more := by
  induction more generalizing es with
  | nil => exact h
  | cons e more ih => exact ih (mem_addDistinct_of_mem h)

theorem mem_of_mem_extendDistinct {es more : List Expr} {a : Expr}
    (h : a ∈ extendDistinct es more) : a ∈ es ∨ a ∈ more := by
  induction more generalizing es with
  | nil => exact Or.inl h
  | cons e more ih =>
    have hrest : a ∈ extendDistinct (addDistinct es e) more := h
    rcases ih hrest with h | h
    · rcases mem_of_mem_addDistinct h with h | rfl
      · exact Or.inl h
      · exact Or.inr List.mem_cons_self
    · exact Or.inr (List.mem_cons_of_mem _ h)

/-- Of everything added, something that is written alike is in the list. -/
theorem exists_text_eq_mem_extendDistinct {es more : List Expr} {e : Expr} (h : e ∈ more) :
    ∃ a ∈ extendDistinct es more, a.text = e.text := by
  induction more generalizing es with
  | nil => cases h
  | cons first more ih =>
    rcases List.mem_cons.mp h with rfl | h
    · obtain ⟨a, ha, htext⟩ := exists_text_eq_mem_addDistinct es e
      have hmem : a ∈ extendDistinct (addDistinct es e) more := mem_extendDistinct_of_mem ha
      exact ⟨a, hmem, htext⟩
    · exact ih h

/-! ### What a list is extended by -/

theorem sameText_comm (a b : Expr) : a.sameText b = b.sameText a :=
  Bool.beq_comm

/-- The list that is left when everything written like its first expression is taken out is
shorter. -/
theorem length_filter_lt (e : Expr) (es : List Expr) :
    (es.filter fun a => decide (a.sameText e = false)).length < (e :: es).length :=
  Nat.lt_succ_of_le (List.length_filter_le _ es)

theorem eraseDupsBy_sublist (es : List Expr) : (es.eraseDupsBy sameText).Sublist es := by
  induction hn : es.length using Nat.strongRecOn generalizing es with
  | ind n ih =>
    subst hn
    cases es with
    | nil => exact .slnil
    | cons e es =>
      rw [List.eraseDupsBy_cons]
      have hrest := ih _ (length_filter_lt e es) _ rfl
      exact (hrest.trans List.filter_sublist).cons_cons e

/-- Of expressions that are written alike only one is left. -/
theorem pairwise_eraseDupsBy (es : List Expr) :
    (es.eraseDupsBy sameText).Pairwise fun a b => a.text ≠ b.text := by
  induction hn : es.length using Nat.strongRecOn generalizing es with
  | ind n ih =>
    subst hn
    cases es with
    | nil => exact .nil
    | cons e es =>
      rw [List.eraseDupsBy_cons, List.pairwise_cons]
      refine ⟨fun a ha heq => ?_, ih _ (length_filter_lt e es) _ rfl⟩
      have hne := (List.mem_filter.mp ((eraseDupsBy_sublist _).mem ha)).2
      rw [sameText_iff.mpr heq.symm] at hne
      cases hne

/-- What is added is what is not written like an expression of the list, and of several that
are written alike the first. -/
theorem extendDistinct_eq_append (es more : List Expr) :
    extendDistinct es more =
      es ++ (more.filter fun e => !es.any fun a => a.sameText e).eraseDupsBy sameText := by
  induction more generalizing es with
  | nil => simp [extendDistinct]
  | cons e more ih =>
    have hstep : extendDistinct es (e :: more) = extendDistinct (addDistinct es e) more := rfl
    rw [hstep, ih, addDistinct]
    cases hknown : es.any fun a => a.sameText e with
    | true => simp [hknown]
    | false =>
      have hrest : (more.filter fun x => !(es ++ [e]).any fun a => a.sameText x) =
          (more.filter fun x => !es.any fun a => a.sameText x).filter
            fun x => decide (x.sameText e = false) := by
        rw [List.filter_filter]
        refine List.filter_congr fun x _ => ?_
        rw [sameText_comm x e]
        cases hx : es.any (fun a => a.sameText x) <;> cases hex : e.sameText x <;> simp [hx, hex]
      simp only [hknown, Bool.false_eq_true, if_false, Bool.not_false, List.filter_cons_of_pos,
        List.eraseDupsBy_cons, hrest, List.append_assoc, List.singleton_append]

theorem extendDistinct_nil (es : List Expr) : extendDistinct [] es = es.eraseDupsBy sameText := by
  rw [extendDistinct_eq_append, List.nil_append, List.filter_eq_self.mpr (by simp)]

/-- Expressions that are written differently are counted once at most. -/
theorem countP_le_one_of_pairwise {es : List Expr} (h : es.Pairwise fun a b => a.text ≠ b.text)
    (e : Expr) : es.countP (·.sameText e) ≤ 1 := by
  induction h with
  | nil => exact Nat.zero_le 1
  | @cons a es ha _ ih =>
    rw [List.countP_cons]
    split
    · rename_i hsame
      have hnone : es.countP (·.sameText e) = 0 := by
        rw [List.countP_eq_zero]
        intro b hb hb'
        exact ha b hb ((sameText_iff.mp hsame).trans (sameText_iff.mp hb').symm)
      simp [hnone]
    · exact ih

/-- An added expression is in the extended list as often as in the old one, or once if it is
not in that. -/
theorem countP_extendDistinct {es more : List Expr} {e : Expr} (h : e ∈ more) :
    (extendDistinct es more).countP (·.sameText e) = max 1 (es.countP (·.sameText e)) := by
  have hone : 1 ≤ (extendDistinct es more).countP (·.sameText e) := by
    obtain ⟨a, ha, htext⟩ : ∃ a ∈ extendDistinct es more, a.text = e.text :=
      exists_text_eq_mem_extendDistinct h
    exact List.countP_pos_iff.mpr ⟨a, ha, sameText_iff.mpr htext⟩
  rw [extendDistinct_eq_append, List.countP_append] at hone ⊢
  generalize hdef : (more.filter fun e => !es.any fun a => a.sameText e).eraseDupsBy sameText =
    added at hone ⊢
  have hadded : added.countP (·.sameText e) ≤ 1 := countP_le_one_of_pairwise
    (hdef ▸ pairwise_eraseDupsBy _) e
  by_cases hknown : es.countP (·.sameText e) = 0
  · omega
  · -- What is in the old list is not added.
    have hnone : added.countP (·.sameText e) = 0 := by
      rw [List.countP_eq_zero]
      intro b hb hsame
      obtain ⟨a, ha, hae⟩ := List.countP_pos_iff.mp (Nat.pos_of_ne_zero hknown)
      rw [← hdef] at hb
      have hnew := (List.mem_filter.mp ((eraseDupsBy_sublist _).mem hb)).2
      have hab : es.any (fun a => a.sameText b) = true := List.any_eq_true.mpr
        ⟨a, ha, sameText_iff.mpr ((sameText_iff.mp hae).trans (sameText_iff.mp hsame).symm)⟩
      simp [hab] at hnew
    omega

end Expr

end SeriesQuery
