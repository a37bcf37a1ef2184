import SeriesQuery.Proofs.Join.CrossJoin

/-!
The order of the joins has no avoidable cross join.

The search for the order keeps track of which placed sources still have to be looked at.
`Settled` says that the others have no equality to what is left of the segment; every step
of the search keeps that (`Settled.reach`, `Settled.start`). So when a source starts anew,
nothing that is left of its segment could be joined on an equality: the order is greedy, and
`order_fewest_cross_joins` follows.
-/

namespace SeriesQuery.JoinGraph

variable {g : JoinGraph} {fixed : List Bool}

/-! ### The order of a segment is greedy -/

/-- Of the placed sources only those of the queue may have equalities to what is left of
the segment. -/
def Settled (g : JoinGraph) (placed queue segment : List Nat) : Prop :=
  queue ⊆ placed ∧ ∀ a ∈ placed, a ∉ queue → ∀ t ∈ segment, g.connected a t = false

theorem Settled.reach {placed queue segment : List Nat} {source : Nat}
    (h : g.Settled placed (source :: queue) segment) :
    g.Settled (placed ++ g.reached source segment) (queue ++ g.reached source segment)
      (g.unreached source segment) := by
  obtain ⟨hqueue, hdone⟩ := h
  constructor
  · intro a ha
    rcases List.mem_append.mp ha with ha | ha
    · exact List.mem_append_left _ (hqueue (List.mem_cons_of_mem _ ha))
    · exact List.mem_append_right _ ha
  · intro a ha hnot t ht
    obtain ⟨ht, hunreached⟩ := List.mem_filter.mp ht
    simp only [List.mem_append, not_or] at hnot
    have hplaced : a ∈ placed := (List.mem_append.mp ha).resolve_right hnot.2
    by_cases heq : a = source
    · subst heq
      simpa using hunreached
    · exact hdone a hplaced (by simp [heq, hnot.1]) t ht

theorem Settled.start {placed segment : List Nat} (h : g.Settled placed [] segment) (s : Nat) :
    g.Settled (placed ++ [s]) [s] (segment.erase s) := by
  refine ⟨List.subset_append_right _ _, fun a ha hnot t ht => ?_⟩
  have hplaced := (List.mem_append.mp ha).resolve_right hnot
  exact h.2 a hplaced List.not_mem_nil t (List.mem_of_mem_erase ht)

/-- An element of two lists in a row stands in the second or in the first one. -/
theorem append_eq_append_cons {front rest l r : List Nat} {s : Nat}
    (h : front ++ rest = l ++ s :: r) :
    (∃ l', l = front ++ l' ∧ rest = l' ++ s :: r) ∨ ∃ m, front = l ++ s :: m ∧ r = m ++ rest := by
  rcases List.append_eq_append_iff.mp h with hsecond | ⟨m, rfl, hrest⟩
  · exact Or.inl hsecond
  · cases m with
    | nil => exact Or.inl ⟨[], by simp, hrest.symm⟩
    | cons b m =>
      obtain ⟨rfl, rfl⟩ := List.cons.inj hrest
      exact Or.inr ⟨m, rfl, rfl⟩

/-- When a source of a segment starts anew, no equality relates what is left of the segment
to what is placed. -/
theorem arrange_greedy {placed queue segment : List Nat} (hsettled : g.Settled placed queue segment)
    {l r : List Nat} {s : Nat} (h : g.arrange queue segment = l ++ s :: r)
    (halone : ∀ a ∈ placed ++ l, g.connected a s = false) :
    ∀ t ∈ r, ∀ a ∈ placed ++ l, g.connected a t = false := by
  fun_induction arrange g queue segment generalizing placed l with
  | case1 segment source queue reached =>
    rename_i ih
    rcases append_eq_append_cons h with ⟨l', rfl, hrest⟩ | ⟨m, hreached, -⟩
    · rw [← List.append_assoc] at halone ⊢
      exact ih hsettled.reach hrest halone
    · -- A source that is reached does not stand alone.
      have hs : s ∈ reached := by
        rw [hreached]
        exact List.mem_append_right _ List.mem_cons_self
      have hconnected := (List.mem_filter.mp ((g.byName_perm _).mem_iff.mp hs)).2
      rw [halone source (List.mem_append_left _ (hsettled.1 List.mem_cons_self))] at hconnected
      cases hconnected
  | case2 segment first hstart ih =>
    cases l with
    | nil =>
      obtain ⟨rfl, rfl⟩ := List.cons.inj h
      intro t ht a ha
      have hmem := (g.arrange_perm _ _).mem_iff.mp ht
      exact hsettled.2 a (by simpa using ha) List.not_mem_nil t (List.mem_of_mem_erase hmem)
    | cons b l =>
      obtain ⟨rfl, hrest⟩ := List.cons.inj h
      rw [List.append_cons] at halone ⊢
      exact ih (hsettled.start first) hrest halone
  | case3 segment hstart =>
    -- What is left at the end has no equality at all.
    intro t ht a _
    have hmem : t ∈ segment := h ▸ List.mem_append_right _ (List.mem_cons_of_mem _ ht)
    have hunrelated := start?_eq_none_iff.mp hstart t hmem
    cases hconnected : g.connected a t with
    | false => rfl
    | true =>
      rw [isRelated_of_connected hconnected] at hunrelated
      cases hunrelated

/-! ### The order of all sources is greedy -/

/-- The same for the sources from number `source` on, behind the placed ones. -/
theorem orderFrom_greedy {placed segment : List Nat} {source : Nat} {fixed : List Bool}
    (hsegment : ∀ t ∈ segment, t < source) {l r : List Nat} {s t : Nat}
    (h : g.orderFrom placed segment source fixed = placed ++ l ++ s :: r)
    (hs : ∀ k : Nat, fixed[k]? = some true → s ≠ source + k)
    (hst : ∀ k : Nat, fixed[k]? = some true → (s < source + k ↔ t < source + k))
    (halone : ∀ a ∈ placed ++ l, g.connected a s = false) (ht : t ∈ r) :
    ∀ a ∈ placed ++ l, g.connected a t = false := by
  induction fixed generalizing placed segment source l with
  | nil =>
    rw [orderFrom, List.append_assoc, List.append_cancel_left_eq] at h
    exact arrange_greedy ⟨fun _ ha => ha, fun a ha hnot => absurd ha hnot⟩ h halone t ht
  | cons b fixed ih =>
    have hs' : ∀ k : Nat, fixed[k]? = some true → s ≠ source + 1 + k := by
      intro k hk
      have := hs (k + 1) (by simpa using hk)
      omega
    have hst' : ∀ k : Nat, fixed[k]? = some true → (s < source + 1 + k ↔ t < source + 1 + k) := by
      intro k hk
      have := hst (k + 1) (by simpa using hk)
      omega
    cases b with
    | false =>
      refine ih ?_ h hs' hst' halone
      intro t ht
      rcases List.mem_append.mp ht with ht | ht
      · have := hsegment t ht
        omega
      · have := List.mem_singleton.mp ht
        omega
    | true =>
      have hne : s ≠ source := hs 0 rfl
      have hside : s < source ↔ t < source := hst 0 rfl
      obtain ⟨rest, heq, hrest⟩ :=
        g.orderFrom_eq_append (placed ++ g.arrange placed segment ++ [source]) [] (source + 1) fixed
      have hsplit : g.arrange placed segment ++ source :: rest = l ++ s :: r := by
        rw [orderFrom, heq] at h
        simpa using h
      rcases append_eq_append_cons hsplit with ⟨l', rfl, htail⟩ | ⟨m, harrange, rfl⟩
      · cases l' with
        | nil => exact absurd (List.cons.inj htail).1.symm hne
        | cons b l' =>
          obtain ⟨rfl, hlater⟩ := List.cons.inj htail
          have hfront : placed ++ (g.arrange placed segment ++ source :: l') =
              placed ++ g.arrange placed segment ++ [source] ++ l' := by simp
          rw [hfront] at halone ⊢
          refine ih (fun t ht => absurd ht List.not_mem_nil) ?_ hs' hst' halone
          rw [heq, hlater]
          exact (List.append_assoc _ _ _).symm
      · have harranged : s ∈ g.arrange placed segment := by
          rw [harrange]
          exact List.mem_append_right _ List.mem_cons_self
        have hs : s < source := hsegment s ((g.arrange_perm _ _).mem_iff.mp harranged)
        have hm : t ∈ m := by
          rcases List.mem_append.mp ht with hm | hlater
          · exact hm
          · -- From the fixed source on nothing is of the segment.
            rcases List.mem_cons.mp hlater with rfl | hlater
            · omega
            · have hnum := List.mem_range'_1.mp (hrest.mem_iff.mp hlater)
              omega
        exact arrange_greedy ⟨fun _ ha => ha, fun a ha hnot => absurd ha hnot⟩ harrange halone t hm

theorem order_greedy (g : JoinGraph) (fixed : List Bool) : g.Greedy fixed (g.order fixed) := by
  rintro s t hs hst ⟨front, r, hsplit, hmem⟩ halone
  obtain ⟨l, m, rfl⟩ := List.append_of_mem hmem
  obtain ⟨b, fixed, rfl⟩ := List.exists_cons_of_ne_nil (l := fixed) (by
    rintro rfl
    simp [Movable] at hs)
  have hnum : ∀ k : Nat, fixed[k]? = some true → (b :: fixed)[1 + k]? = some true := by
    intro k hk
    rwa [Nat.add_comm, List.getElem?_cons_succ]
  obtain ⟨rest, heq, -⟩ := g.order_eq_cons (b :: fixed)
  have horder : g.order (b :: fixed) = [0] ++ rest := heq
  have hn := g.order_nodup (b :: fixed)
  have hrest : [0] ++ rest = l ++ s :: (m ++ t :: r) := by
    rw [← horder, hsplit]
    simp
  rcases append_eq_append_cons hrest with ⟨l, rfl, rfl⟩ | ⟨m, hmaster, -⟩
  · rw [horder, ← List.append_assoc] at hn halone ⊢
    simp only [before_append_cons_iff hn] at halone ⊢
    refine orderFrom_greedy (fun t ht => absurd ht List.not_mem_nil) heq
      (fun k hk => hs.ne_fixed (hnum k hk)) (fun k hk => hst _ (hnum k hk)) halone ?_
    exact List.mem_append_right _ List.mem_cons_self
  · cases l with
    | nil => exact absurd (List.cons.inj hmaster).1.symm hs.1
    | cons a l => simp at hmaster

/-! ### The fewest cross joins -/

theorem order_pinned (g : JoinGraph) {fixed : List Bool} (h : fixed ≠ []) :
    Pinned fixed (g.order fixed) where
  perm := g.order_perm h
  master_first := by
    obtain ⟨rest, heq, -⟩ := g.order_eq_cons fixed
    rw [heq]
    rfl
  fixed_at i hi := by
    obtain ⟨l, r, heq, hl, -⟩ := g.order_split hi
    have hlen : l.length = i := by simpa using hl.length_eq
    rw [heq, ← hlen]
    simp
  between _ _ hi := g.before_fixed_iff hi

/-- **The order of the joins keeps the fixed sources in their place and has no avoidable
cross join.** It lists every source once, the master first, each fixed source at its number
and every other one between the fixed sources it is declared between; and of all such orders
none joins fewer sources without an equality to one before them. -/
theorem order_fewest_cross_joins (g : JoinGraph) {fixed : List Bool} (h : fixed ≠ []) :
    Pinned fixed (g.order fixed) ∧ ∀ order, Pinned fixed order →
      (g.crossJoined fixed (g.order fixed)).length ≤ (g.crossJoined fixed order).length := by
  have hpinned := g.order_pinned h
  exact ⟨hpinned, fun order horder => crossJoined_length_le (g.order_greedy fixed) hpinned horder⟩

/-! ### Six sources -/

/-- The equality of a column of one source with a column of another. -/
def columnsEqual (left : String) (a : Nat) (right : String) (b : Nat) : Equality :=
  ⟨.column (.plain left) 0, a, .column (.plain right) 0, b⟩

/-- Six sources with an equality of the second and the third, and two of the last with a
source declared before it. -/
def sixSources : JoinGraph :=
  ⟨["a", "z", "b", "d", "e", "f"],
    [columnsEqual "k" 1 "l" 2, columnsEqual "m" 5 "n" 4, columnsEqual "o" 5 "p" 3]⟩

/-- The fourth of six sources is fixed. -/
def fourthFixed : List Bool :=
  [false, false, false, true, false, false]

theorem eq_three_of_fourthFixed {i : Nat} (h : fourthFixed[i]? = some true) : i = 3 := by
  have hlt : i < 6 := (List.getElem?_eq_some_iff.mp h).1
  match i with
  | 3 => rfl
  | 0 | 1 | 2 | 4 | 5 => simp [fourthFixed] at h
  | n + 6 => omega

theorem pinned_sixSources : Pinned fourthFixed [0, 2, 1, 3, 5, 4] where
  perm := by decide
  master_first := rfl
  fixed_at i hi := by
    obtain rfl := eq_three_of_fourthFixed hi
    rfl
  between i s hi := by
    obtain rfl := eq_three_of_fourthFixed hi
    have hfront := before_append_cons_iff (l := [0, 2, 1]) (r := [5, 4]) (a := s) (b := 3) (by decide)
    rw [show [0, 2, 1, 3, 5, 4] = [0, 2, 1] ++ 3 :: [5, 4] from rfl, hfront]
    simp only [List.mem_cons, List.not_mem_nil, or_false]
    omega

/-- Of these six sources one at most is cross joined. -/
theorem order_fewest_cross_joins_six_sources :
    fourthFixed ≠ [] ∧ Pinned fourthFixed (sixSources.order fourthFixed) ∧
      (sixSources.crossJoined fourthFixed (sixSources.order fourthFixed)).length ≤ 1 := by
  have hfixed : fourthFixed ≠ [] := by decide
  obtain ⟨hpinned, hfewest⟩ := sixSources.order_fewest_cross_joins hfixed
  have hone : (sixSources.crossJoined fourthFixed [0, 2, 1, 3, 5, 4]).length = 1 := by decide
  exact ⟨hfixed, hpinned, hone ▸ hfewest _ pinned_sixSources⟩

end SeriesQuery.JoinGraph
