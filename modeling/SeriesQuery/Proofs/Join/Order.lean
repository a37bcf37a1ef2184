import SeriesQuery.Join.Order
import SeriesQuery.Proofs.Join.Equality

/-!
The order of the joins rearranges the sources of a scope and keeps the fixed ones in
their place: what is declared before a fixed source is joined before it, and what is
declared after it is joined after it.

`Before` is what the rest of the theory uses; ranks are tied to it here.
-/

namespace SeriesQuery.JoinGraph

/-! ### Before and after -/

/-- `a` stands somewhere before `b` in an order. -/
def Before (order : List Nat) (a b : Nat) : Prop :=
  ∃ l r, order = l ++ b :: r ∧ a ∈ l

theorem before_or_before {order : List Nat} {a b : Nat} (ha : a ∈ order) (hb : b ∈ order)
    (hne : a ≠ b) : Before order a b ∨ Before order b a := by
  obtain ⟨l, r, rfl⟩ := List.append_of_mem hb
  rcases List.mem_append.mp ha with hl | hr
  · exact Or.inl ⟨l, r, rfl, hl⟩
  · obtain ⟨m, r', rfl⟩ := List.append_of_mem ((List.mem_cons.mp hr).resolve_left hne)
    exact Or.inr ⟨l ++ b :: m, r', by simp, by simp⟩

theorem rank_append_cons {l r : List Nat} {a : Nat} (h : a ∉ r) :
    rank (l ++ a :: r) a = l.length := by
  have hback : (r.reverse ++ a :: l.reverse).idxOf? a = some r.length := by
    rw [List.idxOf?_eq_some_iff]
    refine ⟨by simp, by simp, ?_⟩
    intro j hj heq
    rw [List.getElem_append_left (by simpa using hj)] at heq
    exact h (List.mem_reverse.mp (heq ▸ List.getElem_mem _))
  have hrev : (l ++ a :: r).reverse = r.reverse ++ a :: l.reverse := by simp
  rw [rank, hrev, hback]
  simp only [List.length_append, List.length_cons]
  omega

theorem rank_lt_of_before {order : List Nat} {a b : Nat} (hn : order.Nodup)
    (h : Before order a b) : rank order a < rank order b := by
  obtain ⟨l, r, rfl, ha⟩ := h
  obtain ⟨l₁, l₂, rfl⟩ := List.append_of_mem ha
  have hb : b ∉ r := (List.nodup_cons.mp (List.nodup_append.mp hn).2.1).1
  have ha : a ∉ l₂ ++ b :: r := by
    rw [List.append_assoc, List.cons_append] at hn
    exact (List.nodup_cons.mp (List.nodup_append.mp hn).2.1).1
  have hrank := rank_append_cons (l := l₁) ha
  rw [rank_append_cons hb, List.append_assoc, List.cons_append, hrank]
  simp

/-- In an order that holds each source once, ranks and positions agree. -/
theorem before_of_rank_lt {order : List Nat} {a b : Nat} (hn : order.Nodup) (ha : a ∈ order)
    (hb : b ∈ order) (h : rank order a < rank order b) : Before order a b := by
  have hne : a ≠ b := by
    rintro rfl
    omega
  rcases before_or_before ha hb hne with hab | hba
  · exact hab
  · have := rank_lt_of_before hn hba
    omega

theorem before_iff_rank_lt {order : List Nat} {a b : Nat} (hn : order.Nodup) (ha : a ∈ order)
    (hb : b ∈ order) : Before order a b ↔ rank order a < rank order b :=
  ⟨rank_lt_of_before hn, before_of_rank_lt hn ha hb⟩

/-- What stands before a source that an order holds once is all in front of it. -/
theorem before_append_cons_iff {l r : List Nat} {a b : Nat} (hn : (l ++ b :: r).Nodup) :
    Before (l ++ b :: r) a b ↔ a ∈ l := by
  constructor
  · rintro ⟨l', r', heq, ha⟩
    have hb : b ∉ r := (List.nodup_cons.mp (List.nodup_append.mp hn).2.1).1
    have hb' : b ∉ r' := by
      rw [heq] at hn
      exact (List.nodup_cons.mp (List.nodup_append.mp hn).2.1).1
    have hlen : l.length = l'.length := by
      rw [← rank_append_cons (l := l) hb, ← rank_append_cons (l := l') hb', heq]
    obtain ⟨rfl, -⟩ := List.append_inj heq hlen
    exact ha
  · intro ha
    exact ⟨l, r, rfl, ha⟩

/-! ### The order of a segment -/

variable (g : JoinGraph)

theorem byName_perm (sources : List Nat) : (g.byName sources).Perm sources :=
  List.mergeSort_perm _ _

theorem reached_append_unreached_perm (source : Nat) (segment : List Nat) :
    (g.reached source segment ++ g.unreached source segment).Perm segment :=
  ((g.byName_perm _).append_right _).trans (List.filter_append_perm _ _)

theorem arrange_perm (queue segment : List Nat) : (g.arrange queue segment).Perm segment := by
  fun_induction arrange g queue segment with
  | case1 segment source queue reached ih =>
    exact (ih.append_left _).trans (g.reached_append_unreached_perm source segment)
  | case2 segment s h ih =>
    exact (ih.cons s).trans (List.perm_cons_erase (mem_of_start? h)).symm
  | case3 segment h => exact .refl _

variable {g}

theorem isRelated_of_connected {a b : Nat} (h : g.connected a b = true) :
    g.isRelated b = true := by
  obtain ⟨e, he, hrelates⟩ := List.any_eq_true.mp h
  refine List.any_eq_true.mpr ⟨e, he, Equality.touches_iff.mpr ?_⟩
  simp only [Equality.relates, Bool.or_eq_true, Bool.and_eq_true, decide_eq_true_eq] at hrelates
  rcases hrelates with ⟨-, hb⟩ | ⟨hb, -⟩
  · exact Or.inr hb
  · exact Or.inl hb

theorem start?_eq_none_iff {sources : List Nat} :
    g.start? sources = none ↔ ∀ s ∈ sources, g.isRelated s = false := by
  rw [start?, List.head?_eq_none_iff, ← List.length_eq_zero_iff, (g.byName_perm _).length_eq,
    List.length_eq_zero_iff, List.filter_eq_nil_iff]
  simp only [Bool.not_eq_true]

theorem arrange_cons (g : JoinGraph) (source : Nat) (queue segment : List Nat) :
    g.arrange (source :: queue) segment = g.reached source segment ++
      g.arrange (queue ++ g.reached source segment) (g.unreached source segment) := by
  rw [arrange]

theorem arrange_of_start {segment : List Nat} {s : Nat} (h : g.start? segment = some s) :
    g.arrange [] segment = s :: g.arrange [s] (segment.erase s) := by
  rw [arrange.eq_def]
  dsimp only
  split
  · rename_i s' h'
    obtain rfl : s = s' := Option.some.inj (h.symm.trans h')
    rfl
  · rename_i h'
    rw [h] at h'
    cases h'

theorem arrange_nil_nil (g : JoinGraph) : g.arrange [] [] = [] :=
  (g.arrange_perm [] []).eq_nil

variable (g)

/-! ### The order of all sources -/

/-- What is placed stays in front, and the rest follows in some order. -/
theorem orderFrom_eq_append (placed segment : List Nat) (source : Nat) (fixed : List Bool) :
    ∃ rest, g.orderFrom placed segment source fixed = placed ++ rest ∧
      rest.Perm (segment ++ List.range' source fixed.length) := by
  induction fixed generalizing placed segment source with
  | nil => exact ⟨_, rfl, by simpa using g.arrange_perm placed segment⟩
  | cons b fixed ih =>
    cases b with
    | true =>
      obtain ⟨rest, heq, hperm⟩ := ih (placed ++ g.arrange placed segment ++ [source]) [] (source + 1)
      refine ⟨g.arrange placed segment ++ source :: rest, by rw [orderFrom, heq]; simp, ?_⟩
      rw [List.length_cons, List.range'_succ]
      exact (g.arrange_perm placed segment).append (hperm.cons source)
    | false =>
      obtain ⟨rest, heq, hperm⟩ := ih placed (segment ++ [source]) (source + 1)
      refine ⟨rest, heq, ?_⟩
      rw [List.length_cons, List.range'_succ]
      simpa using hperm

/-- Source 0 comes first, and the others follow in some order. -/
theorem order_eq_cons (fixed : List Bool) :
    ∃ rest, g.order fixed = 0 :: rest ∧ rest.Perm (List.range' 1 fixed.tail.length) := by
  obtain ⟨rest, heq, hperm⟩ := g.orderFrom_eq_append [0] [] 1 fixed.tail
  exact ⟨rest, heq, hperm⟩

/-- The order holds each source of the scope once. -/
theorem order_perm {fixed : List Bool} (h : fixed ≠ []) :
    (g.order fixed).Perm (List.range fixed.length) := by
  obtain ⟨b, fixed, rfl⟩ := List.exists_cons_of_ne_nil h
  obtain ⟨rest, heq, hperm⟩ := g.order_eq_cons (b :: fixed)
  rw [heq, List.range_eq_range', List.length_cons, List.range'_succ]
  exact hperm.cons 0

theorem order_nodup (fixed : List Bool) : (g.order fixed).Nodup := by
  obtain ⟨rest, heq, hperm⟩ := g.order_eq_cons fixed
  rw [heq]
  have hrange : (List.range' 0 (fixed.tail.length + 1)).Nodup := List.nodup_range'
  rw [List.range'_succ] at hrange
  exact (hperm.cons 0).nodup_iff.mpr hrange

theorem mem_order {fixed : List Bool} {s : Nat} (h : s < fixed.length) : s ∈ g.order fixed := by
  have hne : fixed ≠ [] := by
    rintro rfl
    simp at h
  exact (g.order_perm hne).mem_iff.mpr (List.mem_range.mpr h)

/-- A fixed source of those still to come splits the order at its own number. -/
theorem orderFrom_split (placed segment : List Nat) (source : Nat) {k : Nat} {fixed : List Bool}
    (h : fixed[k]? = some true) :
    ∃ l r, g.orderFrom placed segment source fixed = placed ++ l ++ (source + k) :: r ∧
      l.Perm (segment ++ List.range' source k) ∧
      r.Perm (List.range' (source + k + 1) (fixed.length - (k + 1))) := by
  induction fixed generalizing placed segment source k with
  | nil => simp at h
  | cons b fixed ih =>
    cases k with
    | zero =>
      obtain rfl : b = true := by simpa using h
      obtain ⟨rest, heq, hperm⟩ :=
        g.orderFrom_eq_append (placed ++ g.arrange placed segment ++ [source]) [] (source + 1) fixed
      refine ⟨g.arrange placed segment, rest, by rw [orderFrom, heq]; simp, ?_,
        by simpa using hperm⟩
      simpa using g.arrange_perm placed segment
    | succ k =>
      rw [List.getElem?_cons_succ] at h
      have hnum : source + 1 + k = source + (k + 1) := by omega
      have hlen : (b :: fixed).length - (k + 1 + 1) = fixed.length - (k + 1) := by simp
      rw [← hnum, hlen, List.range'_succ]
      cases b with
      | true =>
        obtain ⟨l, r, heq, hl, hr⟩ :=
          ih (placed ++ g.arrange placed segment ++ [source]) [] (source + 1) h
        refine ⟨g.arrange placed segment ++ source :: l, r, by rw [orderFrom, heq]; simp, ?_, hr⟩
        exact (g.arrange_perm placed segment).append (hl.cons source)
      | false =>
        obtain ⟨l, r, heq, hl, hr⟩ := ih placed (segment ++ [source]) (source + 1) h
        exact ⟨l, r, heq, by simpa using hl, hr⟩

/-- **A fixed source keeps its place**: exactly the sources declared before it are
joined before it. -/
theorem order_split {fixed : List Bool} {j : Nat} (h : fixed[j]? = some true) :
    ∃ l r, g.order fixed = l ++ j :: r ∧ l.Perm (List.range j) ∧
      r.Perm (List.range' (j + 1) (fixed.length - (j + 1))) := by
  obtain ⟨b, fixed, rfl⟩ := List.exists_cons_of_ne_nil (l := fixed) (by rintro rfl; simp at h)
  cases j with
  | zero =>
    obtain ⟨rest, heq, hperm⟩ := g.order_eq_cons (b :: fixed)
    exact ⟨[], rest, heq, .refl _, by simpa using hperm⟩
  | succ k =>
    rw [List.getElem?_cons_succ] at h
    obtain ⟨l, r, heq, hl, hr⟩ := g.orderFrom_split [0] [] 1 h
    have hnum : 1 + k = k + 1 := by omega
    rw [hnum] at heq hr
    refine ⟨0 :: l, r, heq, ?_, by simpa using hr⟩
    rw [List.range_eq_range', List.range'_succ]
    exact hl.cons 0

theorem before_fixed_iff {fixed : List Bool} {j s : Nat} (h : fixed[j]? = some true) :
    Before (g.order fixed) s j ↔ s < j := by
  obtain ⟨l, r, heq, hl, -⟩ := g.order_split h
  have hn := g.order_nodup fixed
  rw [heq] at hn ⊢
  rw [before_append_cons_iff hn, hl.mem_iff, List.mem_range]

/-- Source 0 is joined before every other one. -/
theorem before_of_pos {fixed : List Bool} {s : Nat} (h : s < fixed.length) (hpos : 0 < s) :
    Before (g.order fixed) 0 s := by
  obtain ⟨rest, heq, -⟩ := g.order_eq_cons fixed
  have hmem := g.mem_order h
  rw [heq] at hmem
  obtain ⟨l, r, hrest⟩ := List.append_of_mem ((List.mem_cons.mp hmem).resolve_left (by omega))
  exact ⟨0 :: l, r, by rw [heq, hrest]; rfl, List.mem_cons_self⟩

theorem not_before_zero (fixed : List Bool) (s : Nat) : ¬ Before (g.order fixed) s 0 := by
  obtain ⟨rest, heq, -⟩ := g.order_eq_cons fixed
  have hn := g.order_nodup fixed
  rw [heq] at hn ⊢
  intro h
  cases (before_append_cons_iff (l := []) hn).mp h

/-! ### The later side of an equality -/

theorem touches_laterSource (order : List Nat) (q : Equality) :
    q.touches (laterSource order q) = true := by
  unfold laterSource
  split
  · exact Equality.touches_left
  · exact Equality.touches_right

/-- The other side of an equality comes before its later side. -/
theorem before_laterSource {order : List Nat} {q : Equality} (hn : order.Nodup)
    (hl : q.leftSource ∈ order) (hr : q.rightSource ∈ order)
    (hne : q.leftSource ≠ q.rightSource) :
    Before order (q.partnerOf (laterSource order q)) (laterSource order q) := by
  unfold laterSource
  split
  · rename_i h
    rw [Equality.partnerOf_left]
    exact before_of_rank_lt hn hr hl h
  · rename_i h
    rw [Equality.partnerOf_right hne]
    rcases before_or_before hl hr hne with hbefore | hbefore
    · exact hbefore
    · exact absurd (rank_lt_of_before hn hbefore) h

theorem laterSource_eq_of_before {order : List Nat} {q : Equality} {j : Nat} (hn : order.Nodup)
    (ht : q.touches j = true) (h : Before order (q.partnerOf j) j) :
    laterSource order q = j := by
  have hrank := rank_lt_of_before hn h
  unfold laterSource
  by_cases hl : q.leftSource = j
  · subst hl
    rw [Equality.partnerOf_left] at hrank
    exact if_pos hrank
  · have hr : q.rightSource = j := (Equality.touches_iff.mp ht).resolve_left hl
    subst hr
    rw [Equality.partnerOf_right hl] at hrank
    exact if_neg (by omega)

/-! ### Criteria -/

theorem edge_of_mem_criteria {order : List Nat} {s : Nat} {e : Expr}
    (h : e ∈ g.criteria order s) :
    ∃ q ∈ g.edges, laterSource order q = s ∧ e = q.startingAt s := by
  obtain ⟨q, hq, rfl⟩ :=
    List.mem_map.mp ((Expr.mem_of_mem_extendDistinct h).resolve_left List.not_mem_nil)
  obtain ⟨hq, hlater⟩ := List.mem_filter.mp hq
  exact ⟨q, hq, of_decide_eq_true hlater, rfl⟩

/-- Every equality is a criterion of its later side, up to its spelling. -/
theorem exists_text_eq_mem_criteria (order : List Nat) {q : Equality} (h : q ∈ g.edges) :
    ∃ e ∈ g.criteria order (laterSource order q),
      e.text = (q.startingAt (laterSource order q)).text := by
  apply Expr.exists_text_eq_mem_extendDistinct
  simp only [List.mem_map, List.mem_filter, decide_eq_true_eq]
  exact ⟨q, ⟨h, rfl⟩, rfl⟩

theorem mem_text_criteria_iff (order : List Nat) (s : Nat) {text : String} :
    text ∈ (g.criteria order s).map Expr.text ↔
      ∃ e ∈ g.edges, laterSource order e = s ∧ (e.startingAt s).text = text := by
  rw [List.mem_map]
  constructor
  · rintro ⟨e, he, rfl⟩
    obtain ⟨q, hq, hlater, rfl⟩ := g.edge_of_mem_criteria he
    exact ⟨q, hq, hlater, rfl⟩
  · rintro ⟨q, hq, rfl, rfl⟩
    exact g.exists_text_eq_mem_criteria order hq

theorem nodup_text_criteria (order : List Nat) (s : Nat) :
    ((g.criteria order s).map Expr.text).Nodup := by
  rw [List.Nodup, List.pairwise_map, criteria, Expr.extendDistinct_nil]
  exact Expr.pairwise_eraseDupsBy _

end SeriesQuery.JoinGraph
