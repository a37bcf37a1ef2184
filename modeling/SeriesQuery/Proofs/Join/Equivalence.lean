import Mathlib.Logic.Relation
import SeriesQuery.Join.Equivalence

/-!
The search for equal columns is the transitive closure of the recorded equalities.

`lookup_add` and `linked_add` say what one more equality adds, `lookup_ofEqualities` and
`linked_ofEqualities` what a list of them comes to; the search is then followed once, in
`mem_spread` and `spread_closed`. `mem_equalColumns` is what the rest of the theory uses.
-/

namespace SeriesQuery

open Relation

namespace Equality

/-- An equality between columns is recorded as a link between two keys, in the order of
its sides. -/
def Spells (q : Equality) (a b : ColumnKey) : Prop :=
  ColumnKey.ofExpr? q.leftSource q.left = some a ∧ ColumnKey.ofExpr? q.rightSource q.right = some b

/-- An equality equates two columns, on whichever side they stand. -/
def Equates (q : Equality) (a b : ColumnKey) : Prop :=
  q.Spells a b ∨ q.Spells b a

/-- A side of an equality is the given spelling of a column. -/
def Mentions (q : Equality) (key : ColumnKey) (spelling : Expr) : Prop :=
  (ColumnKey.ofExpr? q.leftSource q.left = some key ∧ spelling = q.left) ∨
    (ColumnKey.ofExpr? q.rightSource q.right = some key ∧ spelling = q.right)

theorem Equates.symm {q : Equality} {a b : ColumnKey} (h : q.Equates a b) : q.Equates b a :=
  Or.symm h

theorem Equates.exists_mentions {q : Equality} {a b : ColumnKey} (h : q.Equates a b) :
    ∃ spelling, q.Mentions a spelling := by
  rcases h with ⟨ha, -⟩ | ⟨-, ha⟩
  · exact ⟨q.left, Or.inl ⟨ha, rfl⟩⟩
  · exact ⟨q.right, Or.inr ⟨ha, rfl⟩⟩

end Equality

namespace Equivalence

variable {q : Equivalence}

/-! ### What is recorded -/

theorem mem_columns_iff {key : ColumnKey} :
    key ∈ q.columns.map Prod.fst ↔ ∃ e, q.columns.lookup key = some e := by
  rw [← Option.isSome_iff_exists, List.lookup_isSome_iff]
  simp only [List.mem_map, beq_iff_eq]
  constructor
  · rintro ⟨⟨k, e⟩, hmem, rfl⟩
    exact ⟨_, hmem, rfl⟩
  · rintro ⟨p, hmem, rfl⟩
    exact ⟨p, hmem, rfl⟩

/-- A column keeps the spelling it was first mentioned with. -/
theorem lookup_mention (q : Equivalence) (key k : ColumnKey) (e : Expr) :
    (q.mention key e).columns.lookup k =
      (q.columns.lookup k).or (if k = key then some e else none) := by
  unfold mention
  split
  · rename_i hknown
    by_cases hk : k = key
    · subst hk
      obtain ⟨e', he'⟩ := Option.isSome_iff_exists.mp hknown
      simp [he']
    · simp [hk]
  · simp only [List.lookup_append, List.lookup_cons, List.lookup_nil]
    by_cases hk : k = key
    · simp [hk]
    · simp [hk, beq_false_of_ne hk]

theorem lookup_mentionExpr (q : Equivalence) (source : Nat) (e : Expr) (k : ColumnKey) :
    (q.mentionExpr source e).columns.lookup k =
      (q.columns.lookup k).or (if ColumnKey.ofExpr? source e = some k then some e else none) := by
  unfold mentionExpr
  cases hkey : ColumnKey.ofExpr? source e with
  | none => simp
  | some key => simp [lookup_mention, eq_comm (a := k)]

theorem links_mentionExpr (q : Equivalence) (source : Nat) (e : Expr) :
    (q.mentionExpr source e).links = q.links := by
  unfold mentionExpr mention
  split
  · split <;> rfl
  · rfl

theorem columns_link (q : Equivalence) (a b : ColumnKey) : (q.link a b).columns = q.columns := by
  unfold link
  split <;> rfl

theorem linked_link (q : Equivalence) (a b c d : ColumnKey) :
    (q.link a b).linked c d = true ↔
      q.linked c d = true ∨ (a = c ∧ b = d) ∨ (a = d ∧ b = c) := by
  unfold link
  split
  · rename_i hknown
    constructor
    · exact Or.inl
    · rintro (h | ⟨rfl, rfl⟩ | ⟨rfl, rfl⟩)
      · exact h
      · exact hknown
      · simpa only [linked, Bool.or_comm] using hknown
  · simp only [linked, List.any_cons, Bool.or_eq_true, decide_eq_true_eq, Prod.mk.injEq]
    constructor
    · rintro (h | h)
      · exact Or.inr h
      · exact Or.inl h
    · rintro (h | h)
      · exact Or.inr h
      · exact Or.inl h

theorem lookup_add (q : Equivalence) (e : Equality) (k : ColumnKey) :
    (q.add e).columns.lookup k =
      ((q.columns.lookup k).or
        (if ColumnKey.ofExpr? e.leftSource e.left = some k then some e.left else none)).or
        (if ColumnKey.ofExpr? e.rightSource e.right = some k then some e.right else none) := by
  have hcolumns : (q.add e).columns =
      ((q.mentionExpr e.leftSource e.left).mentionExpr e.rightSource e.right).columns := by
    unfold add
    split
    · exact columns_link _ _ _
    · rfl
  rw [hcolumns, lookup_mentionExpr, lookup_mentionExpr]

theorem linked_add (q : Equivalence) (e : Equality) (a b : ColumnKey) :
    (q.add e).linked a b = true ↔ q.linked a b = true ∨ e.Equates a b := by
  have hlinks : ∀ c d, ((q.mentionExpr e.leftSource e.left).mentionExpr
      e.rightSource e.right).linked c d = q.linked c d := by
    intro c d
    simp only [linked, links_mentionExpr]
  unfold add Equality.Equates Equality.Spells
  split
  · rename_i l r hl hr
    rw [linked_link, hlinks]
    simp only [hl, hr, Option.some.injEq]
  · rename_i hnone
    rw [hlinks]
    constructor
    · exact Or.inl
    · rintro (h | ⟨hl, hr⟩ | ⟨hl, hr⟩)
      · exact h
      · exact absurd hr (hnone _ _ hl)
      · exact absurd hr (hnone _ _ hl)

/-! ### What a list of equalities comes to -/

/-- What is known once the equalities have been recorded. -/
abbrev ofEqualities (es : List Equality) : Equivalence :=
  es.foldl add empty

theorem lookup_foldl_add {es : List Equality} {key : ColumnKey} {spelling : Expr}
    (h : (es.foldl add q).columns.lookup key = some spelling) :
    q.columns.lookup key = some spelling ∨ ∃ e ∈ es, e.Mentions key spelling := by
  induction es generalizing q with
  | nil => exact Or.inl h
  | cons e es ih =>
    rcases ih h with h | ⟨e', he', h⟩
    · rw [lookup_add, Option.or_eq_some_iff, Option.or_eq_some_iff] at h
      rcases h with (h | ⟨-, h⟩) | ⟨-, h⟩
      · exact Or.inl h
      · obtain ⟨hkey, rfl⟩ := by simpa using h
        exact Or.inr ⟨e, List.mem_cons_self, Or.inl ⟨hkey, rfl⟩⟩
      · obtain ⟨hkey, rfl⟩ := by simpa using h
        exact Or.inr ⟨e, List.mem_cons_self, Or.inr ⟨hkey, rfl⟩⟩
    · exact Or.inr ⟨e', List.mem_cons_of_mem _ he', h⟩

theorem lookup_ofEqualities {es : List Equality} {key : ColumnKey} {spelling : Expr}
    (h : (ofEqualities es).columns.lookup key = some spelling) :
    ∃ e ∈ es, e.Mentions key spelling := by
  rcases lookup_foldl_add h with h | h
  · simp [empty] at h
  · exact h

/-- A column stays known. -/
theorem isSome_lookup_foldl_add {es : List Equality} {key : ColumnKey}
    (h : (q.columns.lookup key).isSome) : ((es.foldl add q).columns.lookup key).isSome := by
  induction es generalizing q with
  | nil => exact h
  | cons e es ih =>
    apply ih
    rw [lookup_add]
    obtain ⟨spelling, hspelling⟩ := Option.isSome_iff_exists.mp h
    simp [hspelling]

theorem isSome_lookup_of_mentions {es : List Equality} {e : Equality} {key : ColumnKey}
    {spelling : Expr} (he : e ∈ es) (h : e.Mentions key spelling) :
    ((es.foldl add q).columns.lookup key).isSome := by
  induction es generalizing q with
  | nil => cases he
  | cons first es ih =>
    rcases List.mem_cons.mp he with rfl | he
    · rw [List.foldl_cons]
      apply isSome_lookup_foldl_add
      rw [lookup_add]
      rcases h with ⟨hkey, -⟩ | ⟨hkey, -⟩
      · simp [hkey]
      · simp [hkey]
    · exact ih he

theorem linked_foldl_add {es : List Equality} {a b : ColumnKey} :
    (es.foldl add q).linked a b = true ↔ q.linked a b = true ∨ ∃ e ∈ es, e.Equates a b := by
  induction es generalizing q with
  | nil => simp
  | cons e es ih =>
    rw [List.foldl_cons, ih, linked_add, or_assoc]
    simp only [List.mem_cons, exists_eq_or_imp]

theorem linked_ofEqualities {es : List Equality} {a b : ColumnKey} :
    (ofEqualities es).linked a b = true ↔ ∃ e ∈ es, e.Equates a b := by
  rw [linked_foldl_add]
  simp [linked, empty]

/-! ### The search -/

theorem mem_neighbours {a b : ColumnKey} : b ∈ q.neighbours a ↔ q.linked a b = true := by
  simp only [neighbours, linked, List.mem_append, List.mem_filterMap, List.any_eq_true,
    Bool.or_eq_true, decide_eq_true_eq]
  constructor
  · rintro (⟨⟨x, y⟩, hmem, h⟩ | ⟨⟨x, y⟩, hmem, h⟩)
    · simp only [Option.ite_none_right_eq_some, Option.some.injEq] at h
      obtain ⟨rfl, rfl⟩ := h
      exact ⟨_, hmem, Or.inl rfl⟩
    · simp only [Option.ite_none_right_eq_some, Option.some.injEq] at h
      obtain ⟨⟨rfl, -⟩, rfl⟩ := h
      exact ⟨_, hmem, Or.inr rfl⟩
  · rintro ⟨link, hmem, rfl | rfl⟩
    · exact Or.inl ⟨_, hmem, if_pos rfl⟩
    · by_cases hab : b = a
      · subst hab
        exact Or.inl ⟨_, hmem, if_pos rfl⟩
      · exact Or.inr ⟨_, hmem, if_pos ⟨rfl, hab⟩⟩

theorem mem_discover_queue {unvisited queue keys : List ColumnKey} {k : ColumnKey}
    (h : k ∈ (discover unvisited queue keys).2) : k ∈ queue ∨ k ∈ keys := by
  fun_induction discover unvisited queue keys with
  | case1 => exact Or.inl h
  | case2 unvisited queue key keys _ ih =>
    rcases ih h with h | h
    · rcases List.mem_append.mp h with h | h
      · exact Or.inl h
      · exact Or.inr (by simpa using Or.inl (List.mem_singleton.mp h))
    · exact Or.inr (List.mem_cons_of_mem _ h)
  | case3 unvisited queue key keys _ ih =>
    rcases ih h with h | h
    · exact Or.inl h
    · exact Or.inr (List.mem_cons_of_mem _ h)

theorem mem_discover_of_mem_queue {unvisited queue keys : List ColumnKey} {k : ColumnKey}
    (h : k ∈ queue) : k ∈ (discover unvisited queue keys).2 := by
  fun_induction discover unvisited queue keys with
  | case1 => exact h
  | case2 unvisited queue key keys _ ih => exact ih (List.mem_append_left _ h)
  | case3 unvisited queue key keys _ ih => exact ih h

/-- What has not been visited before is still unvisited or now in the queue; in the queue
it is if it was discovered. -/
theorem mem_discover_of_mem_unvisited {unvisited : List ColumnKey} (queue keys : List ColumnKey)
    {k : ColumnKey} (h : k ∈ unvisited) :
    k ∈ (discover unvisited queue keys).2 ∨
      (k ∉ keys ∧ k ∈ (discover unvisited queue keys).1) := by
  fun_induction discover unvisited queue keys with
  | case1 => exact Or.inr ⟨List.not_mem_nil, h⟩
  | case2 unvisited queue key keys hkey ih =>
    by_cases hk : k = key
    · subst hk
      exact Or.inl (mem_discover_of_mem_queue (List.mem_append_right _ List.mem_cons_self))
    · rcases ih ((List.mem_erase_of_ne hk).mpr h) with h | ⟨hkeys, h⟩
      · exact Or.inl h
      · exact Or.inr ⟨by simp [hk, hkeys], h⟩
  | case3 unvisited queue key keys hkey ih =>
    have hk : k ≠ key := by
      rintro rfl
      exact hkey h
    rcases ih h with h | ⟨hkeys, h⟩
    · exact Or.inl h
    · exact Or.inr ⟨by simp [hk, hkeys], h⟩

theorem mem_spread_of_mem_queue {unvisited queue : List ColumnKey} {k : ColumnKey}
    (h : k ∈ queue) : k ∈ q.spread unvisited queue := by
  fun_induction spread q unvisited queue with
  | case1 => exact h
  | case2 unvisited key queue ih =>
    rcases List.mem_cons.mp h with rfl | h
    · exact List.mem_cons_self
    · exact List.mem_cons_of_mem _ (ih (mem_discover_of_mem_queue h))

/-- Whatever the search reaches is linked by a chain to where it started. -/
theorem mem_spread {unvisited queue : List ColumnKey} {k : ColumnKey}
    (h : k ∈ q.spread unvisited queue) :
    ∃ start ∈ queue, ReflTransGen (fun a b => q.linked a b = true) start k := by
  fun_induction spread q unvisited queue with
  | case1 => cases h
  | case2 unvisited key queue ih =>
    rcases List.mem_cons.mp h with rfl | h
    · exact ⟨k, List.mem_cons_self, .refl⟩
    · obtain ⟨start, hstart, hchain⟩ := ih h
      rcases mem_discover_queue hstart with hqueue | hnew
      · exact ⟨start, List.mem_cons_of_mem _ hqueue, hchain⟩
      · exact ⟨key, List.mem_cons_self, .head (mem_neighbours.mp hnew) hchain⟩

/-- The search goes on from everything it reaches to everything still unvisited. -/
theorem spread_closed {unvisited queue : List ColumnKey} {a b : ColumnKey}
    (ha : a ∈ q.spread unvisited queue) (hlink : q.linked a b = true) (hb : b ∈ unvisited) :
    b ∈ q.spread unvisited queue := by
  fun_induction spread q unvisited queue with
  | case1 => cases ha
  | case2 unvisited key queue ih =>
    apply List.mem_cons_of_mem
    rcases mem_discover_of_mem_unvisited queue (q.neighbours key) hb with
      hqueue | ⟨hnew, hleft⟩
    · exact mem_spread_of_mem_queue hqueue
    · rcases List.mem_cons.mp ha with rfl | ha
      · exact absurd (mem_neighbours.mpr hlink) hnew
      · exact ih ha hleft

/-- What is reached from a known column is what chains of links lead to, when the columns
of all links are known. -/
theorem mem_reachable {start k : ColumnKey}
    (hknown : ∀ a b, q.linked a b = true → b ∈ q.columns.map Prod.fst) :
    k ∈ q.reachable start ↔ ReflTransGen (fun a b => q.linked a b = true) start k := by
  constructor
  · intro h
    obtain ⟨s, hs, hchain⟩ := mem_spread h
    rwa [List.mem_singleton.mp hs] at hchain
  · intro h
    induction h with
    | refl => exact mem_spread_of_mem_queue List.mem_cons_self
    | tail _ hlink ih =>
      rename_i b c _
      by_cases hc : c = start
      · subst hc
        exact mem_spread_of_mem_queue List.mem_cons_self
      · exact spread_closed ih hlink ((List.mem_erase_of_ne hc).mpr (hknown _ _ hlink))

theorem mem_columns_of_linked {es : List Equality} {a b : ColumnKey}
    (h : (ofEqualities es).linked a b = true) : b ∈ (ofEqualities es).columns.map Prod.fst := by
  obtain ⟨e, he, hequates⟩ := linked_ofEqualities.mp h
  obtain ⟨spelling, hmentions⟩ := hequates.symm.exists_mentions
  rw [mem_columns_iff, ← Option.isSome_iff_exists]
  exact isSome_lookup_of_mentions he hmentions

/-- Two columns are linked by a chain of equalities of the list. -/
def Chained (es : List Equality) : ColumnKey → ColumnKey → Prop :=
  ReflTransGen fun a b => ∃ e ∈ es, e.Equates a b

/-- From a column the search reaches what chains of the equalities lead to. -/
theorem mem_reachable_iff_chained {es : List Equality} {start key : ColumnKey} :
    key ∈ (ofEqualities es).reachable start ↔ Chained es start key := by
  have hlinked : (fun a b => (ofEqualities es).linked a b = true) =
      fun a b => ∃ e ∈ es, e.Equates a b := by
    funext a b
    exact propext linked_ofEqualities
  rw [mem_reachable fun a b h => mem_columns_of_linked h, hlinked]
  rfl

/-- A column that no equality mentions is chained to none but itself. -/
theorem eq_of_chained_of_unknown {es : List Equality} {start key : ColumnKey}
    (h : Chained es start key) (hunknown : ¬ ((ofEqualities es).columns.lookup start).isSome) :
    key = start := by
  rcases ReflTransGen.cases_head h with rfl | ⟨next, ⟨e, he, hequates⟩, -⟩
  · rfl
  · obtain ⟨spelling, hmentions⟩ := hequates.exists_mentions
    exact absurd (isSome_lookup_of_mentions he hmentions) hunknown

/-- **The search is the transitive closure**: the columns found equal to a column are those
of other sources that a chain of recorded equalities leads to, as they were first spelled. -/
theorem mem_equalColumns {es : List Equality} {source t : Nat} {ref : ColumnRef} {e : Expr} :
    (t, e) ∈ (ofEqualities es).equalColumns source ref ↔
      t ≠ source ∧ ∃ key, key.source = t ∧ (ofEqualities es).columns.lookup key = some e ∧
        Chained es (.ofRef source ref) key := by
  have hfound : (t, e) ∈ (((ofEqualities es).reachable (.ofRef source ref)).filter
      fun key => key.source ≠ source).filterMap
        (fun key => ((ofEqualities es).columns.lookup key).map fun e => (key.source, e)) ↔
      t ≠ source ∧ ∃ key, key.source = t ∧ (ofEqualities es).columns.lookup key = some e ∧
        Chained es (.ofRef source ref) key := by
    simp only [List.mem_filterMap, List.mem_filter, mem_reachable_iff_chained, decide_eq_true_eq,
      Option.map_eq_some_iff, Prod.mk.injEq]
    constructor
    · rintro ⟨key, ⟨hchain, hne⟩, _, hlookup, rfl, rfl⟩
      exact ⟨hne, key, rfl, hlookup, hchain⟩
    · rintro ⟨hne, key, rfl, hlookup, hchain⟩
      exact ⟨key, ⟨hchain, hne⟩, e, hlookup, rfl, rfl⟩
  rw [← hfound, equalColumns]
  split
  · exact (List.mergeSort_perm _ _).mem_iff
  · rename_i hunknown
    constructor
    · intro h
      cases h
    · intro h
      obtain ⟨hne, key, rfl, -, hchain⟩ := hfound.mp h
      exact absurd (congrArg ColumnKey.source (eq_of_chained_of_unknown hchain hunknown)) hne

end Equivalence

end SeriesQuery
