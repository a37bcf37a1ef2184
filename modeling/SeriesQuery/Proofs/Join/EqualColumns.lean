import Mathlib.Data.List.Forall2
import Mathlib.Data.List.Nodup
import Mathlib.Data.List.Perm.Subperm
import SeriesQuery.Proofs.Join.Equivalence

/-!
What the search for equal columns answers, column by column.

No column is found twice: a column that is discovered leaves the unvisited ones (`perm_discover`), and
no column is recorded twice (`nodup_foldl_add`). So the answer lists the columns that chains of
recorded equalities lead to, each once, in the order of their sources and as they were first spelled
(`exists_keys_equalColumns`).
-/

namespace SeriesQuery

open Relation

/-- The columns on the sides of an equality as they are spelled there, the left one first. -/
def Equality.spellings (q : Equality) : List (ColumnKey × Expr) :=
  ((ColumnKey.ofExpr? q.leftSource q.left).map fun key => (key, q.left)).toList ++
    ((ColumnKey.ofExpr? q.rightSource q.right).map fun key => (key, q.right)).toList

namespace Equivalence

variable {q : Equivalence} {es : List Equality}

/-! ### First spellings -/

/-- How a column is spelled in the first equality that mentions it. -/
def firstSpelling? (es : List Equality) (key : ColumnKey) : Option Expr :=
  (es.flatMap Equality.spellings).lookup key

theorem lookup_spelling (key : ColumnKey) (side : Option ColumnKey) (e : Expr) :
    (side.map fun k => (k, e)).toList.lookup key = if side = some key then some e else none := by
  cases side with
  | none => rfl
  | some k =>
    by_cases hk : key = k
    · simp [hk]
    · simp [hk, Ne.symm hk]

/-- A column is known by the first spelling that is recorded. -/
theorem lookup_foldl_add_eq (q : Equivalence) (es : List Equality) (key : ColumnKey) :
    (es.foldl add q).columns.lookup key = (q.columns.lookup key).or (firstSpelling? es key) := by
  induction es generalizing q with
  | nil => simp [firstSpelling?]
  | cons e es ih =>
    have hfirst : firstSpelling? (e :: es) key =
        ((if ColumnKey.ofExpr? e.leftSource e.left = some key then some e.left else none).or
          (if ColumnKey.ofExpr? e.rightSource e.right = some key then some e.right else none)).or
            (firstSpelling? es key) := by
      rw [firstSpelling?, List.flatMap_cons, List.lookup_append, Equality.spellings,
        List.lookup_append, lookup_spelling, lookup_spelling, firstSpelling?]
    rw [List.foldl_cons, ih, lookup_add, hfirst]
    simp only [Option.or_assoc]

theorem lookup_ofEqualities_eq (es : List Equality) (key : ColumnKey) :
    (ofEqualities es).columns.lookup key = firstSpelling? es key := by
  rw [lookup_foldl_add_eq]
  simp [empty]

theorem isSome_firstSpelling? {e : Equality} {key : ColumnKey} {spelling : Expr} (he : e ∈ es)
    (h : e.Mentions key spelling) : (firstSpelling? es key).isSome := by
  rw [← lookup_ofEqualities_eq]
  exact isSome_lookup_of_mentions he h

/-- A column that a chain leads to from another one is mentioned by the last link. -/
theorem isSome_firstSpelling?_of_chained {a b : ColumnKey} (h : Chained es a b) (hne : a ≠ b) :
    (firstSpelling? es b).isSome := by
  rcases ReflTransGen.cases_tail h with rfl | ⟨_, -, e, he, hequates⟩
  · exact absurd rfl hne
  · obtain ⟨spelling, hmentions⟩ := hequates.symm.exists_mentions
    exact isSome_firstSpelling? he hmentions

/-! ### No column is found twice -/

/-- What is discovered moves from the unvisited columns to the queue. -/
theorem perm_discover (unvisited queue keys : List ColumnKey) :
    ((discover unvisited queue keys).1 ++ (discover unvisited queue keys).2).Perm
      (unvisited ++ queue) := by
  fun_induction discover unvisited queue keys with
  | case1 => exact .refl _
  | case2 unvisited queue key keys hkey ih =>
    refine ih.trans ?_
    have hmoved : (unvisited.erase key ++ (queue ++ [key])).Perm
        (key :: (unvisited.erase key ++ queue)) := by
      rw [← List.append_assoc]
      exact List.perm_append_singleton _ _
    exact hmoved.trans ((List.perm_cons_erase hkey).symm.append_right queue)
  | case3 _ _ _ _ _ ih => exact ih

/-- The search takes every column from the unvisited ones or the queue, and takes it once. -/
theorem spread_subperm (q : Equivalence) (unvisited queue : List ColumnKey) :
    List.Subperm (q.spread unvisited queue) (unvisited ++ queue) := by
  fun_induction spread q unvisited queue with
  | case1 => exact List.nil_subperm
  | case2 unvisited key queue ih =>
    have hrest := ih.trans (perm_discover unvisited queue (q.neighbours key)).subperm
    exact ((List.subperm_cons key).mpr hrest).trans List.perm_middle.symm.subperm

theorem nodup_mention {key : ColumnKey} {spelling : Expr} (h : (q.columns.map Prod.fst).Nodup) :
    ((q.mention key spelling).columns.map Prod.fst).Nodup := by
  unfold mention
  split
  · exact h
  · rename_i hunknown
    have hnew : key ∉ q.columns.map Prod.fst := by
      rwa [mem_columns_iff, ← Option.isSome_iff_exists]
    rw [List.map_append]
    exact List.Nodup.append h (List.nodup_singleton key) (List.disjoint_singleton.mpr hnew)

theorem nodup_add {e : Equality} (h : (q.columns.map Prod.fst).Nodup) :
    ((q.add e).columns.map Prod.fst).Nodup := by
  have hexpr : ∀ {q : Equivalence} (source : Nat) (side : Expr), (q.columns.map Prod.fst).Nodup →
      ((q.mentionExpr source side).columns.map Prod.fst).Nodup := by
    intro q source side h
    unfold mentionExpr
    split
    · exact nodup_mention h
    · exact h
  have hsides := hexpr e.rightSource e.right (hexpr e.leftSource e.left h)
  unfold add
  split
  · rwa [columns_link]
  · exact hsides

/-- No column is recorded twice. -/
theorem nodup_foldl_add (h : (q.columns.map Prod.fst).Nodup) :
    ((es.foldl add q).columns.map Prod.fst).Nodup := by
  induction es generalizing q with
  | nil => exact h
  | cons e es ih => exact ih (nodup_add h)

/-- No column is reached twice. -/
theorem nodup_reachable (es : List Equality) (start : ColumnKey) :
    ((ofEqualities es).reachable start).Nodup := by
  have hstart : (((ofEqualities es).columns.map Prod.fst).erase start ++ [start]).Nodup := by
    have hknown : ((ofEqualities es).columns.map Prod.fst).Nodup := nodup_foldl_add List.nodup_nil
    exact List.Nodup.append (hknown.erase start) (List.nodup_singleton start)
      (List.disjoint_singleton.mpr hknown.not_mem_erase)
  obtain ⟨taken, hperm, hsub⟩ := spread_subperm (ofEqualities es)
    (((ofEqualities es).columns.map Prod.fst).erase start) [start]
  exact hperm.nodup_iff.mp (hstart.sublist hsub)

/-! ### The answer -/

/-- The columns found are those of `keys`, as they were first spelled. -/
def Spelled (es : List Equality) (keys : List ColumnKey) (found : List (Nat × Expr)) : Prop :=
  List.Forall₂ (fun key f => f.1 = key.source ∧ firstSpelling? es key = some f.2) keys found

/-- Columns of known keys are found with their spellings. -/
theorem spelled_filterMap {keys : List ColumnKey} (h : ∀ key ∈ keys, (firstSpelling? es key).isSome) :
    Spelled es keys (keys.filterMap fun key =>
      ((ofEqualities es).columns.lookup key).map fun e => (key.source, e)) := by
  induction keys with
  | nil => exact .nil
  | cons key keys ih =>
    obtain ⟨hkey, hkeys⟩ := List.forall_mem_cons.mp h
    obtain ⟨e, he⟩ := Option.isSome_iff_exists.mp hkey
    rw [List.filterMap_cons, lookup_ofEqualities_eq, he]
    exact .cons ⟨rfl, he⟩ (ih hkeys)

/-- A rearrangement of what is found is what is found of a rearrangement of the columns. -/
theorem Spelled.exists_perm {keys : List ColumnKey} {found found' : List (Nat × Expr)}
    (h : Spelled es keys found) (hperm : found'.Perm found) :
    ∃ keys' : List ColumnKey, keys'.Perm keys ∧ Spelled es keys' found' := by
  obtain ⟨keys', hspelled, hkeys⟩ := List.perm_comp_forall₂ hperm h.flip
  exact ⟨keys', hkeys, hspelled.flip⟩

/-- The columns found have the sources of the keys. -/
theorem Spelled.map_source {keys : List ColumnKey} {found : List (Nat × Expr)}
    (h : Spelled es keys found) : keys.map ColumnKey.source = found.map Prod.fst := by
  induction h with
  | nil => rfl
  | cons hfirst _ ih => rw [List.map_cons, List.map_cons, ih, hfirst.1]

theorem pairwise_mergeSort_fst (found : List (Nat × Expr)) :
    (found.mergeSort fun a b => a.1 ≤ b.1).Pairwise fun a b => a.1 ≤ b.1 := by
  have hsorted : (found.mergeSort fun a b => a.1 ≤ b.1).Pairwise
      fun a b => decide (a.1 ≤ b.1) = true :=
    List.pairwise_mergeSort (by simp; omega) (by simp; omega) found
  simpa using hsorted

/-- The columns found are the equal ones, each once: the search answers the columns of other
sources that a chain of recorded equalities leads to, one after the other in the order of their
sources, each as it was first spelled. -/
theorem exists_keys_equalColumns (es : List Equality) (source : Nat) (ref : ColumnRef) :
    ∃ keys : List ColumnKey, keys.Nodup ∧
      (∀ key, key ∈ keys ↔ key.source ≠ source ∧ Chained es (.ofRef source ref) key) ∧
      keys.Pairwise (fun a b => a.source ≤ b.source) ∧
      Spelled es keys ((ofEqualities es).equalColumns source ref) := by
  dsimp only [equalColumns]
  split
  · set others := ((ofEqualities es).reachable (.ofRef source ref)).filter
      fun key => key.source ≠ source with hothers
    have hmem : ∀ key, key ∈ others ↔ key.source ≠ source ∧ Chained es (.ofRef source ref) key := by
      intro key
      rw [hothers, List.mem_filter, mem_reachable_iff_chained, decide_eq_true_eq, and_comm]
    have hknown : ∀ key ∈ others, (firstSpelling? es key).isSome := by
      intro key hkey
      obtain ⟨hne, hchain⟩ := (hmem key).mp hkey
      refine isSome_firstSpelling?_of_chained hchain ?_
      rintro rfl
      exact hne rfl
    obtain ⟨keys, hperm, hspelled⟩ :=
      (spelled_filterMap hknown).exists_perm (List.mergeSort_perm _ fun a b => a.1 ≤ b.1)
    refine ⟨keys, ?_, fun key => hperm.mem_iff.trans (hmem key), ?_, hspelled⟩
    · exact hperm.nodup_iff.mpr ((nodup_reachable es _).filter _)
    · rw [← List.pairwise_map (f := ColumnKey.source) (R := fun a b => a ≤ b), hspelled.map_source,
        List.pairwise_map]
      exact pairwise_mergeSort_fst _
  · rename_i hunknown
    refine ⟨[], List.nodup_nil, fun key => ?_, .nil, .nil⟩
    constructor
    · intro h
      cases h
    · rintro ⟨hne, hchain⟩
      exact absurd (congrArg ColumnKey.source (eq_of_chained_of_unknown hchain hunknown)) hne

end Equivalence

end SeriesQuery
