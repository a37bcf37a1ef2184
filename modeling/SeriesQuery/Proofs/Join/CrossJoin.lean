import Mathlib.Data.List.Nodup
import Mathlib.Data.List.Perm.Subperm
import Mathlib.Logic.Relation
import Mathlib.Tactic.Choose
import SeriesQuery.Proofs.Join.Order

/-!
No order that keeps the fixed sources in their place has fewer cross joins.

A source that may be moved is cross joined if no equality relates it to a source before
it. The order is `Greedy`: a source is cross joined only when no other source that is left
in its segment could be joined on an equality. That is all `crossJoined_length_le` needs.
The sources of a segment fall into components, which equalities within the segment hold
together. In a greedy order each cross joined source has a component of its own with no
equality to anything before it, so any other order cross joins the first source that it
takes from that component.
-/

namespace SeriesQuery.JoinGraph

open Relation

/-! ### Orders that keep the fixed sources in their place -/

/-- The orders of all sources that start with the master, and in which every fixed source
stays in its place and every other one between the fixed sources it is declared between. -/
structure Pinned (fixed : List Bool) (order : List Nat) : Prop where
  perm : order.Perm (List.range fixed.length)
  master_first : order.head? = some 0
  fixed_at : ∀ i : Nat, fixed[i]? = some true → order[i]? = some i
  between : ∀ i s : Nat, fixed[i]? = some true → (Before order s i ↔ s < i)

/-- A source may be moved: it is neither the master nor fixed. -/
def Movable (fixed : List Bool) (s : Nat) : Prop :=
  s ≠ 0 ∧ fixed[s]? = some false

instance (fixed : List Bool) (s : Nat) : Decidable (Movable fixed s) :=
  inferInstanceAs (Decidable (_ ∧ _))

/-- No fixed source is declared between two sources. -/
def SameSegment (fixed : List Bool) (s t : Nat) : Prop :=
  ∀ i : Nat, fixed[i]? = some true → (s < i ↔ t < i)

/-- Whether no equality relates a source to one before it. -/
def standsAlone (g : JoinGraph) (order : List Nat) (s : Nat) : Bool :=
  (order.takeWhile (· ≠ s)).all fun a => !g.connected a s

/-- The sources that may be moved and are joined without an equality. -/
def crossJoined (g : JoinGraph) (fixed : List Bool) (order : List Nat) : List Nat :=
  order.filter fun s => decide (Movable fixed s) && g.standsAlone order s

variable {g : JoinGraph} {fixed : List Bool} {order other : List Nat}

theorem connected_comm (a b : Nat) : g.connected a b = g.connected b a := by
  simp only [connected, Equality.relates, Bool.or_comm]

theorem Movable.lt_length {s : Nat} (h : Movable fixed s) : s < fixed.length :=
  (List.getElem?_eq_some_iff.mp h.2).1

theorem Movable.ne_fixed {s i : Nat} (h : Movable fixed s) (hi : fixed[i]? = some true) :
    s ≠ i := by
  rintro rfl
  simp [h.2] at hi

theorem SameSegment.symm {s t : Nat} (h : SameSegment fixed s t) : SameSegment fixed t s :=
  fun i hi => (h i hi).symm

theorem SameSegment.trans {s t u : Nat} (hst : SameSegment fixed s t)
    (htu : SameSegment fixed t u) : SameSegment fixed s u :=
  fun i hi => (hst i hi).trans (htu i hi)

theorem standsAlone_iff (hn : order.Nodup) {s : Nat} (hs : s ∈ order) :
    g.standsAlone order s = true ↔ ∀ a, Before order a s → g.connected a s = false := by
  obtain ⟨l, r, rfl⟩ := List.append_of_mem hs
  have hl : ∀ a ∈ l, (decide (a ≠ s)) = true := by
    intro a ha
    have hne := (List.nodup_append.mp hn).2.2 a ha s List.mem_cons_self
    simpa using hne
  have hfront : (l ++ s :: r).takeWhile (· ≠ s) = l := by
    rw [List.takeWhile_append_of_pos hl]
    simp
  simp only [standsAlone, hfront, before_append_cons_iff hn, List.all_eq_true,
    Bool.not_eq_true']

theorem mem_crossJoined (hn : order.Nodup) {s : Nat} :
    s ∈ g.crossJoined fixed order ↔
      s ∈ order ∧ Movable fixed s ∧ ∀ a, Before order a s → g.connected a s = false := by
  simp only [crossJoined, List.mem_filter, Bool.and_eq_true, decide_eq_true_eq]
  constructor
  · rintro ⟨hs, hmovable, halone⟩
    exact ⟨hs, hmovable, (standsAlone_iff hn hs).mp halone⟩
  · rintro ⟨hs, hmovable, halone⟩
    exact ⟨hs, hmovable, (standsAlone_iff hn hs).mpr halone⟩

/-! ### Sources of different segments -/

namespace Pinned

theorem nodup (h : Pinned fixed order) : order.Nodup :=
  h.perm.nodup_iff.mpr List.nodup_range

theorem mem_iff (h : Pinned fixed order) {s : Nat} : s ∈ order ↔ s < fixed.length := by
  rw [h.perm.mem_iff, List.mem_range]

theorem before_or_before (h : Pinned fixed order) {a b : Nat} (ha : a < fixed.length)
    (hb : b < fixed.length) (hne : a ≠ b) : Before order a b ∨ Before order b a :=
  JoinGraph.before_or_before (h.mem_iff.mpr ha) (h.mem_iff.mpr hb) hne

theorem before_iff_rank_lt (h : Pinned fixed order) {a b : Nat} (ha : a < fixed.length)
    (hb : b < fixed.length) : Before order a b ↔ rank order a < rank order b :=
  JoinGraph.before_iff_rank_lt h.nodup (h.mem_iff.mpr ha) (h.mem_iff.mpr hb)

theorem before_of_pos (h : Pinned fixed order) {s : Nat} (hs : s < fixed.length)
    (hpos : s ≠ 0) : Before order 0 s := by
  obtain ⟨rest, rfl⟩ := List.head?_eq_some_iff.mp h.master_first
  have hmem := (List.mem_cons.mp (h.mem_iff.mpr hs)).resolve_left hpos
  obtain ⟨l, r, rfl⟩ := List.append_of_mem hmem
  exact ⟨0 :: l, r, rfl, List.mem_cons_self⟩

end Pinned

/-- A source outside of the segment of a source that may be moved is the master or fixed,
or a fixed source is declared between them. -/
theorem outside_cases {t u : Nat} (hu : u < fixed.length)
    (hout : ¬ (Movable fixed u ∧ SameSegment fixed t u)) :
    u = 0 ∨ fixed[u]? = some true ∨ ∃ i, fixed[i]? = some true ∧ ¬ (t < i ↔ u < i) := by
  by_cases hmaster : u = 0
  · exact Or.inl hmaster
  cases hfixed : fixed[u] with
  | true => exact Or.inr (Or.inl (List.getElem?_eq_some_iff.mpr ⟨hu, hfixed⟩))
  | false =>
    have hmovable : Movable fixed u := ⟨hmaster, List.getElem?_eq_some_iff.mpr ⟨hu, hfixed⟩⟩
    have hsegment : ¬ SameSegment fixed t u := fun h => hout ⟨hmovable, h⟩
    simp only [SameSegment, Classical.not_forall] at hsegment
    obtain ⟨i, hi, hne⟩ := hsegment
    exact Or.inr (Or.inr ⟨i, hi, hne⟩)

/-- A source outside of a segment stands on the same side of it in every pinned order: the
side it is declared on. -/
theorem Pinned.before_iff_lt (h : Pinned fixed order) {t u : Nat} (ht : Movable fixed t)
    (hu : u < fixed.length) (hout : ¬ (Movable fixed u ∧ SameSegment fixed t u)) :
    Before order u t ↔ u < t := by
  have hrank : ∀ {a b : Nat}, a < fixed.length → b < fixed.length →
      (Before order a b ↔ rank order a < rank order b) := h.before_iff_rank_lt
  have htlt := ht.lt_length
  rcases outside_cases hu hout with rfl | hfixed | ⟨i, hi, hne⟩
  · have hbefore := h.before_of_pos htlt ht.1
    have hpos := ht.1
    exact ⟨fun _ => by omega, fun _ => hbefore⟩
  · have hside := h.between u t hfixed
    have hne := ht.ne_fixed hfixed
    rw [hrank htlt hu] at hside
    rw [hrank hu htlt]
    have htotal := h.before_or_before htlt hu hne
    rw [hrank htlt hu, hrank hu htlt] at htotal
    omega
  · have hilt := (List.getElem?_eq_some_iff.mp hi).1
    have htside := h.between i t hi
    have huside := h.between i u hi
    have hti := ht.ne_fixed hi
    have htotal := h.before_or_before htlt hilt hti
    rw [hrank htlt hilt] at htside
    rw [hrank hu hilt] at huside
    rw [hrank htlt hilt, hrank hilt htlt] at htotal
    rw [hrank hu htlt]
    omega

/-- A source outside of a segment is declared before all of it or after all of it. -/
theorem lt_iff_lt_of_outside {s t u : Nat} (hs : Movable fixed s) (ht : Movable fixed t)
    (hst : SameSegment fixed s t) (hu : u < fixed.length)
    (hout : ¬ (Movable fixed u ∧ SameSegment fixed t u)) : u < s ↔ u < t := by
  rcases outside_cases hu hout with rfl | hfixed | ⟨i, hi, hne⟩
  · have := hs.1
    have := ht.1
    omega
  · have := hs.ne_fixed hfixed
    have := ht.ne_fixed hfixed
    have := hst u hfixed
    omega
  · have := hst i hi
    omega

/-! ### Greedy orders -/

/-- When a source is joined without an equality, no equality relates a source that is left
of its segment to one before it. -/
def Greedy (g : JoinGraph) (fixed : List Bool) (order : List Nat) : Prop :=
  ∀ s t, Movable fixed s → SameSegment fixed s t → Before order s t →
    (∀ a, Before order a s → g.connected a s = false) →
      ∀ a, Before order a s → g.connected a t = false

/-- Two sources of one segment that an equality relates. -/
def Adjacent (g : JoinGraph) (fixed : List Bool) (s t : Nat) : Prop :=
  g.connected s t = true ∧ Movable fixed s ∧ Movable fixed t ∧ SameSegment fixed s t

theorem Adjacent.symm {s t : Nat} (h : g.Adjacent fixed s t) : g.Adjacent fixed t s := by
  obtain ⟨hconnected, hs, ht, hsegment⟩ := h
  exact ⟨connected_comm (g := g) s t ▸ hconnected, ht, hs, hsegment.symm⟩

/-- Two sources of one component of a segment. -/
abbrev Together (g : JoinGraph) (fixed : List Bool) : Nat → Nat → Prop :=
  ReflTransGen (g.Adjacent fixed)

theorem Together.symm {s t : Nat} (h : g.Together fixed s t) : g.Together fixed t s := by
  induction h with
  | refl => exact .refl
  | tail _ hlast ih => exact .head hlast.symm ih

theorem Together.movable {s t : Nat} (h : g.Together fixed s t) (hs : Movable fixed s) :
    Movable fixed t ∧ SameSegment fixed s t := by
  induction h with
  | refl => exact ⟨hs, fun _ _ => Iff.rfl⟩
  | tail _ hlast ih =>
    obtain ⟨-, -, ht, hsegment⟩ := hlast
    exact ⟨ht, ih.2.trans hsegment⟩

/-- In a greedy order the component of a cross joined source comes after it and has no
equality to anything before it. -/
theorem Greedy.component (hgreedy : g.Greedy fixed order) (horder : Pinned fixed order)
    {s t : Nat} (hs : s ∈ g.crossJoined fixed order) (h : g.Together fixed s t) :
    (t = s ∨ Before order s t) ∧ ∀ a, Before order a s → g.connected a t = false := by
  obtain ⟨-, hmovable, halone⟩ := (mem_crossJoined horder.nodup).mp hs
  induction h with
  | refl => exact ⟨Or.inl rfl, halone⟩
  | @tail b t hchain hlast ih =>
    obtain ⟨ht, hsegment⟩ := Together.movable (hchain.tail hlast) hmovable
    by_cases heq : t = s
    · subst heq
      exact ⟨Or.inl rfl, halone⟩
    · -- Before `s` it cannot stand: the component so far has no equality to anything there.
      have hafter : Before order s t := by
        refine (horder.before_or_before hmovable.lt_length ht.lt_length (Ne.symm heq)).resolve_right
          fun hbefore => ?_
        have hnone := ih.2 t hbefore
        rw [connected_comm, hlast.1] at hnone
        cases hnone
      exact ⟨Or.inr hafter, hgreedy s t hmovable hsegment hafter halone⟩

/-- In a greedy order no two cross joined sources share a component. -/
theorem Greedy.eq_of_together (hgreedy : g.Greedy fixed order) (horder : Pinned fixed order)
    {s t : Nat} (hs : s ∈ g.crossJoined fixed order) (ht : t ∈ g.crossJoined fixed order)
    (h : g.Together fixed s t) : s = t := by
  rcases (hgreedy.component horder hs h).1 with rfl | hst
  · rfl
  rcases (hgreedy.component horder ht h.symm).1 with rfl | hts
  · rfl
  have := rank_lt_of_before horder.nodup hst
  have := rank_lt_of_before horder.nodup hts
  omega

theorem exists_first {l : List Nat} {P : Nat → Prop} (h : ∃ a ∈ l, P a) :
    ∃ front a rest, l = front ++ a :: rest ∧ P a ∧ ∀ b ∈ front, ¬ P b := by
  classical
  obtain ⟨a, ha, hP⟩ := h
  cases hfind : l.find? fun a => decide (P a) with
  | none => exact absurd hP (by simpa using List.find?_eq_none.mp hfind a ha)
  | some b =>
    obtain ⟨hb, front, rest, rfl, hfront⟩ := List.find?_eq_some_iff_append.mp hfind
    exact ⟨front, b, rest, rfl, by simpa using hb, fun c hc => by simpa using hfront c hc⟩

/-- From the component of a source that a greedy order cross joins, every other order cross
joins the source it takes first. -/
theorem exists_crossJoined (hgreedy : g.Greedy fixed order) (horder : Pinned fixed order)
    (hother : Pinned fixed other) {s : Nat} (hs : s ∈ g.crossJoined fixed order) :
    ∃ t ∈ g.crossJoined fixed other, g.Together fixed s t := by
  obtain ⟨-, hmovable, -⟩ := (mem_crossJoined horder.nodup).mp hs
  obtain ⟨front, t, rest, hsplit, htogether, hfirst⟩ :=
    exists_first (P := g.Together fixed s) ⟨s, hother.mem_iff.mpr hmovable.lt_length, .refl⟩
  have hn := hother.nodup
  obtain ⟨ht, hsegment⟩ := htogether.movable hmovable
  refine ⟨t, (mem_crossJoined hn).mpr ⟨hother.mem_iff.mpr ht.lt_length, ht, fun u hu => ?_⟩,
    htogether⟩
  have hfront : u ∈ front := by
    rw [hsplit] at hn hu
    exact (before_append_cons_iff hn).mp hu
  have hulen : u < fixed.length := by
    rw [← hother.mem_iff, hsplit]
    exact List.mem_append_left _ hfront
  by_contra hnot
  have hconnected : g.connected u t = true := by simpa using hnot
  by_cases hinside : Movable fixed u ∧ SameSegment fixed t u
  · have hadjacent : g.Adjacent fixed t u :=
      ⟨connected_comm (g := g) u t ▸ hconnected, ht, hinside.1, hinside.2⟩
    exact hfirst u hfront (htogether.tail hadjacent)
  · -- Outside of the segment both orders agree, so `u` stands before `s` in the greedy one.
    have hlt : u < s := (lt_iff_lt_of_outside hmovable ht hsegment hulen hinside).mpr
      ((hother.before_iff_lt ht hulen hinside).mp hu)
    have houtside : ¬ (Movable fixed u ∧ SameSegment fixed s u) := fun h =>
      hinside ⟨h.1, hsegment.symm.trans h.2⟩
    have hbefore := (horder.before_iff_lt hmovable hulen houtside).mpr hlt
    have hnone := (hgreedy.component horder hs htogether).2 u hbefore
    rw [hconnected] at hnone
    cases hnone

/-- A greedy order has the fewest cross joins. -/
theorem crossJoined_length_le (hgreedy : g.Greedy fixed order) (horder : Pinned fixed order)
    (hother : Pinned fixed other) :
    (g.crossJoined fixed order).length ≤ (g.crossJoined fixed other).length := by
  choose! first hfirst htogether using
    fun s (hs : s ∈ g.crossJoined fixed order) => exists_crossJoined hgreedy horder hother hs
  have hinj : ∀ s ∈ g.crossJoined fixed order, ∀ t ∈ g.crossJoined fixed order,
      first s = first t → s = t := by
    intro s hs t ht heq
    have hst : g.Together fixed s t := (htogether s hs).trans (heq ▸ (htogether t ht).symm)
    exact hgreedy.eq_of_together horder hs ht hst
  have hn : ((g.crossJoined fixed order).map first).Nodup :=
    List.Nodup.map_on hinj (horder.nodup.filter _)
  have hsub : (g.crossJoined fixed order).map first ⊆ g.crossJoined fixed other := by
    intro t ht
    obtain ⟨s, hs, rfl⟩ := List.mem_map.mp ht
    exact hfirst s hs
  simpa using (hn.subperm hsub).length_le

end SeriesQuery.JoinGraph
