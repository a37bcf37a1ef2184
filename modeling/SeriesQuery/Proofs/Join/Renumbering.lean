import Mathlib.Data.List.Nodup
import Mathlib.Data.List.Perm.Subperm
import Mathlib.Data.String.Basic
import SeriesQuery.Proofs.Join.Greedy

/-!
The order of the joins and their criteria do not hang on how the joins are written down.

Writing the same inner and cross joins down in another order numbers their sources anew:
a `Renumbering` moves sources within their segment, and two graphs that `Renumbers` relates
have the same names and equalities under it. As long as names tell the sources apart, the
search takes the same source at every step (`byName_map`, `Renumbers.arrange`), so the order
goes along with the numbers, and with it the criteria of every source
(`order_criteria_renumbered`). Sources without any equality are left out: they are joined as
they are declared.
-/

namespace SeriesQuery

/-! ### Equalities under new numbers -/

namespace Equality

/-- The equality with its sources numbered anew. -/
def renumbered (p : Nat → Nat) (e : Equality) : Equality :=
  { e with leftSource := p e.leftSource, rightSource := p e.rightSource }

/-- The equality with its sides swapped. -/
def swapped (e : Equality) : Equality :=
  ⟨e.right, e.rightSource, e.left, e.leftSource⟩

/-- `e'` is `e` with its sources numbered anew, either way round. -/
def Renumbers (p : Nat → Nat) (e e' : Equality) : Prop :=
  e' = e.renumbered p ∨ e' = (e.renumbered p).swapped

/-- The equality relates two different ones of the first `n` sources. -/
def Proper (n : Nat) (e : Equality) : Prop :=
  e.leftSource < n ∧ e.rightSource < n ∧ e.leftSource ≠ e.rightSource

/-- The first `n` sources get different numbers. -/
def Faithful (p : Nat → Nat) (n : Nat) : Prop :=
  ∀ s < n, ∀ t < n, p s = p t → s = t

variable {e e' : Equality} {p : Nat → Nat} {n : Nat}

theorem Faithful.eq_iff (hp : Faithful p n) {s t : Nat} (hs : s < n) (ht : t < n) :
    p s = p t ↔ s = t :=
  ⟨hp s hs t ht, fun h => h ▸ rfl⟩

theorem Proper.lt_of_touches (he : e.Proper n) {s : Nat} (ht : e.touches s = true) : s < n := by
  obtain ⟨hl, hr, -⟩ := he
  rcases touches_iff.mp ht with rfl | rfl
  · exact hl
  · exact hr

theorem Renumbers.relates (h : e.Renumbers p e') (he : e.Proper n) (hp : Faithful p n)
    {a b : Nat} (ha : a < n) (hb : b < n) : e'.relates (p a) (p b) = e.relates a b := by
  obtain ⟨hl, hr, -⟩ := he
  rcases h with rfl | rfl
  · simp only [Equality.relates, renumbered, hp.eq_iff hl ha, hp.eq_iff hl hb, hp.eq_iff hr ha,
      hp.eq_iff hr hb]
  · simp only [Equality.relates, renumbered, swapped, hp.eq_iff hl ha, hp.eq_iff hl hb,
      hp.eq_iff hr ha, hp.eq_iff hr hb]
    rw [Bool.or_comm, Bool.and_comm, Bool.and_comm (decide (e.rightSource = a))]

theorem Renumbers.touches (h : e.Renumbers p e') (he : e.Proper n) (hp : Faithful p n)
    {a : Nat} (ha : a < n) : e'.touches (p a) = e.touches a := by
  obtain ⟨hl, hr, -⟩ := he
  rcases h with rfl | rfl
  · simp only [Equality.touches, renumbered, hp.eq_iff hl ha, hp.eq_iff hr ha]
  · simp only [Equality.touches, renumbered, swapped, hp.eq_iff hl ha, hp.eq_iff hr ha,
      Bool.or_comm]

/-- Seen from one of its sources it is the same condition. -/
theorem Renumbers.startingAt (h : e.Renumbers p e') (he : e.Proper n) (hp : Faithful p n)
    {a : Nat} (ht : e.touches a = true) : e'.startingAt (p a) = e.startingAt a := by
  obtain ⟨hl, hr, hne⟩ := he
  have hpne : p e.leftSource ≠ p e.rightSource := fun heq => hne (hp _ hl _ hr heq)
  rcases touches_iff.mp ht with rfl | rfl
  · rcases h with rfl | rfl
    · simp [Equality.startingAt, renumbered]
    · simp [Equality.startingAt, renumbered, swapped, hpne.symm]
  · rcases h with rfl | rfl
    · simp [Equality.startingAt, renumbered, hne, hpne]
    · simp [Equality.startingAt, renumbered, swapped, hne]

end Equality

namespace JoinGraph

open Equality (Faithful)

/-! ### The same joins under new numbers -/

/-- A numbering of the sources anew that keeps the master and the fixed sources in their
place and every other source between the fixed ones it is declared between. -/
structure Renumbering (fixed : List Bool) (p : Nat → Nat) : Prop where
  lt_length : ∀ s < fixed.length, p s < fixed.length
  faithful : Faithful p fixed.length
  master : p 0 = 0
  fixed_at : ∀ i : Nat, fixed[i]? = some true → p i = i
  between : ∀ i s : Nat, fixed[i]? = some true → s < fixed.length → (p s < i ↔ s < i)

/-- `h` is `g` with its `n` sources numbered anew: the names go along, and the equalities are
the same in any order and either way round. -/
structure Renumbers (p : Nat → Nat) (n : Nat) (g h : JoinGraph) : Prop where
  name_eq : ∀ s < n, h.name (p s) = g.name s
  edge : ∀ e ∈ g.edges, ∃ e' ∈ h.edges, e.Renumbers p e'
  of_edge : ∀ e' ∈ h.edges, ∃ e ∈ g.edges, e.Renumbers p e'

/-- The equalities of a graph relate different ones of its first `n` sources. -/
def Proper (n : Nat) (g : JoinGraph) : Prop :=
  ∀ e ∈ g.edges, e.Proper n

/-- The names of a graph tell its first `n` sources apart. -/
def Distinct (n : Nat) (g : JoinGraph) : Prop :=
  ∀ s < n, ∀ t < n, g.name s = g.name t → s = t

variable {g h : JoinGraph} {p : Nat → Nat} {fixed : List Bool} {n : Nat}

/-! ### Taking sources by name -/

theorem precedes_iff {a b : Nat} :
    g.precedes a b = true ↔ g.name a < g.name b ∨ (g.name a = g.name b ∧ a ≤ b) := by
  simp [precedes]

theorem precedes_antisymm {a b : Nat} (hab : g.precedes a b = true) (hba : g.precedes b a = true) :
    a = b := by
  rw [precedes_iff] at hab hba
  rcases hab with hab | ⟨heq, hab⟩
  · rcases hba with hba | ⟨heq, -⟩
    · exact absurd (String.lt_trans hab hba) (String.lt_irrefl _)
    · exact absurd (heq ▸ hab) (String.lt_irrefl _)
  · rcases hba with hba | ⟨-, hba⟩
    · exact absurd (heq ▸ hba) (String.lt_irrefl _)
    · exact Nat.le_antisymm hab hba

theorem precedes_trans (a b c : Nat) (hab : g.precedes a b = true)
    (hbc : g.precedes b c = true) : g.precedes a c = true := by
  rw [precedes_iff] at hab hbc ⊢
  rcases hab with hab | ⟨heq, hab⟩
  · rcases hbc with hbc | ⟨heq, -⟩
    · exact Or.inl (String.lt_trans hab hbc)
    · exact Or.inl (heq ▸ hab)
  · rcases hbc with hbc | ⟨heq', hbc⟩
    · exact Or.inl (heq ▸ hbc)
    · exact Or.inr ⟨heq.trans heq', Nat.le_trans hab hbc⟩

theorem precedes_total (a b : Nat) : (g.precedes a b || g.precedes b a) = true := by
  rw [Bool.or_eq_true, precedes_iff, precedes_iff]
  rcases lt_trichotomy (g.name a) (g.name b) with hlt | heq | hlt
  · exact Or.inl (Or.inl hlt)
  · rcases Nat.le_total a b with hle | hle
    · exact Or.inl (Or.inr ⟨heq, hle⟩)
    · exact Or.inr (Or.inr ⟨heq.symm, hle⟩)
  · exact Or.inr (Or.inl hlt)

theorem byName_pairwise (g : JoinGraph) (sources : List Nat) :
    (g.byName sources).Pairwise fun a b => g.precedes a b = true :=
  List.pairwise_mergeSort precedes_trans precedes_total sources

/-- Where names tell the sources apart, taking them by name does not hang on their numbers. -/
theorem byName_map {sources sources' : List Nat} (hname : ∀ a ∈ sources, h.name (p a) = g.name a)
    (hdistinct : ∀ a ∈ sources, ∀ b ∈ sources, g.name a = g.name b → a = b)
    (hperm : sources'.Perm (sources.map p)) :
    h.byName sources' = (g.byName sources).map p := by
  have hmem : ∀ {a}, a ∈ g.byName sources → a ∈ sources := (g.byName_perm sources).mem_iff.mp
  have hmapped : ((g.byName sources).map p).Pairwise fun a b => h.precedes a b = true := by
    rw [List.pairwise_map]
    refine (g.byName_pairwise sources).imp_of_mem fun {a b} ha hb hab => ?_
    rw [precedes_iff] at hab ⊢
    rw [hname a (hmem ha), hname b (hmem hb)]
    rcases hab with hlt | ⟨heq, -⟩
    · exact Or.inl hlt
    · obtain rfl := hdistinct a (hmem ha) b (hmem hb) heq
      exact Or.inr ⟨rfl, Nat.le_refl _⟩
  refine List.Perm.eq_of_pairwise (fun a b _ _ hab hba => precedes_antisymm hab hba)
    (h.byName_pairwise sources') hmapped ?_
  exact (h.byName_perm _).trans (hperm.trans ((g.byName_perm sources).map p).symm)

/-! ### The order of a segment -/

theorem Renumbers.connected (hgh : Renumbers p n g h) (hg : g.Proper n)
    (hp : Faithful p n) {a b : Nat} (ha : a < n) (hb : b < n) :
    h.connected (p a) (p b) = g.connected a b := by
  rw [Bool.eq_iff_iff, JoinGraph.connected, JoinGraph.connected, List.any_eq_true, List.any_eq_true]
  constructor
  · rintro ⟨e', he', hrelates⟩
    obtain ⟨e, he, hren⟩ := hgh.of_edge e' he'
    exact ⟨e, he, hren.relates (hg e he) hp ha hb ▸ hrelates⟩
  · rintro ⟨e, he, hrelates⟩
    obtain ⟨e', he', hren⟩ := hgh.edge e he
    exact ⟨e', he', (hren.relates (hg e he) hp ha hb).trans hrelates⟩

theorem Renumbers.isRelated (hgh : Renumbers p n g h) (hg : g.Proper n)
    (hp : Faithful p n) {a : Nat} (ha : a < n) : h.isRelated (p a) = g.isRelated a := by
  rw [Bool.eq_iff_iff, JoinGraph.isRelated, JoinGraph.isRelated, List.any_eq_true, List.any_eq_true]
  constructor
  · rintro ⟨e', he', htouches⟩
    obtain ⟨e, he, hren⟩ := hgh.of_edge e' he'
    exact ⟨e, he, hren.touches (hg e he) hp ha ▸ htouches⟩
  · rintro ⟨e, he, htouches⟩
    obtain ⟨e', he', hren⟩ := hgh.edge e he
    exact ⟨e', he', (hren.touches (hg e he) hp ha).trans htouches⟩

theorem filter_map_perm {segment segment' : List Nat} {f f' : Nat → Bool}
    (hf : ∀ t ∈ segment, f' (p t) = f t) (hperm : segment'.Perm (segment.map p)) :
    (segment'.filter f').Perm ((segment.filter f).map p) := by
  refine (hperm.filter f').trans ?_
  rw [List.filter_map]
  have heq : segment.filter (f' ∘ p) = segment.filter f := List.filter_congr hf
  rw [heq]

theorem Renumbers.byName (hgh : Renumbers p n g h) (hnames : g.Distinct n)
    {sources sources' : List Nat} (hn : ∀ s ∈ sources, s < n)
    (hperm : sources'.Perm (sources.map p)) : h.byName sources' = (g.byName sources).map p :=
  byName_map (fun a ha => hgh.name_eq a (hn a ha))
    (fun a ha b hb heq => hnames a (hn a ha) b (hn b hb) heq) hperm

/-- The order of a segment goes along with the numbers, when every source of the segment has
an equality. -/
theorem Renumbers.arrange (hgh : Renumbers p n g h) (hg : g.Proper n)
    (hp : Faithful p n) (hnames : g.Distinct n) {queue segment segment' : List Nat}
    (hqueue : ∀ a ∈ queue, a < n) (hsegment : ∀ t ∈ segment, t < n ∧ g.isRelated t = true)
    (hperm : segment'.Perm (segment.map p)) :
    h.arrange (queue.map p) segment' = (g.arrange queue segment).map p := by
  fun_induction JoinGraph.arrange g queue segment generalizing segment' with
  | case1 segment source queue reached =>
    rename_i ih
    have hsource : source < n := hqueue source List.mem_cons_self
    have hreached : h.reached (p source) segment' = reached.map p := by
      refine hgh.byName hnames (fun t ht => (hsegment t (List.mem_filter.mp ht).1).1) ?_
      exact filter_map_perm
        (fun t ht => hgh.connected hg hp hsource (hsegment t ht).1) hperm
    have hunreached : (h.unreached (p source) segment').Perm ((g.unreached source segment).map p) :=
      filter_map_perm
        (fun t ht => congrArg (!·) (hgh.connected hg hp hsource (hsegment t ht).1)) hperm
    have hmem : ∀ t ∈ reached, t ∈ segment := fun t ht =>
      (List.mem_filter.mp ((g.byName_perm _).mem_iff.mp ht)).1
    rw [List.map_cons, arrange_cons, hreached, List.map_append, ← List.map_append]
    rw [ih ?_ ?_ hunreached]
    · intro a ha
      rcases List.mem_append.mp ha with ha | ha
      · exact hqueue a (List.mem_cons_of_mem _ ha)
      · exact (hsegment a (hmem a ha)).1
    · intro t ht
      exact hsegment t (List.mem_filter.mp ht).1
  | case2 segment first hstart ih =>
    have hstart' : h.start? segment' = some (p first) := by
      have hby := hgh.byName hnames (fun t ht => (hsegment t (List.mem_filter.mp ht).1).1)
        (filter_map_perm (fun t ht => hgh.isRelated hg hp (hsegment t ht).1) hperm)
      rw [start?, hby, List.head?_map, ← start?, hstart]
      rfl
    have hfirst := mem_of_start? hstart
    rw [List.map_nil, arrange_of_start hstart', List.map_cons, ← List.map_singleton]
    rw [ih ?_ ?_ ?_]
    · intro a ha
      rw [List.mem_singleton.mp ha]
      exact (hsegment first hfirst).1
    · intro t ht
      exact hsegment t (List.mem_of_mem_erase ht)
    · have hmem : p first ∈ segment' := hperm.mem_iff.mpr (List.mem_map_of_mem hfirst)
      refine ((List.perm_cons_erase hmem).symm.trans (hperm.trans ?_)).cons_inv
      exact (List.perm_cons_erase hfirst).map p
  | case3 segment hstart =>
    have hempty : segment = [] := by
      refine List.eq_nil_iff_forall_not_mem.mpr fun t ht => ?_
      have hunrelated := start?_eq_none_iff.mp hstart t ht
      rw [(hsegment t ht).2] at hunrelated
      cases hunrelated
    subst hempty
    rw [List.map_nil, hperm.eq_nil, arrange_nil_nil]

/-! ### The order of all sources -/

/-- The new numbers keep what is declared before number `i` before it. -/
def KeepsBelow (p : Nat → Nat) (n i : Nat) : Prop :=
  ∀ s < n, (p s < i ↔ s < i)

theorem KeepsBelow.succ {i : Nat} (h : KeepsBelow p n i) (hp : Faithful p n) (hi : i < n)
    (hkept : p i = i) : KeepsBelow p n (i + 1) := by
  intro s hs
  have hside := h s hs
  by_cases heq : s = i
  · subst heq
    omega
  · have hne : p s ≠ i := fun h => heq (hp s hs i hi (h.trans hkept.symm))
    omega

/-- A segment between two such numbers is only rearranged. -/
theorem range'_perm_map (hp : Faithful p n) {first last : Nat} (hlast : last ≤ n)
    (hbelow : KeepsBelow p n first) (habove : KeepsBelow p n last) :
    (List.range' first (last - first)).Perm ((List.range' first (last - first)).map p) := by
  have hlt : ∀ t ∈ List.range' first (last - first), first ≤ t ∧ t < last := by
    intro t ht
    have := List.mem_range'_1.mp ht
    omega
  have hnodup : ((List.range' first (last - first)).map p).Nodup := by
    refine List.Nodup.map_on (fun s hs t ht heq => ?_) List.nodup_range'
    have := hlt s hs
    have := hlt t ht
    exact hp s (by omega) t (by omega) heq
  have hsub : (List.range' first (last - first)).map p ⊆ List.range' first (last - first) := by
    intro t ht
    obtain ⟨s, hs, rfl⟩ := List.mem_map.mp ht
    have := hlt s hs
    have := hbelow s (by omega)
    have := habove s (by omega)
    rw [List.mem_range'_1]
    omega
  exact ((hnodup.subperm hsub).perm_of_length_le (by simp)).symm

section

variable (hren : Renumbering fixed p) (hgh : Renumbers p fixed.length g h)
  (hg : g.Proper fixed.length) (hnames : g.Distinct fixed.length)
  (hrelated : ∀ s, Movable fixed s → g.isRelated s = true)
include hren hgh hg hnames hrelated

/-- A whole segment is put into the order of its names under both numberings. -/
theorem arrange_segment {placed : List Nat} {first last : Nat} (hfirst : 0 < first)
    (hlast : last ≤ fixed.length) (hbelow : KeepsBelow p fixed.length first)
    (habove : KeepsBelow p fixed.length last) (hplaced : ∀ a ∈ placed, a < fixed.length)
    (hfree : ∀ t, first ≤ t → t < last → fixed[t]? = some false) :
    h.arrange (placed.map p) (List.range' first (last - first)) =
      (g.arrange placed (List.range' first (last - first))).map p := by
  refine hgh.arrange hg hren.faithful hnames hplaced (fun t ht => ?_)
    (range'_perm_map hren.faithful hlast hbelow habove)
  have hbounds := List.mem_range'_1.mp ht
  exact ⟨by omega, hrelated t ⟨by omega, hfree t (by omega) (by omega)⟩⟩

/-- The same for the sources from number `source` on: those of the segment before them have
the numbers from `first` on. -/
theorem orderFrom_renumbered {placed : List Nat} {first source : Nat} {rest : List Bool}
    (hrest : fixed.drop source = rest) (hsource : source ≤ fixed.length) (hpos : 0 < first)
    (hfirst : first ≤ source) (hbelow : KeepsBelow p fixed.length first)
    (hplaced : ∀ a ∈ placed, a < fixed.length)
    (hfree : ∀ t, first ≤ t → t < source → fixed[t]? = some false) :
    h.orderFrom (placed.map p) (List.range' first (source - first)) source rest =
      (g.orderFrom placed (List.range' first (source - first)) source rest).map p := by
  induction rest generalizing placed first source with
  | nil =>
    have hend : source = fixed.length := by
      have := List.drop_eq_nil_iff.mp hrest
      omega
    have habove : KeepsBelow p fixed.length source := by
      intro s hs
      have := hren.lt_length s hs
      omega
    rw [orderFrom, orderFrom, List.map_append,
      arrange_segment hren hgh hg hnames hrelated hpos hsource hbelow habove hplaced hfree]
  | cons b rest ih =>
    have hlt : source < fixed.length := by
      have := congrArg List.length hrest
      simp only [List.length_drop, List.length_cons] at this
      omega
    have hsomeb : fixed[source]? = some b := by
      have := congrArg (·[0]?) hrest
      simpa using this
    have hdrop : fixed.drop (source + 1) = rest := by
      rw [← List.drop_drop, hrest]
      rfl
    cases b with
    | false =>
      have hnum : source + 1 - first = source - first + 1 := by omega
      have hsegment : List.range' first (source - first) ++ [source] =
          List.range' first (source + 1 - first) := by
        rw [hnum, List.range'_concat]
        congr 2
        omega
      rw [orderFrom, orderFrom, hsegment]
      refine ih hdrop hlt hpos (by omega) hbelow hplaced fun t ht hlt => ?_
      by_cases heq : t = source
      · exact heq ▸ hsomeb
      · exact hfree t ht (by omega)
    | true =>
      have habove : KeepsBelow p fixed.length source := fun s hs => hren.between source s hsomeb hs
      have hkept := hren.fixed_at source hsomeb
      have harrange :=
        arrange_segment hren hgh hg hnames hrelated hpos hsource hbelow habove hplaced hfree
      have hfront : placed.map p ++ h.arrange (placed.map p) (List.range' first (source - first)) ++
          [source] = (placed ++ g.arrange placed (List.range' first (source - first)) ++
            [source]).map p := by
        rw [harrange, List.map_append, List.map_append, List.map_singleton, hkept]
      have hplaced' : ∀ a ∈ placed ++ g.arrange placed (List.range' first (source - first)) ++
          [source], a < fixed.length := by
        intro a ha
        rcases List.mem_append.mp ha with ha | ha
        · rcases List.mem_append.mp ha with ha | ha
          · exact hplaced a ha
          · have := List.mem_range'_1.mp ((g.arrange_perm _ _).mem_iff.mp ha)
            omega
        · rw [List.mem_singleton.mp ha]
          exact hlt
      have hnext := ih hdrop hlt (Nat.succ_pos source) (Nat.le_refl _)
        (habove.succ hren.faithful hlt hkept) hplaced' (fun t ht hlt => by omega)
      rw [Nat.sub_self, List.range'_zero] at hnext
      rw [orderFrom, orderFrom, hfront, hnext]

/-- The order of the joins goes along with the numbers of the sources. -/
theorem order_renumbered : h.order fixed = (g.order fixed).map p := by
  by_cases hempty : fixed = []
  · subst hempty
    have harrange : ∀ g : JoinGraph, g.arrange [0] [] = [] := fun g =>
      (g.arrange_perm [0] []).eq_nil
    simp [order, orderFrom, harrange, hren.master]
  obtain ⟨b, rest, rfl⟩ := List.exists_cons_of_ne_nil hempty
  have hfirst : KeepsBelow p (b :: rest).length 0 := fun s _ => by omega
  have hbelow := hfirst.succ hren.faithful (by simp) hren.master
  have hfrom : h.orderFrom ([0].map p) (List.range' 1 (1 - 1)) 1 rest =
      (g.orderFrom [0] (List.range' 1 (1 - 1)) 1 rest).map p :=
    orderFrom_renumbered hren hgh hg hnames hrelated rfl (by simp) (by omega) (by omega) hbelow
      (by simp) (fun t _ _ => by omega)
  simpa [order, hren.master] using hfrom

end

/-! ### Criteria -/

theorem rank_map {order : List Nat} (hp : Faithful p n) (hn : order.Nodup)
    (horder : ∀ a ∈ order, a < n) {a : Nat} (ha : a ∈ order) :
    rank (order.map p) (p a) = rank order a := by
  obtain ⟨l, r, rfl⟩ := List.append_of_mem ha
  have har : a ∉ r := (List.nodup_cons.mp (List.nodup_append.mp hn).2.1).1
  have hpar : p a ∉ r.map p := by
    intro hmem
    obtain ⟨b, hb, heq⟩ := List.mem_map.mp hmem
    have hblt : b < n := horder b (List.mem_append_right _ (List.mem_cons_of_mem _ hb))
    exact har (hp b hblt a (horder a ha) heq ▸ hb)
  rw [List.map_append, List.map_cons, rank_append_cons hpar, rank_append_cons har, List.length_map]

theorem laterSource_renumbered {order : List Nat} (hp : Faithful p n) (hn : order.Nodup)
    (horder : ∀ a, a ∈ order ↔ a < n) {e e' : Equality} (he : e.Proper n)
    (h : e.Renumbers p e') : laterSource (order.map p) e' = p (laterSource order e) := by
  obtain ⟨hl, hr, hne⟩ := he
  have hrank : ∀ a, a < n → rank (order.map p) (p a) = rank order a := fun a ha =>
    rank_map hp hn (fun a ha => (horder a).mp ha) ((horder a).mpr ha)
  have hranks : rank order e.leftSource ≠ rank order e.rightSource := by
    intro heq
    rcases before_or_before ((horder _).mpr hl) ((horder _).mpr hr) hne with hbefore | hbefore
    · have := rank_lt_of_before hn hbefore
      omega
    · have := rank_lt_of_before hn hbefore
      omega
  rcases h with rfl | rfl
  · simp only [laterSource, Equality.renumbered, hrank _ hl, hrank _ hr]
    split
    · rfl
    · rfl
  · simp only [laterSource, Equality.renumbered, Equality.swapped, hrank _ hl, hrank _ hr]
    split
    · rename_i hlt
      rw [if_neg (by omega)]
    · rename_i hlt
      rw [if_pos (by omega)]

/-- **The order of the joins and their criteria do not hang on how the joins are permuted.**
If the sources of two graphs differ in their numbers alone, the names tell them apart, and
every source that may be moved has an equality, then the one order is the other under the new
numbers, and each source has the same criteria, each written once. -/
theorem order_criteria_renumbered (hren : Renumbering fixed p)
    (hgh : Renumbers p fixed.length g h) (hg : g.Proper fixed.length)
    (hnames : g.Distinct fixed.length) (hrelated : ∀ s, Movable fixed s → g.isRelated s = true) :
    h.order fixed = (g.order fixed).map p ∧ ∀ s < fixed.length,
      ((h.criteria (h.order fixed) (p s)).map Expr.text).Perm
        ((g.criteria (g.order fixed) s).map Expr.text) := by
  have horder := order_renumbered hren hgh hg hnames hrelated
  refine ⟨horder, fun s hs => ?_⟩
  have hmem : ∀ a, a ∈ g.order fixed ↔ a < fixed.length := by
    intro a
    rw [(g.order_perm (List.ne_nil_of_length_pos (by omega))).mem_iff, List.mem_range]
  have hlater : ∀ {e e' : Equality}, e ∈ g.edges → e.Renumbers p e' →
      laterSource (h.order fixed) e' = p (laterSource (g.order fixed) e) := by
    intro e e' he hee'
    rw [horder]
    exact laterSource_renumbered hren.faithful (g.order_nodup fixed) hmem (hg e he) hee'
  rw [List.perm_ext_iff_of_nodup (h.nodup_text_criteria _ _) (g.nodup_text_criteria _ _)]
  intro text
  rw [mem_text_criteria_iff, mem_text_criteria_iff]
  constructor
  · rintro ⟨e', he', hlast, rfl⟩
    obtain ⟨e, he, hee'⟩ := hgh.of_edge e' he'
    have htouches := touches_laterSource (g.order fixed) e
    have heq : laterSource (g.order fixed) e = s := by
      rw [hlater he hee'] at hlast
      exact hren.faithful _ ((hg e he).lt_of_touches htouches) s hs hlast
    refine ⟨e, he, heq, ?_⟩
    rw [heq] at htouches
    rw [hee'.startingAt (hg e he) hren.faithful htouches]
  · rintro ⟨e, he, rfl, rfl⟩
    obtain ⟨e', he', hee'⟩ := hgh.edge e he
    refine ⟨e', he', hlater he hee', ?_⟩
    rw [hee'.startingAt (hg e he) hren.faithful (touches_laterSource _ e)]

/-! ### Six sources under new numbers -/

/-- The second of six sources changes places with the third, and the fifth with the last. -/
def exchanged (s : Nat) : Nat :=
  [0, 2, 1, 3, 5, 4].getD s s

/-- The joins of `sixSources` with the sources of each segment exchanged. -/
def sixSourcesExchanged : JoinGraph :=
  ⟨["a", "b", "z", "d", "f", "e"],
    [columnsEqual "p" 3 "o" 4, columnsEqual "k" 2 "l" 1, columnsEqual "n" 5 "m" 4]⟩

theorem renumbering_exchanged : Renumbering fourthFixed exchanged where
  lt_length := by decide
  faithful := by
    unfold Equality.Faithful
    decide
  master := rfl
  fixed_at i hi := by
    obtain rfl := eq_three_of_fourthFixed hi
    rfl
  between i s hi := by
    obtain rfl := eq_three_of_fourthFixed hi
    revert s
    decide

theorem renumbers_exchanged : Renumbers exchanged 6 sixSources sixSourcesExchanged where
  name_eq := by decide
  edge e he := by
    simp only [sixSources, List.mem_cons, List.not_mem_nil, or_false] at he
    rcases he with rfl | rfl | rfl
    · exact ⟨columnsEqual "k" 2 "l" 1, by simp [sixSourcesExchanged], Or.inl rfl⟩
    · exact ⟨columnsEqual "n" 5 "m" 4, by simp [sixSourcesExchanged], Or.inr rfl⟩
    · exact ⟨columnsEqual "p" 3 "o" 4, by simp [sixSourcesExchanged], Or.inr rfl⟩
  of_edge e he := by
    simp only [sixSourcesExchanged, List.mem_cons, List.not_mem_nil, or_false] at he
    rcases he with rfl | rfl | rfl
    · exact ⟨columnsEqual "o" 5 "p" 3, by simp [sixSources], Or.inr rfl⟩
    · exact ⟨columnsEqual "k" 1 "l" 2, by simp [sixSources], Or.inl rfl⟩
    · exact ⟨columnsEqual "m" 5 "n" 4, by simp [sixSources], Or.inr rfl⟩

theorem order_criteria_renumbered_six_sources :
    sixSourcesExchanged.order fourthFixed = (sixSources.order fourthFixed).map exchanged ∧
      ∀ s < 6, ((sixSourcesExchanged.criteria (sixSourcesExchanged.order fourthFixed)
        (exchanged s)).map Expr.text).Perm
          ((sixSources.criteria (sixSources.order fourthFixed) s).map Expr.text) := by
  refine order_criteria_renumbered renumbering_exchanged renumbers_exchanged ?_ ?_ ?_
  · intro e he
    simp only [sixSources, List.mem_cons, List.not_mem_nil, or_false] at he
    rcases he with rfl | rfl | rfl
    · exact ⟨by decide, by decide, by decide⟩
    · exact ⟨by decide, by decide, by decide⟩
    · exact ⟨by decide, by decide, by decide⟩
  · unfold Distinct
    decide
  · intro s hs
    have hall : ∀ s < 6, s ≠ 0 → sixSources.isRelated s = true := by decide
    exact hall s hs.lt_length hs.1

end JoinGraph

end SeriesQuery
