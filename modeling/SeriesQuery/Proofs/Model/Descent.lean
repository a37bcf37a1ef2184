import Mathlib.Order.Bounds.Defs
import SeriesQuery.Proofs.Pushdown

/-!
Filters land once, and as deep as they may.

A filter that is added to a row source goes down the chain of nested sources, worded anew
at each of them (`Model.meets?`), and changes one row source of the chain: the last one whose
way down lets it through (`addFilter_lands`). A model that does not take a condition leaves
itself and the condition as they were: `Model.offer` spells out what is changed in place and
what is handed back on the way, and comes to the same as `pushInto?` (`offer_eq`).
-/

namespace SeriesQuery

namespace Projection

/-- The columns of a condition are plain columns of the projection. -/
def Passes (p : Projection) (condition : Expr) : Prop :=
  ∀ c ∈ condition.columns, ∃ input q, p.column? c.1.name = some (.column input q)

theorem isSome_through? {p : Projection} {condition : Expr} :
    (p.through? condition).isSome ↔ p.Passes condition := by
  refine Expr.isSome_replaceColumnsM.trans (forall₂_congr fun c _ => ?_)
  rw [Option.isSome_map]
  constructor
  · intro h
    obtain ⟨input, hinput⟩ := Option.isSome_iff_exists.mp h
    obtain ⟨e, he, hcolumn⟩ := Option.bind_eq_some_iff.mp hinput
    cases e with
    | column ref q => exact ⟨ref, q, he⟩
    | _ => cases hcolumn
  · rintro ⟨input, q, h⟩
    rw [h]
    rfl

end Projection

namespace Model

/-! ### Qualifiers -/

theorem unqualified_spec (condition : Expr) :
    condition.replaceColumnsM (fun ref position => some (.column (.plain ref.name) position)) =
      some (unqualified condition) :=
  Expr.replaceColumnsM_some (fun ref position => .column (.plain ref.name) position) condition

/-- Names are all that a replacement sees when it does not look at qualifiers. -/
theorem replaceColumnsM_unqualified {f : ColumnRef → Nat → Option Expr}
    (hf : ∀ ref position, f (.plain ref.name) position = f ref position) (condition : Expr) :
    (unqualified condition).replaceColumnsM f = condition.replaceColumnsM f := by
  refine (Expr.Congruent.replacesAlike f f).of_replaceColumnsM (fun ref p e' h => ?_)
    (unqualified_spec condition)
  cases h
  exact hf ref p

@[simp] theorem unqualified_unqualified (condition : Expr) :
    unqualified (unqualified condition) = unqualified condition := by
  have h := replaceColumnsM_unqualified
    (f := fun ref position => some (.column (.plain ref.name) position)) (fun _ _ => rfl) condition
  rw [unqualified_spec, unqualified_spec] at h
  exact Option.some.inj h

@[simp] theorem through?_unqualified (p : Projection) (condition : Expr) :
    p.through? (unqualified condition) = p.through? condition :=
  replaceColumnsM_unqualified (fun _ _ => rfl) condition

/-- What a projection does with a condition that is moved below it. -/
theorem pushInto?_below {m : Model} {p : Projection} (hp : m.projection = some p)
    (condition : Expr) :
    m.pushInto? condition =
      if m.keepsFiltersOut then none
      else m.nested?.bind fun body => (p.through? condition).bind fun moved =>
        (body.pushInto? moved).map fun body => { m with source := .nested body } := by
  obtain ⟨projection, source, _, _, _, _, _, _, _, _, _⟩ := m
  obtain rfl : projection = some p := hp
  cases source with
  | table name table => simp [pushInto?, nested?]
  | nested body =>
    simp only [pushInto?, nested?, Option.bind_some]
    congr 1
    cases p.through? condition with
    | none => rfl
    | some moved =>
      simp only [Option.bind_some]
      cases body.pushInto? moved <;> rfl

/-- Qualifiers do not count when a condition goes into a model. -/
theorem pushInto?_unqualified (m : Model) (condition : Expr) :
    m.pushInto? (unqualified condition) = m.pushInto? condition := by
  cases hp : m.projection with
  | none => rw [pushInto?_source hp, pushInto?_source hp, unqualified_unqualified]
  | some p => rw [pushInto?_below hp, pushInto?_below hp, through?_unqualified]

/-! ### The way down -/

/-- A condition on the rows of a model as one on the rows that it reads, which have no
qualifiers. -/
def wordedBelow (m : Model) (condition : Expr) : Expr :=
  unqualified <| match m.projection with
    | none => condition
    | some p => (p.through? condition).getD condition

/-- The model that a condition meets after so many steps down the nested sources, and the
condition as one on the rows of that model. -/
def meets? (m : Model) (condition : Expr) : Nat → Option (Model × Expr)
  | 0 => some (m, condition)
  | depth + 1 => m.nested?.bind fun inner => inner.meets? (m.wordedBelow condition) depth

/-- The model with one of its nested sources changed. -/
def changeAt (m : Model) (change : Model → Model) : Nat → Model
  | 0 => change m
  | depth + 1 =>
    match m.source with
    | .table .. => m
    | .nested inner => { m with source := .nested (inner.changeAt change depth) }

/-- A condition may go on inside a model: the model looks at its rows one by one, and is a
row source without joins or a projection that passes the condition. -/
structure LetsIn (m : Model) (condition : Expr) : Prop where
  limit : m.limit = none
  latestBy : m.latestBy = []
  sampleBy : m.sampleBy = none
  windows : m.isAnalytic = false
  joins : m.projection = none → m.joins = []
  columns : ∀ p, m.projection = some p → p.Passes condition

/-- So many steps down is a row source, and every model on the way there lets the condition
in. -/
def OpenTo (m : Model) (condition : Expr) (depth : Nat) : Prop :=
  (∃ node kept, m.meets? condition depth = some (node, kept) ∧ node.projection = none) ∧
    ∀ i, 0 < i → i ≤ depth → ∀ node kept, m.meets? condition i = some (node, kept) →
      node.LetsIn kept

variable {m inner : Model} {condition : Expr}

theorem keepsFiltersOut_eq_false :
    m.keepsFiltersOut = false ↔
      m.limit = none ∧ m.latestBy = [] ∧ m.sampleBy = none ∧ m.isAnalytic = false := by
  simp [keepsFiltersOut, and_assoc]

theorem letsIn_source (hp : m.projection = none) :
    m.LetsIn condition ↔ m.combinesRows = false := by
  rw [combinesRows, Bool.or_eq_false_iff, keepsFiltersOut_eq_false, Bool.not_eq_false',
    List.isEmpty_iff]
  constructor
  · intro h
    exact ⟨⟨h.limit, h.latestBy, h.sampleBy, h.windows⟩, h.joins hp⟩
  · rintro ⟨⟨hlimit, hlatest, hsample, hwindows⟩, hjoins⟩
    exact ⟨hlimit, hlatest, hsample, hwindows, fun _ => hjoins, fun p h => by simp [hp] at h⟩

theorem letsIn_projection {p : Projection} (hp : m.projection = some p) :
    m.LetsIn condition ↔ m.keepsFiltersOut = false ∧ (p.through? condition).isSome := by
  rw [keepsFiltersOut_eq_false, Projection.isSome_through?]
  constructor
  · intro h
    exact ⟨⟨h.limit, h.latestBy, h.sampleBy, h.windows⟩, h.columns p hp⟩
  · rintro ⟨⟨hlimit, hlatest, hsample, hwindows⟩, hpasses⟩
    refine ⟨hlimit, hlatest, hsample, hwindows, fun h => by simp [hp] at h, fun q hq => ?_⟩
    obtain rfl : p = q := Option.some.inj (hp.symm.trans hq)
    exact hpasses

theorem meets?_succ (hsource : m.source = .nested inner) (depth : Nat) :
    m.meets? condition (depth + 1) = inner.meets? (m.wordedBelow condition) depth := by
  simp [meets?, nested?, hsource]

theorem openTo_zero : m.OpenTo condition 0 ↔ m.projection = none := by
  constructor
  · rintro ⟨⟨node, kept, hmeets, hnode⟩, -⟩
    cases hmeets
    exact hnode
  · intro hp
    exact ⟨⟨m, condition, rfl, hp⟩, fun i hpos hle => by omega⟩

theorem openTo_succ {depth : Nat} :
    m.OpenTo condition (depth + 1) ↔
      ∃ inner, m.source = .nested inner ∧ inner.LetsIn (m.wordedBelow condition) ∧
        inner.OpenTo (m.wordedBelow condition) depth := by
  cases hsource : m.source with
  | table name table => simp [OpenTo, meets?, nested?, hsource]
  | nested inner =>
    simp only [RowSource.nested.injEq, exists_eq_left']
    constructor
    · rintro ⟨⟨node, kept, hmeets, hnode⟩, hway⟩
      rw [meets?_succ hsource] at hmeets
      refine ⟨hway 1 (by omega) (by omega) _ _ (meets?_succ hsource 0), ⟨node, kept, hmeets, hnode⟩,
        fun i _ hle node kept hi => ?_⟩
      exact hway (i + 1) (by omega) (by omega) node kept (by rw [meets?_succ hsource, hi])
    · rintro ⟨hinner, ⟨node, kept, hmeets, hnode⟩, hway⟩
      refine ⟨⟨node, kept, (meets?_succ hsource depth).trans hmeets, hnode⟩,
        fun i hpos hle node kept hi => ?_⟩
      obtain ⟨i, rfl⟩ := Nat.exists_eq_succ_of_ne_zero hpos.ne'
      rw [Nat.succ_eq_add_one, meets?_succ hsource] at hi
      cases i with
      | zero =>
        cases hi
        exact hinner
      | succ i => exact hway (i + 1) (by omega) (by omega) node kept hi

/-! ### Where filters land -/

/-- A model with one more conjunct in the filter of one row source, the deepest that the
condition may go down to. -/
def LandsIn (m : Model) (condition : Expr) (m' : Model) : Prop :=
  ∃ depth node kept, IsGreatest {depth | m.OpenTo condition depth} depth ∧
    m.meets? condition depth = some (node, kept) ∧
    m' = m.changeAt (·.withFilter kept) depth

/-- Where the condition cannot go on it stays. -/
theorem landsIn_here (hp : m.projection = none)
    (hclosed : ∀ inner, m.source = .nested inner → inner.LetsIn (m.wordedBelow condition) →
      ∀ depth, ¬ inner.OpenTo (m.wordedBelow condition) depth) :
    m.LandsIn condition (m.withFilter condition) := by
  refine ⟨0, m, condition, ⟨openTo_zero.mpr hp, fun depth hdepth => ?_⟩, rfl, rfl⟩
  cases depth with
  | zero => exact Nat.le_refl 0
  | succ depth =>
    obtain ⟨inner, hsource, hinner, hopen⟩ := openTo_succ.mp hdepth
    exact absurd hopen (hclosed inner hsource hinner depth)

/-- A condition that lands in the source that a model reads lands in the model. -/
theorem landsIn_nested (hsource : m.source = .nested inner) {inner' : Model}
    (hinner : inner.LetsIn (m.wordedBelow condition))
    (h : inner.LandsIn (m.wordedBelow condition) inner') :
    m.LandsIn condition { m with source := .nested inner' } := by
  obtain ⟨depth, node, kept, ⟨hopen, hdeepest⟩, hmeets, rfl⟩ := h
  refine ⟨depth + 1, node, kept, ⟨openTo_succ.mpr ⟨inner, hsource, hinner, hopen⟩,
    fun d hd => ?_⟩, (meets?_succ hsource depth).trans hmeets, ?_⟩
  · cases d with
    | zero => exact Nat.zero_le _
    | succ d =>
      obtain ⟨_, hsource', -, hd⟩ := openTo_succ.mp hd
      obtain rfl := RowSource.nested.inj (hsource.symm.trans hsource')
      exact Nat.succ_le_succ (hdeepest hd)
  · simp only [changeAt, hsource]

/-- A condition goes into a model that lets it in as far as there is an open way, and into
no other. -/
def TakesIn (m : Model) (condition : Expr) : Prop :=
  (∀ m', m.pushInto? condition = some m' → m.LetsIn condition ∧ m.LandsIn condition m') ∧
    (m.pushInto? condition = none → m.LetsIn condition → ∀ depth, ¬ m.OpenTo condition depth)

/-- What becomes of a condition in a row source, given what the source below does with it. -/
theorem landsIn_addFilter (hp : m.projection = none)
    (below : ∀ inner, m.source = .nested inner → inner.TakesIn (m.wordedBelow condition)) :
    m.LandsIn condition (m.addFilter condition) := by
  have hworded : m.wordedBelow condition = unqualified condition := by simp [wordedBelow, hp]
  unfold addFilter
  split
  · rename_i hsource
    exact landsIn_here hp fun inner h => by simp [hsource] at h
  · rename_i inner hsource
    obtain ⟨htaken, hrefused⟩ := below inner hsource
    rw [hworded, pushInto?_unqualified, ← hworded] at htaken hrefused
    split
    · rename_i inner' hpush
      obtain ⟨hinner, hlands⟩ := htaken inner' hpush
      exact landsIn_nested hsource hinner hlands
    · rename_i hpush
      refine landsIn_here hp fun inner' h => ?_
      obtain rfl := RowSource.nested.inj (hsource.symm.trans h)
      exact hrefused hpush

/-- What becomes of a condition at a projection, given what the model below does with it. -/
theorem takesIn_projection {p : Projection} (hp : m.projection = some p)
    (below : ∀ inner, m.source = .nested inner → inner.TakesIn (m.wordedBelow condition)) :
    m.TakesIn condition := by
  have hworded : ∀ {moved}, p.through? condition = some moved →
      m.wordedBelow condition = unqualified moved := fun h => by simp [wordedBelow, hp, h]
  constructor
  · intro m' h
    obtain ⟨hkeeps, body, moved, body', hsource, hmoved, hpush, rfl⟩ := pushInto?_projection hp h
    rw [← pushInto?_unqualified, ← hworded hmoved] at hpush
    obtain ⟨hbody, hlands⟩ := (below body hsource).1 body' hpush
    exact ⟨(letsIn_projection hp).mpr ⟨hkeeps, Option.isSome_of_eq_some hmoved⟩,
      landsIn_nested hsource hbody hlands⟩
  · intro hnone hin depth hopen
    obtain ⟨hkeeps, hpasses⟩ := (letsIn_projection hp).mp hin
    obtain ⟨moved, hmoved⟩ := Option.isSome_iff_exists.mp hpasses
    cases depth with
    | zero => simp [openTo_zero, hp] at hopen
    | succ depth =>
      obtain ⟨body, hsource, hbody, hopen⟩ := openTo_succ.mp hopen
      refine (below body hsource).2 ?_ hbody depth hopen
      rw [hworded hmoved, pushInto?_unqualified]
      simpa [pushInto?_below hp, hkeeps, nested?, hsource, hmoved] using hnone

/-- What becomes of a condition in a row source that it is moved into. -/
theorem takesIn_source (hp : m.projection = none) (hplain : unqualified condition = condition)
    (below : ∀ inner, m.source = .nested inner → inner.TakesIn (m.wordedBelow condition)) :
    m.TakesIn condition := by
  rw [TakesIn, letsIn_source hp, pushInto?_source hp, hplain]
  cases hrows : m.combinesRows with
  | true => simp
  | false =>
    simp only [Bool.false_eq_true, if_false, Option.some.injEq, reduceCtorEq, true_and,
      false_implies, and_true]
    rintro m' rfl
    exact landsIn_addFilter hp below

/-- Every model takes in the conditions that are written without qualifiers as far as there
is an open way. -/
theorem takesIn (m : Model) (condition : Expr) (hplain : unqualified condition = condition) :
    m.TakesIn condition := by
  induction m using nestedInduct generalizing condition with
  | step m ih =>
    have below := fun inner hsource =>
      ih inner hsource (m.wordedBelow condition) (unqualified_unqualified _)
    cases hp : m.projection with
    | none => exact takesIn_source hp hplain below
    | some p => exact takesIn_projection hp below

/-! ### What is handed back -/

/-- A condition offered to a model that is changed in place: the model that is left, and the
condition if it is handed back. -/
def offer : Model → Expr → Model × Option Expr
  | m@{ projection := none, source := .table .., joins, .. }, condition =>
    if m.keepsFiltersOut || !joins.isEmpty then (m, some condition)
    else (m.withFilter (unqualified condition), none)
  | m@{ projection := none, source := .nested inner, joins, .. }, condition =>
    if m.keepsFiltersOut || !joins.isEmpty then (m, some condition)
    else match offer inner (unqualified condition) with
      | (inner, none) => ({ m with source := .nested inner }, none)
      | (inner, some back) => (withFilter { m with source := .nested inner } back, none)
  | m@{ projection := some _, source := .table .., .. }, condition => (m, some condition)
  | m@{ projection := some p, source := .nested body, .. }, condition =>
    if m.keepsFiltersOut then (m, some condition)
    else match p.through? condition with
      | none => (m, some condition)
      | some moved =>
        match offer body moved with
        | (body, none) => ({ m with source := .nested body }, none)
        | (body, some _) => ({ m with source := .nested body }, some condition)

/-- A model that hands a condition back is left as it was, and so is the condition; one that
takes it is what `pushInto?` makes of it. -/
theorem offer_eq (m : Model) (condition : Expr) :
    m.offer condition =
      match m.pushInto? condition with
      | some m' => (m', none)
      | none => (m, some condition) := by
  induction m using nestedInduct generalizing condition with
  | step m ih =>
    obtain ⟨projection, source, _, _, _, _, _, _, _, _, _⟩ := m
    cases projection with
    | none =>
      cases source with
      | table name table =>
        simp only [offer, pushInto?]
        split <;> rfl
      | nested inner =>
        simp only [offer, pushInto?, ih inner rfl]
        split
        · rfl
        · cases inner.pushInto? (unqualified condition) <;> rfl
    | some p =>
      cases source with
      | table name table => rfl
      | nested body =>
        simp only [offer, pushInto?]
        split
        · rfl
        · cases p.through? condition with
          | none => rfl
          | some moved =>
            simp only [ih body rfl]
            cases body.pushInto? moved <;> rfl

/-- A filter on a row source is one more conjunct in the filter of a single row source on the
chain of nested sources: the deepest that it may go down to. Models that refuse it on the way
leave themselves and the filter as they were. -/
theorem addFilter_lands {m : Model} (hp : m.projection = none) (condition : Expr) :
    (∃ depth node kept, IsGreatest {depth | m.OpenTo condition depth} depth ∧
      m.meets? condition depth = some (node, kept) ∧
      m.addFilter condition = m.changeAt (·.withFilter kept) depth) ∧
    ∀ (n : Model) (e : Expr), n.offer e =
      match n.pushInto? e with
      | some n' => (n', none)
      | none => (n, some e) :=
  ⟨landsIn_addFilter hp fun inner _ => takesIn inner _ (unqualified_unqualified _), offer_eq⟩

/-- A filter on the key of a group ends up two models down, one on the size of the group
stays. -/
theorem addFilter_lands_key_and_size :
    let key := Expr.equality (.column (.qualified "g" "k") 0) (.constant "1" 0)
    let size := Expr.equality (.column (.plain "n") 0) (.constant "2" 0)
    let kept := Expr.equality (.column (.plain "x") 0) (.constant "1" 0)
    let groupSizes := RowSemantics.groupSizes
    groupSizes.projection = none ∧
      (∃ depth node kept, IsGreatest {depth | groupSizes.OpenTo key depth} depth ∧
        groupSizes.meets? key depth = some (node, kept) ∧
        groupSizes.addFilter key = groupSizes.changeAt (·.withFilter kept) depth) ∧
      groupSizes.addFilter key = groupSizes.changeAt (·.withFilter kept) 2 ∧
      groupSizes.addFilter size = groupSizes.changeAt (·.withFilter size) 0 ∧
      ∀ body, groupSizes.source = .nested body → body.offer size = (body, some size) := by
  refine ⟨rfl, (addFilter_lands rfl _).1, rfl, rfl, fun body hbody => ?_⟩
  obtain rfl := RowSource.nested.inj hbody
  rfl

end Model

end SeriesQuery
