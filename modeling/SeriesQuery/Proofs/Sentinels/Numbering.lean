import SeriesQuery.Proofs.Levels
import SeriesQuery.Proofs.Placement.Criteria
import SeriesQuery.Proofs.Sentinels.Marking

/-!
What the numbers of sentinels change.

A statement is compiled with sentinels and without them. Step by step the two compilations fail alike,
or come to the same answers but for the sentinels, whose numbers are the next ones to be given out
(`Compile.Agrees`). As every joined source is placed once, no number is lost on the way, and in the end
the one model is the other with sentinels numbered from 1 (`compile_sentinels`).
-/

namespace SeriesQuery

open Compile

/-! ### Programs over models -/

namespace Model

/-- What is done to a model, if it is, keeps its joins, and may be done before sentinels are given or
after. -/
structure UnmarkedM (f : Model → Except SqlError Model) : Prop where
  crossJoins : ∀ {m m'}, f m = .ok m' → m'.crossJoins = m.crossJoins
  commutes : ∀ m numbers, f (m.withSentinels numbers) = (f m).map (·.withSentinels numbers)

namespace UnmarkedM

theorem pure {f : Model → Model} (hf : Unmarked f) : UnmarkedM fun m => Pure.pure (f m) where
  crossJoins := by
    intro m m' h
    cases h
    exact hf.crossJoins m
  commutes m numbers := congrArg Except.ok (hf.commutes m numbers)

theorem fail (e : SqlError) : UnmarkedM fun _ => .error e where
  crossJoins h := by cases h
  commutes _ _ := rfl

/-- What is read off a model before it is changed does not look at constant filters. -/
theorem reading {β : Type} {x : Model → Except SqlError β} {f : β → Model → Except SqlError Model}
    (hx : ∀ m numbers, x (m.withSentinels numbers) = x m) (hf : ∀ b, UnmarkedM (f b)) :
    UnmarkedM fun m => x m >>= fun b => f b m where
  crossJoins := by
    intro m m' h
    obtain ⟨b, -, h⟩ := Except.bind_eq_ok.mp h
    exact (hf b).crossJoins h
  commutes m numbers := by
    simp only [hx]
    cases x m with
    | error e => rfl
    | ok b => exact (hf b).commutes m numbers

theorem comp {f g : Model → Except SqlError Model} (hf : UnmarkedM f) (hg : UnmarkedM g) :
    UnmarkedM fun m => f m >>= g where
  crossJoins := by
    intro m m' h
    obtain ⟨between, hbetween, h⟩ := Except.bind_eq_ok.mp h
    exact (hg.crossJoins h).trans (hf.crossJoins hbetween)
  commutes m numbers := by
    simp only [hf.commutes]
    cases f m with
    | error e => rfl
    | ok between => exact hg.commutes between numbers

theorem after {f : Model → Model} {g : Model → Except SqlError Model} (hf : Unmarked f)
    (hg : UnmarkedM g) : UnmarkedM fun m => g (f m) :=
  (pure hf).comp hg

end UnmarkedM

end Model

open Model

/-! ### Clauses -/

namespace Clause

theorem unmarked_setTimestamp (scope : Scope) (timestamp : Option Expr) :
    UnmarkedM (setTimestamp scope timestamp) := by
  cases timestamp with
  | none => exact .pure .id
  | some e =>
    unfold setTimestamp
    dsimp only
    cases inMaster scope e with
    | error e => exact .fail e
    | ok _ => exact .pure (.withTimestamp (some e))

theorem unmarked_setLatestBy (scope : Scope) (columns : List Expr) :
    UnmarkedM (setLatestBy scope columns) := by
  unfold setLatestBy
  cases allInMaster scope columns with
  | error e => exact .fail e
  | ok _ =>
    dsimp only
    split
    · exact .pure .id
    · exact .pure (.update fun _ _ _ _ => rfl)

theorem sampleColumn_withSentinels (scope : Scope) (m : Model) (numbers : List Nat) (interval : Expr) :
    sampleColumn scope (m.withSentinels numbers) interval = sampleColumn scope m interval := by
  rw [sampleColumn, designatedTimestamp?_withSentinels, sampleColumn]

theorem checkSampleBelow_withSentinels (layers : Option Layers) (nested : Bool) (m : Model)
    (numbers : List Nat) :
    checkSampleBelow layers nested (m.withSentinels numbers) = checkSampleBelow layers nested m := by
  unfold checkSampleBelow
  rw [pendingSampleBy?_withSentinels]

theorem unmarked_leaveSampleBy (scope : Scope) (nested : Bool) (interval : Expr) :
    UnmarkedM fun m => leaveSampleBy scope nested m interval := by
  unfold leaveSampleBy
  cases nested with
  | false => exact .fail _
  | true =>
    refine .reading (fun m numbers => sampleColumn_withSentinels scope m numbers interval) fun key => ?_
    exact .pure (.update fun _ _ _ _ => rfl)

theorem unmarked_bind_setSampleBy (select : SelectClause) (scope : Scope) (interval : Expr)
    {finish : Expr → Model → Except SqlError Model} (hfinish : ∀ key, UnmarkedM (finish key)) :
    UnmarkedM fun m => setSampleBy select scope m interval >>= fun r => finish r.1 r.2 := by
  have hset : ∀ m, (setSampleBy select scope m interval >>= fun r => finish r.1 r.2) =
      select.resolve scope >>= fun aggregates =>
        if aggregates then sampleColumn scope m interval >>= fun key =>
          finish key { m with timestamp := none }
        else .error (needsAggregate interval) := by
    intro m
    unfold setSampleBy
    cases select.resolve scope with
    | error e => rfl
    | ok aggregates =>
      cases aggregates with
      | false => rfl
      | true => cases sampleColumn scope m interval <;> rfl
  simp only [hset]
  refine .reading (fun _ _ => rfl) fun aggregates => ?_
  cases aggregates with
  | false => exact .fail _
  | true =>
    refine .reading (fun m numbers => sampleColumn_withSentinels scope m numbers interval) fun key => ?_
    exact .after (.update fun _ _ _ _ => rfl) (hfinish key)

theorem unmarked_orderBody (scope : Scope) (maxColumns : Nat) (items : List OrderItem) :
    UnmarkedM (orderBody scope maxColumns items) := by
  unfold orderBody
  split
  · exact .pure .id
  · refine .reading (fun _ _ => rfl) fun _ => .reading (fun _ _ => rfl) fun _ => ?_
    exact .pure (.update fun _ _ _ _ => rfl)

/-- The layers of a level with its `limit`, on the row source. -/
theorem unmarked_setLimit (limit : Option Limit) (l : Layers) :
    Unmarked fun m => (setLimit limit l m).1.onto (setLimit limit l m).2 := by
  cases limit with
  | none => exact .onto l
  | some limit =>
    unfold setLimit
    by_cases h : limitsLayers l = true
    · simp only [h, if_true]
      exact .onto _
    · simp only [h, Bool.false_eq_true, if_false]
      exact (Unmarked.onto l).comp (.update fun _ _ _ _ => rfl)

end Clause

namespace Compile

/-- **A level is finished the same way with sentinels.** -/
theorem unmarked_finishLevel (env : Environment) (nested : Bool) (scope : Scope) (q : Query) :
    UnmarkedM (finishLevel env nested scope q) := by
  obtain ⟨position, select, source, givenName, timestamp, latestBy, joins, filter, sampleBy,
    orderBy, limit⟩ := q
  unfold finishLevel
  cases select with
  | none =>
    simp -zeta only
    extract_lets maxColumns finish
    have hfinish : UnmarkedM finish := by
      refine .reading (fun m numbers => Clause.checkSampleBelow_withSentinels none nested m numbers)
        fun _ => ?_
      exact (Clause.unmarked_orderBody scope maxColumns orderBy).comp (.pure (.update fun _ _ _ _ => rfl))
    cases sampleBy with
    | none => exact hfinish
    | some interval => exact (Clause.unmarked_leaveSampleBy scope nested interval).comp hfinish
  | some select =>
    simp -zeta only
    extract_lets maxColumns finish
    have hfinish : ∀ key, UnmarkedM fun m => finish (key, m) := by
      intro key
      refine .reading (fun _ _ => rfl) fun layers => ?_
      refine .reading (fun m numbers => Clause.checkSampleBelow_withSentinels _ nested m numbers)
        fun _ => ?_
      refine .reading (fun _ _ => rfl) fun layers => ?_
      exact .pure (Clause.unmarked_setLimit limit layers)
    cases sampleBy with
    | none => exact hfinish none
    | some interval =>
      exact Clause.unmarked_bind_setSampleBy select scope interval fun key => hfinish (some key)

/-! ### Two compilations -/

/-- How two programs end: with the same error, or with answers that are related by the numbers that the
second one has given out, the next ones after `start`. -/
inductive Outcomes {α : Type} (R : α → α → List Nat → Prop) (start : Nat) :
    Except SqlError (α × Counters) → Except SqlError (α × Counters) → Prop where
  | failed (e : SqlError) : Outcomes R start (.error e) (.error e)
  | done {a a' : α} {c c' : Counters} {numbers : List Nat} (answers : R a a' numbers)
      (aliases : c'.aliases = c.aliases)
      (next : numbers.Perm (List.range' (start + 1) numbers.length))
      (given : c'.sentinels = start + numbers.length) :
      Outcomes R start (.ok (a, c)) (.ok (a', c'))

/-- The second program does what the first one does, and gives out numbers besides. -/
def Agrees {α : Type} (R : α → α → List Nat → Prop) (plain marked : CompileM α) : Prop :=
  ∀ c c', c'.aliases = c.aliases → Outcomes R c'.sentinels (plain c) (marked c')

namespace Agrees

variable {α β : Type} {R R' : α → α → List Nat → Prop} {S : β → β → List Nat → Prop}
  {plain marked : CompileM α}

theorem pure {a a' : α} (h : R a a' []) : Agrees R (Pure.pure a) (Pure.pure a') :=
  fun _ _ haliases => .done h haliases .nil rfl

/-- The numbers may be listed in another order. -/
theorem mono (h : Agrees R plain marked)
    (himp : ∀ a a' numbers, R a a' numbers → ∃ listed, listed.Perm numbers ∧ R' a a' listed) :
    Agrees R' plain marked := by
  intro c c' haliases
  have hend := h c c' haliases
  generalize plain c = ended at hend ⊢
  generalize marked c' = ended' at hend ⊢
  cases hend with
  | failed e => exact .failed e
  | done answers aliases next given =>
    obtain ⟨listed, hperm, hanswers⟩ := himp _ _ _ answers
    have hlength := hperm.length_eq
    exact .done hanswers aliases (hlength ▸ hperm.trans next) (hlength ▸ given)

/-- The second parts give out the numbers after those of the first parts. -/
theorem bind {f f' : α → CompileM β} (h : Agrees R plain marked)
    (hf : ∀ a a' numbers, R a a' numbers → Agrees (fun b b' more => S b b' (numbers ++ more)) (f a) (f' a')) :
    Agrees S (plain >>= f) (marked >>= f') := by
  intro c c' haliases
  have hend := h c c' haliases
  simp only [Bind.bind, StateT.bind, Except.bind]
  generalize plain c = ended at hend ⊢
  generalize marked c' = ended' at hend ⊢
  cases hend with
  | failed e => exact .failed e
  | @done a a' d d' numbers answers aliases next given =>
    have hrest := hf a a' numbers answers d d' aliases
    rw [given] at hrest
    dsimp only
    generalize f a d = ended at hrest ⊢
    generalize f' a' d' = ended' at hrest ⊢
    cases hrest with
    | failed e => exact .failed e
    | @done b b' _ _ more answers aliases after given =>
      refine .done answers aliases ?_ (by rw [given, List.length_append, Nat.add_assoc])
      have hrange : List.range' (c'.sentinels + 1) numbers.length ++
          List.range' (c'.sentinels + numbers.length + 1) more.length =
            List.range' (c'.sentinels + 1) (numbers ++ more).length := by
        rw [List.length_append, ← List.range'_append_1]
        congr 2
        omega
      exact hrange ▸ next.append after

/-- Programs without numbers. -/
theorem lift {x x' : Except SqlError α} {g : α → α} (h : x' = x.map g) :
    Agrees (fun a a' numbers => x = .ok a ∧ a' = g a ∧ numbers = []) (liftM x) (liftM x') := by
  subst h
  intro c c' haliases
  cases x with
  | error e => exact .failed e
  | ok a => exact .done ⟨rfl, rfl, rfl⟩ haliases .nil rfl

end Agrees

/-! ### Sources -/

theorem madeUpAlias_agrees :
    Agrees (fun a a' numbers => a' = a ∧ numbers = []) madeUpAlias madeUpAlias := by
  intro c c' haliases
  have hsame : madeUpAlias c' = .ok ("_xQdbA" ++ toString c.aliases,
      { c' with aliases := c.aliases + 1 }) := by
    rw [← haliases]
    rfl
  rw [hsame]
  exact .done ⟨rfl, rfl⟩ rfl .nil rfl

/-- A source that stands in a level under its name, and the same source with sentinels. -/
structure Marks (m m' : Model) (numbers : List Nat) : Prop where
  eq : m' = m.withSentinels numbers
  count : numbers.length = m.crossJoins
  joins : m.joins = []

theorem Marks.update {m m' : Model} {numbers : List Nat} (h : Marks m m' numbers) {f : Model → Model}
    (hf : Unmarked f) (hjoins : (f m).joins = m.joins) : Marks (f m) (f m') numbers where
  eq := by rw [h.eq, hf.commutes]
  count := h.count.trans (hf.crossJoins m).symm
  joins := hjoins.trans h.joins

theorem Marks.ownColumns {m m' : Model} {numbers : List Nat} (h : Marks m m' numbers) :
    m'.ownColumns = m.ownColumns := by
  rw [h.eq, ownColumns_withSentinels]

theorem Marks.name {m m' : Model} {numbers : List Nat} (h : Marks m m' numbers) :
    m'.name? = m.name? := by
  rw [h.eq, name?_withSentinels]

theorem Marks.lift {m m' : Model} {numbers : List Nat} (h : Marks m m' numbers)
    {f : Model → Except SqlError Model} (hf : UnmarkedM f)
    (hjoins : ∀ n, f m = .ok n → n.joins = m.joins) :
    Agrees (fun n n' more => Marks n n' numbers ∧ more = []) (liftM (f m)) (liftM (f m')) := by
  rw [h.eq]
  refine (Agrees.lift (hf.commutes m numbers)).mono fun n n' more hn => ⟨more, .refl _, ?_⟩
  obtain ⟨hn, heq, hmore⟩ := hn
  exact ⟨⟨heq, h.count.trans (hf.crossJoins hn).symm, (hjoins n hn).trans h.joins⟩, hmore⟩

theorem Agrees.same {α : Type} (x : Except SqlError α) :
    Agrees (fun a a' numbers => x = .ok a ∧ a' = a ∧ numbers = []) (liftM x) (liftM x) :=
  .lift (g := fun a => a) (by cases x <;> rfl)

theorem nameSource_agrees {m m' : Model} {numbers : List Nat} (h : Marks m m' numbers)
    (given : Option Ident) (needsName : Bool) :
    Agrees (fun n n' more => Marks n n' numbers ∧ more = []) (nameSource m given needsName)
      (nameSource m' given needsName) := by
  have hnamed := h.update (Unmarked.withName (given.map Ident.name)) rfl
  unfold nameSource
  simp only [hnamed.name]
  split
  · refine .bind madeUpAlias_agrees fun name name' none hmade => ?_
    obtain ⟨rfl, rfl⟩ := hmade
    exact .pure ⟨hnamed.update (Unmarked.withName (some name')) rfl, rfl⟩
  · exact .pure ⟨hnamed, rfl⟩

theorem addMaster_agrees {m m' : Model} {numbers : List Nat} (h : Marks m m' numbers) (q : Query) :
    Agrees (fun r r' more => Marks r.1 r'.1 numbers ∧ r'.2 = r.2 ∧ more = []) (addMaster q m)
      (addMaster q m') := by
  unfold addMaster
  refine .bind (nameSource_agrees h q.givenName _) fun master master' _ hmaster => ?_
  obtain ⟨hmaster, rfl⟩ := hmaster
  rw [hmaster.name, hmaster.ownColumns]
  refine .bind (Agrees.same _) fun scope scope' _ hscope => ?_
  obtain ⟨-, rfl, rfl⟩ := hscope
  have hstamp := hmaster.lift (Clause.unmarked_setTimestamp scope' q.timestamp) fun n hn => by
    rw [setTimestamp_eq hn]
  refine .bind hstamp fun stamped stamped' _ hstamped => ?_
  obtain ⟨hstamped, rfl⟩ := hstamped
  have hlatest := hstamped.lift (Clause.unmarked_setLatestBy scope' q.latestBy) fun n hn => by
    obtain ⟨_, -, rfl⟩ := setLatestBy_eq hn
    rfl
  refine .bind hlatest fun latest latest' _ hlatest => ?_
  obtain ⟨hlatest, rfl⟩ := hlatest
  exact .pure ⟨hlatest, rfl, rfl⟩

/-! ### Joins -/

/-- A joined source with sentinels. -/
def markPending (p : UnplacedJoin × List Nat) : UnplacedJoin :=
  { p.1 with model := p.1.model.withSentinels p.2 }

/-- The sources of a level, and the same sources with sentinels. -/
structure MarksSources (s s' : Sources) (numbers : List Nat)
    (pairs : List (UnplacedJoin × List Nat)) : Prop where
  joins : s.joins = pairs.map Prod.fst
  marked : s'.joins = pairs.map markPending
  numbers : numbers = pairs.flatMap Prod.snd
  counts : ∀ p ∈ pairs, p.2.length = p.1.model.crossJoins
  scope : s'.scope = s.scope
  conjuncts : s'.conjuncts = s.conjuncts

theorem onConjuncts_congr {joined joined' master master' : Model} (hj : joined'.name? = joined.name?)
    (hm : master'.name? = master.name?) (index : Nat) (condition : Option JoinCondition) :
    onConjuncts index joined' master' condition = onConjuncts index joined master condition := by
  have hshared : sharedColumn joined' master' = sharedColumn joined master := by
    funext column
    simp only [sharedColumn, hj, hm]
  cases condition with
  | none => rfl
  | some condition =>
    cases condition with
    | on _ => rfl
    | columns names => rw [onConjuncts, onConjuncts, hshared]

theorem addJoin_agrees {master master' m m' : Model} {s s' : Sources} {numbers joined : List Nat}
    {pairs : List (UnplacedJoin × List Nat)} (hmaster : master'.name? = master.name?)
    (hm : Marks m m' joined) (hs : MarksSources s s' numbers pairs) (j : JoinOf Query) :
    Agrees (fun t t' more => (∃ pairs, MarksSources t t' (numbers ++ joined) pairs) ∧ more = [])
      (addJoin master j m s) (addJoin master' j m' s') := by
  unfold addJoin
  refine .bind (nameSource_agrees hm j.givenName _) fun n n' _ hn => ?_
  obtain ⟨hn, rfl⟩ := hn
  rw [hn.name, hn.ownColumns, hs.scope]
  refine .bind (Agrees.same _) fun scope scope' _ hscope => ?_
  obtain ⟨-, rfl, rfl⟩ := hscope
  refine .pure ⟨⟨pairs ++ [(⟨j.kind, j.position, n⟩, joined)], ?_⟩, rfl⟩
  constructor
  · rw [List.map_append, ← hs.joins]
    rfl
  · rw [List.map_append, ← hs.marked, hn.eq]
    rfl
  · rw [List.flatMap_append, ← hs.numbers, List.flatMap_singleton]
  · intro p hp
    rcases List.mem_append.mp hp with hp | hp
    · exact hs.counts p hp
    · rw [List.mem_singleton.mp hp]
      exact hn.count
  · rfl
  · rw [hs.conjuncts, onConjuncts_congr hn.name hmaster]

/-! ### Placed joins -/

/-- The joins as they are placed, each with the numbers of its model. -/
def placedPairs (placement : Placement) (pairs : List (UnplacedJoin × List Nat)) :
    List (JoinClause Model × List Nat) :=
  placement.order.tail.filterMap fun source =>
    pairs[source - 1]?.map fun p => (placedJoin placement source p.1, p.2)

/-- A placed join with sentinels. -/
def markPlaced (p : JoinClause Model × List Nat) : JoinClause Model :=
  { p.1 with model := p.1.model.withSentinels p.2 }

theorem placedJoins_map_fst (placement : Placement) (pairs : List (UnplacedJoin × List Nat)) :
    placedJoins placement (pairs.map Prod.fst) = (placedPairs placement pairs).map Prod.fst := by
  simp only [placedJoins, placedPairs, List.map_filterMap, List.getElem?_map, Option.map_map,
    Function.comp_def]

/-- Joins are placed the same way with sentinels. -/
theorem placedJoins_map_markPending (placement : Placement) (pairs : List (UnplacedJoin × List Nat)) :
    placedJoins placement (pairs.map markPending) = (placedPairs placement pairs).map markPlaced := by
  have hplaced : ∀ source p, placedJoin placement source (markPending p) =
      markPlaced (placedJoin placement source p.1, p.2) := by
    intro source p
    simp only [placedJoin, markPending, markPlaced, (Unmarked.addFilters _).commutes]
    rfl
  simp only [placedJoins, placedPairs, List.map_filterMap, List.getElem?_map, Option.map_map,
    Function.comp_def, hplaced]

theorem counts_placedPairs (placement : Placement) {pairs : List (UnplacedJoin × List Nat)}
    (h : ∀ p ∈ pairs, p.2.length = p.1.model.crossJoins) :
    ∀ p ∈ placedPairs placement pairs, p.2.length = p.1.model.crossJoins := by
  intro p hp
  obtain ⟨source, -, hp⟩ := List.mem_filterMap.mp hp
  obtain ⟨pending, hpending, rfl⟩ := Option.map_eq_some_iff.mp hp
  exact (h pending (List.mem_of_getElem? hpending)).trans
    ((Unmarked.addFilters _).crossJoins pending.1.model).symm

theorem filterMap_getElem?_range' {α : Type} (l : List α) (start : Nat) :
    (List.range' start l.length).filterMap (fun s => l[s - start]?) = l := by
  induction l generalizing start with
  | nil => rfl
  | cons a l ih =>
    rw [List.length_cons, List.range'_succ, List.filterMap_cons, Nat.sub_self, List.getElem?_cons_zero]
    have hrest : (List.range' (start + 1) l.length).filterMap (fun s => (a :: l)[s - start]?) =
        (List.range' (start + 1) l.length).filterMap (fun s => l[s - (start + 1)]?) := by
      refine List.filterMap_congr fun s hs => ?_
      obtain ⟨hs, -⟩ := List.mem_range'_1.mp hs
      rw [show s - start = s - (start + 1) + 1 by omega, List.getElem?_cons_succ]
    rw [hrest, ih]

/-- Numbered in the order of a placement, the joins are the same as before. -/
theorem perm_placed {α : Type} {placement : Placement} (l : List α)
    (horder : placement.order.tail.Perm (List.range' 1 l.length)) :
    (placement.order.tail.filterMap fun source => l[source - 1]?).Perm l := by
  have hperm := horder.filterMap fun source => l[source - 1]?
  rwa [filterMap_getElem?_range' l 1] at hperm

/-- No number is lost on the way of the joins into their order. -/
theorem numbers_placedPairs {placement : Placement} {pairs : List (UnplacedJoin × List Nat)}
    (horder : placement.order.tail.Perm (List.range' 1 pairs.length)) :
    ((placedPairs placement pairs).flatMap Prod.snd).Perm (pairs.flatMap Prod.snd) := by
  have hplaced : (placedPairs placement pairs).map Prod.snd =
      placement.order.tail.filterMap fun source => (pairs.map Prod.snd)[source - 1]? := by
    simp only [placedPairs, List.map_filterMap, List.getElem?_map, Option.map_map, Function.comp_def]
  have hperm := perm_placed (pairs.map Prod.snd) (by rwa [List.length_map])
  rw [List.flatMap_def, List.flatMap_def, hplaced]
  exact hperm.flatten

/-- Placed joins with sentinels are joined models that are given their numbers from left to right. -/
theorem joinsWithSentinels_pairs {placed : List (JoinClause Model × List Nat)}
    (h : ∀ p ∈ placed, p.2.length = p.1.model.crossJoins) :
    joinsWithSentinels (placed.map Prod.fst) (placed.flatMap Prod.snd) = placed.map markPlaced ∧
      (placed.flatMap Prod.snd).length = crossJoinsIn (placed.map Prod.fst) := by
  induction placed with
  | nil => exact ⟨rfl, rfl⟩
  | cons p placed ih =>
    obtain ⟨hp, hrest⟩ := List.forall_mem_cons.mp h
    obtain ⟨hmarked, hlength⟩ := ih hrest
    rw [List.map_cons, List.flatMap_cons, joinsWithSentinels, crossJoinsIn, ← hp, List.take_left',
      List.drop_left', hmarked, List.length_append, hlength]
    · exact ⟨rfl, rfl⟩
    · rfl
    · rfl

/-! ### Sentinels -/

/-- Without sentinels no number is given out. -/
theorem sentinels_false (joins : List (JoinClause Model)) (c : Counters) :
    sentinels false joins c = .ok ([], c) := by
  induction joins with
  | nil => rfl
  | cons j joins ih => exact ih

/-- The sentinels of a row source take the next numbers. -/
theorem sentinels_true (joins : List (JoinClause Model)) (c : Counters) :
    sentinels true joins c =
      .ok (sentinelsOf joins (List.range' (c.sentinels + 1) (crossPositions joins).length),
        { c with sentinels := c.sentinels + (crossPositions joins).length }) := by
  induction joins generalizing c with
  | nil => rfl
  | cons j joins ih =>
    rw [sentinels]
    by_cases hcross : j.provenance = .implicitCross
    · have hpositions : crossPositions (j :: joins) = j.position :: crossPositions joins := by
        simp [crossPositions, hcross]
      rw [if_pos (by simpa using hcross)]
      change (sentinels true joins { c with sentinels := c.sentinels + 1 } >>= fun rest =>
        Except.ok (sentinel (c.sentinels + 1) j.position :: rest.1, rest.2)) = _
      rw [ih]
      simp only [Bind.bind, Except.bind, sentinelsOf, hpositions, List.length_cons, List.range'_succ,
        List.zipWith_cons_cons]
      congr 3
      omega
    · have hpositions : crossPositions (j :: joins) = crossPositions joins := by
        simp [crossPositions, hcross]
      rw [if_neg (by simpa using hcross), ih]
      simp only [sentinelsOf, hpositions]

theorem crossPositions_markPlaced (placed : List (JoinClause Model × List Nat)) :
    crossPositions (placed.map markPlaced) = crossPositions (placed.map Prod.fst) := by
  simp only [crossPositions, List.filter_map, List.map_map, Function.comp_def, markPlaced]
  rfl

/-- A row source is given its own sentinels, those of its master and those of its joins. -/
theorem withSentinels_joined {base : Model} {own below : List Nat}
    {placed : List (JoinClause Model × List Nat)} (constFilter : Option Expr)
    (hjoins : base.joins = []) (hbelow : below.length = base.crossJoins)
    (hown : own.length = (crossPositions (placed.map Prod.fst)).length)
    (hplaced : ∀ p ∈ placed, p.2.length = p.1.model.crossJoins) :
    ({ base with joins := placed.map Prod.fst, constFilter := constFilter } : Model).withSentinels
        (own ++ (below ++ placed.flatMap Prod.snd)) =
      { base.withSentinels below with
        joins := placed.map markPlaced
        constFilter := Expr.narrowed constFilter (sentinelsOf (placed.map Prod.fst) own) } ∧
    (own ++ (below ++ placed.flatMap Prod.snd)).length =
      ({ base with joins := placed.map Prod.fst, constFilter := constFilter } : Model).crossJoins := by
  obtain ⟨hmarked, hlength⟩ := joinsWithSentinels_pairs hplaced
  have hsource : below.length = crossJoinsOf base.source := by
    rw [hbelow, crossJoins_eq, hjoins]
    exact (Nat.zero_add _).trans (Nat.add_zero _)
  have hsentinels : sentinelsOf (placed.map Prod.fst) (own ++ (below ++ placed.flatMap Prod.snd)) =
      sentinelsOf (placed.map Prod.fst) own := by
    rw [← sentinelsOf_take _ hown.ge, List.take_left' rfl]
  constructor
  · rw [withSentinels_eq, withSentinels_eq base]
    simp only [hjoins, hsentinels, ← hown, List.drop_left' rfl, ← hsource, List.take_left' rfl, hmarked]
    simp [crossPositions]
  · rw [crossJoins_eq]
    simp only [List.length_append, hown, hsource, hlength]

/-- The master with its filters. -/
def narrowedMaster (placement : Placement) (master : Model) : Model :=
  (placement.postJoin.getD 0 []).foldl Model.withFilter
    (master.addFilters (placement.filters.getD 0 []))

theorem unmarked_narrowedMaster (placement : Placement) : Unmarked (narrowedMaster placement) :=
  (Unmarked.foldl Unmarked.withFilter _).comp (Unmarked.addFilters _)

theorem joins_narrowedMaster (placement : Placement) (master : Model) :
    (narrowedMaster placement master).joins = master.joins := by
  refine List.foldlRecOn (motive := fun m : Model => m.joins = master.joins) _ _ ?_
    fun _ hm _ _ => hm
  refine List.foldlRecOn (motive := fun m : Model => m.joins = master.joins) _ _ rfl
    fun m hm condition _ => ?_
  obtain ⟨source, filter, heq⟩ := m.addFilter_eq condition
  rw [heq]
  exact hm

/-- Without sentinels. -/
theorem joinSources_plain {env : Environment}
    (henv : env.settings.synthesizeCrossJoinSentinels = false) (master : Model)
    (pairs : List (UnplacedJoin × List Nat)) (placement : Placement) (c : Counters) :
    joinSources env master (pairs.map Prod.fst) placement c =
      .ok ({ narrowedMaster placement master with
        joins := (placedPairs placement pairs).map Prod.fst
        constFilter := Expr.conjunction placement.constFilters }, c) := by
  have hfilter : Expr.conjunction (placement.constFilters ++ []) =
      Expr.conjunction placement.constFilters := by rw [List.append_nil]
  unfold joinSources
  simp only [henv, placedJoins_map_fst, Bind.bind, StateT.bind, Except.bind, sentinels_false, hfilter]
  rfl

/-- With sentinels. -/
theorem joinSources_marked {env : Environment}
    (henv : env.settings.synthesizeCrossJoinSentinels = true) (master : Model)
    (pairs : List (UnplacedJoin × List Nat)) (placement : Placement) (c : Counters) :
    ∃ own, own = List.range' (c.sentinels + 1) own.length ∧
      own.length = (crossPositions ((placedPairs placement pairs).map Prod.fst)).length ∧
      joinSources env master (pairs.map markPending) placement c =
        .ok ({ narrowedMaster placement master with
          joins := (placedPairs placement pairs).map markPlaced
          constFilter := Expr.narrowed (Expr.conjunction placement.constFilters)
            (sentinelsOf ((placedPairs placement pairs).map Prod.fst) own) },
          { c with sentinels := c.sentinels + own.length }) := by
  have hsentinels := sentinels_true ((placedPairs placement pairs).map markPlaced) c
  rw [sentinelsOf, crossPositions_markPlaced] at hsentinels
  refine ⟨List.range' (c.sentinels + 1) _, ?_, List.length_range', ?_⟩
  · rw [List.length_range']
  · unfold joinSources
    simp only [henv, placedJoins_map_markPending, Bind.bind, StateT.bind, Except.bind, hsentinels,
      Expr.conjunction_append, List.length_range']
    rfl

/-- **Joined sources with sentinels.** The sentinels of the row source take the next numbers, and those
of the sources keep theirs. -/
theorem joinSources_agrees {plain marked : Environment}
    (hplain : plain.settings.synthesizeCrossJoinSentinels = false)
    (hmarked : marked.settings.synthesizeCrossJoinSentinels = true) {master master' : Model}
    {below joined : List Nat} (hmaster : Marks master master' below)
    {pairs : List (UnplacedJoin × List Nat)} {s s' : Sources} (hs : MarksSources s s' joined pairs)
    {placement : Placement} (horder : placement.order.tail.Perm (List.range' 1 pairs.length)) :
    Agrees (fun m m' own => ∃ numbers, numbers.Perm (own ++ (below ++ joined)) ∧
        numbers.length = m.crossJoins ∧ m' = m.withSentinels numbers)
      (joinSources plain master s.joins placement) (joinSources marked master' s'.joins placement) := by
  intro c c' haliases
  have hbase := hmaster.update (unmarked_narrowedMaster placement)
    (joins_narrowedMaster placement master)
  have hcounts := counts_placedPairs placement hs.counts
  have hnumbers := numbers_placedPairs horder
  rw [← hs.numbers] at hnumbers
  obtain ⟨own, hrange, hlength, hrun⟩ := joinSources_marked hmarked master' pairs placement c'
  obtain ⟨heq, hcount⟩ := withSentinels_joined (Expr.conjunction placement.constFilters)
    hbase.joins hbase.count hlength hcounts
  rw [hs.joins, hs.marked, joinSources_plain hplain, hrun]
  refine .done ⟨_, ?_, hcount, ?_⟩ haliases (.of_eq hrange) rfl
  · exact (hnumbers.append_left below).append_left own
  · rw [heq, ← hbase.eq]

/-! ### Query levels -/

section Levels

variable {plain marked : Environment}

/-- A model of a query, and the same model with sentinels. -/
def MarksQuery (m m' : Model) (numbers : List Nat) : Prop :=
  numbers.length = m.crossJoins ∧ m' = m.withSentinels numbers

/-- What the two environments have in common and what they do not. -/
structure Switched (plain marked : Environment) : Prop where
  table : marked.table? = plain.table?
  maxColumns : marked.settings.maxOrderByColumns = plain.settings.maxOrderByColumns
  off : plain.settings.synthesizeCrossJoinSentinels = false
  on : marked.settings.synthesizeCrossJoinSentinels = true

theorem finishLevel_congr (h : Switched plain marked) (nested : Bool) (scope : Scope) (q : Query)
    (body : Model) : finishLevel marked nested scope q body = finishLevel plain nested scope q body := by
  unfold finishLevel
  rw [h.maxColumns]

theorem modelOfLevel_agrees (h : Switched plain marked) {master master' : Model}
    {below joined : List Nat} (hmaster : Marks master master' below)
    {pairs : List (UnplacedJoin × List Nat)} {s s' : Sources} (hs : MarksSources s s' joined pairs)
    (nested : Bool) (q : Query) :
    Agrees (fun m m' more => ∃ numbers, numbers.Perm (more ++ (below ++ joined)) ∧ MarksQuery m m' numbers)
      (modelOfLevel plain nested q master s) (modelOfLevel marked nested q master' s') := by
  have hkinds : (s'.joins.map fun j => some j.kind) = s.joins.map fun j => some j.kind := by
    rw [hs.joins, hs.marked, List.map_map, List.map_map]
    rfl
  unfold modelOfLevel
  rw [hs.scope, hs.conjuncts, hkinds]
  refine .bind (Agrees.same _) fun placement placement' _ hplace => ?_
  obtain ⟨hplace, rfl, rfl⟩ := hplace
  have horder := Placement.tail_order_place hplace
  rw [List.tail_cons, List.length_map, hs.joins, List.length_map] at horder
  refine .bind (joinSources_agrees h.off h.on hmaster hs horder) fun body body' own hbody => ?_
  obtain ⟨numbers, hperm, hcount, rfl⟩ := hbody
  have hfinish := UnmarkedM.after Unmarked.fillTimestamps (unmarked_finishLevel plain nested s.scope q)
  rw [finishLevel_congr h]
  refine (Agrees.lift (hfinish.commutes body numbers)).mono fun m m' more hm => ⟨more, .refl _, ?_⟩
  obtain ⟨hm, rfl, rfl⟩ := hm
  refine ⟨numbers, ?_, hcount.trans (hfinish.crossJoins hm).symm, rfl⟩
  rwa [List.nil_append, List.append_nil]

mutual

/-- **Sentinels change nothing else in a query.** -/
theorem modelOfQuery_agrees (h : Switched plain marked) (nested : Bool) : ∀ q : Query,
    Agrees MarksQuery (modelOfQuery plain nested q) (modelOfQuery marked nested q)
  | ⟨position, select, source, givenName, timestamp, latestBy, joins, filter, sampleBy, orderBy,
      limit⟩ => by
    simp only [modelOfQuery]
    refine Agrees.mono (R := fun m m' numbers => ∃ listed, listed.Perm numbers ∧ MarksQuery m m' listed)
      ?_ fun _ _ _ hlisted => hlisted
    refine .bind (modelOfSource_agrees h source) fun m m' below hm => ?_
    refine .bind (addMaster_agrees hm _) fun r r' none hr => ?_
    obtain ⟨hmaster, hscope, rfl⟩ := hr
    rw [hscope]
    have hstart : MarksSources ⟨r.2, [], []⟩ ⟨r.2, [], []⟩ [] [] :=
      ⟨rfl, rfl, rfl, fun _ h => (List.not_mem_nil h).elim, rfl, rfl⟩
    refine .bind (sourcesOfJoins_agrees h hmaster.name joins hstart) fun s s' joined hs => ?_
    obtain ⟨pairs, hs⟩ := hs
    refine (modelOfLevel_agrees h hmaster hs nested _).mono fun m m' own hm => ⟨own, .refl _, ?_⟩
    obtain ⟨numbers, hperm, hmarks⟩ := hm
    refine ⟨numbers, hperm.trans ?_, hmarks⟩
    rw [List.perm_iff_count]
    intro n
    simp only [List.count_append, List.count_nil]
    omega

theorem modelOfSource_agrees (h : Switched plain marked) : ∀ source : SourceOf Query,
    Agrees Marks (modelOfSource plain source) (modelOfSource marked source)
  | .table name => by
    have htable : modelOfTable marked name = modelOfTable plain name := by
      rw [modelOfTable, modelOfTable, h.table]
    simp only [modelOfSource, htable]
    refine (Agrees.same _).mono fun m m' numbers hm => ⟨numbers, .refl _, ?_⟩
    obtain ⟨hm, rfl, rfl⟩ := hm
    unfold modelOfTable at hm
    split at hm
    · cases hm
      exact ⟨rfl, rfl, rfl⟩
    · cases hm
  | .query q => by
    simp only [modelOfSource]
    refine .bind (modelOfQuery_agrees h true q) fun m m' numbers hm => ?_
    obtain ⟨hcount, rfl⟩ := hm
    refine .pure ⟨?_, ?_, rfl⟩
    · rw [List.append_nil, withSentinels_nested]
    · rw [List.append_nil, hcount, crossJoins_nested]

theorem sourcesOfJoins_agrees (h : Switched plain marked) {master master' : Model}
    (hmaster : master'.name? = master.name?) : ∀ (joins : List (JoinOf Query)) {s s' : Sources}
      {numbers : List Nat} {pairs : List (UnplacedJoin × List Nat)}, MarksSources s s' numbers pairs →
    Agrees (fun t t' more => ∃ pairs, MarksSources t t' (numbers ++ more) pairs)
      (sourcesOfJoins plain master joins s) (sourcesOfJoins marked master' joins s')
  | [], s, s', numbers, pairs, hs => .pure ⟨pairs, by rwa [List.append_nil]⟩
  | ⟨kind, position, source, givenName, condition⟩ :: joins, s, s', numbers, pairs, hs => by
    simp only [sourcesOfJoins]
    refine .bind (modelOfSource_agrees h source) fun m m' joined hm => ?_
    refine .bind (addJoin_agrees hmaster hm hs _) fun t t' _ ht => ?_
    obtain ⟨⟨pairs, ht⟩, rfl⟩ := ht
    simp only [List.nil_append, ← List.append_assoc]
    exact sourcesOfJoins_agrees h hmaster joins ht

end

end Levels

end Compile

/-! ### Statements -/

/-- The environment with or without sentinels for cross joins. -/
def Environment.switch (env : Environment) (sentinels : Bool) : Environment :=
  { env with settings := { env.settings with synthesizeCrossJoinSentinels := sentinels } }

theorem Environment.switched (env : Environment) :
    Switched (env.switch false) (env.switch true) :=
  ⟨rfl, rfl, rfl, rfl⟩

/-- How a statement is compiled without sentinels, and how it is compiled with them. -/
inductive SentinelsApart : Except SqlError Compiled → Except SqlError Compiled → Prop where
  /-- The statement is refused for the same reason. -/
  | refused (e : SqlError) : SentinelsApart (.error e) (.error e)
  /-- A table is defined the same way. -/
  | table (d : TableDefinition) : SentinelsApart (.ok (.createTable d)) (.ok (.createTable d))
  /-- The model has sentinels numbered from 1, one for each join that no equality relates to earlier
  sources, and is the same otherwise. -/
  | query (m : Model) (numbers : List Nat)
      (numbered : numbers.Perm (List.range' 1 m.crossJoins)) :
      SentinelsApart (.ok (.query m)) (.ok (.query (m.withSentinels numbers)))

theorem Query.compile_sentinelsApart (env : Environment) (q : Query) :
    SentinelsApart ((Statement.query q).compile (env.switch false))
      ((Statement.query q).compile (env.switch true)) := by
  have hend := modelOfQuery_agrees env.switched false q ⟨0, 0⟩ ⟨0, 0⟩ rfl
  simp only [Statement.compile, Query.compile]
  change SentinelsApart
    ((modelOfQuery (env.switch false) false q ⟨0, 0⟩ >>= fun r => pure (r.1.eliminateOrders false)) >>=
      fun m => pure (.query m))
    ((modelOfQuery (env.switch true) false q ⟨0, 0⟩ >>= fun r => pure (r.1.eliminateOrders false)) >>=
      fun m => pure (.query m))
  generalize modelOfQuery (env.switch false) false q ⟨0, 0⟩ = ended at hend ⊢
  generalize modelOfQuery (env.switch true) false q ⟨0, 0⟩ = ended' at hend ⊢
  cases hend with
  | failed e => exact .refused e
  | @done m m' c c' numbers answers aliases next given =>
    obtain ⟨hcount, rfl⟩ := answers
    have hnumbered : numbers.Perm (List.range' 1 (m.eliminateOrders false).crossJoins) := by
      rw [Model.crossJoins_eliminateOrders, ← hcount]
      exact next
    have hquery := SentinelsApart.query (m.eliminateOrders false) numbers hnumbered
    rw [← Model.eliminateOrders_withSentinels] at hquery
    exact hquery

/-- **Sentinels change constant filters only.** With them a statement is refused for the same reason as
without them, or compiles to the same definition or model but for the sentinels behind the constant
filters, which take the numbers from 1 to the number of such joins, each once. -/
theorem compile_sentinels (env : Environment) (sql : String) :
    SentinelsApart (compile (env.switch false) sql) (compile (env.switch true) sql) := by
  unfold compile
  cases Statement.ofText sql with
  | error e => exact .refused e
  | ok statement =>
    cases statement with
    | query q => exact q.compile_sentinelsApart env
    | createTable d =>
      have hsame : (Statement.createTable d).compile (env.switch true) =
          (Statement.createTable d).compile (env.switch false) := rfl
      change SentinelsApart ((Statement.createTable d).compile (env.switch false))
        ((Statement.createTable d).compile (env.switch true))
      rw [hsame]
      simp only [Statement.compile]
      cases TableDefinition.ofDeclaration (env.switch false).settings d with
      | error e => exact .refused e
      | ok definition => exact .table definition

end SeriesQuery
