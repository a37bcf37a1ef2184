import Mathlib.Data.List.Dedup
import Mathlib.Data.List.Induction
import Mathlib.Data.List.Perm.Subperm
import SeriesQuery.Proofs.Cache

/-!
What a cache remembers of its requests.

An entry that is found is the latest that was put under its key (`latest_of_mem_row_run`); a value
that was put is stored, given back or dropped by `clear`, and only one of these
(`values_run_perm`); and an entry stays as long as too few other keys of its row are put to push
it out (`StandsBehind.run`).
-/

namespace SeriesQuery

namespace Cache

variable {α : Type} {c : Cache α} {key : String} {value : α}

/-! ### Histories -/

namespace Request

/-- The entry that a request puts. -/
def entry? : Request α → Option (String × α)
  | put key value => some (key, value)
  | peek _ | poll _ | clear => none

/-- The value that a request hands over. -/
def value? (r : Request α) : Option α :=
  r.entry?.map Prod.snd

/-- Whether a request neither puts nor polls a key and is no `clear`. -/
def leavesAlone (key : String) : Request α → Bool
  | put other _ | poll other => other != key
  | peek _ => true
  | clear => false

end Request

/-- Requests of which the latest `put` under a key handed the value over, with neither a `poll` of
the key nor a `clear` since. -/
def IsLatest (key : String) (value : α) (requests : List (Request α)) : Prop :=
  ∃ earlier since, requests = earlier ++ .put key value :: since ∧
    ∀ r ∈ since, r.leavesAlone key = true

/-- The value that a request is answered and that leaves the cache: the one that gives way to a
`put`, or the one that a `poll` takes out. -/
def givenBack? : Request α × Option α → Option α
  | (.put .., answer) | (.poll _, answer) => answer
  | (.peek _, _) | (.clear, _) => none

/-- The values that the cache holds. -/
def values (c : Cache α) : List α :=
  c.rows.flatten.map Prod.snd

/-- The values that a request drops without giving them back. -/
def droppedBy (c : Cache α) : Request α → List α
  | .clear => c.values
  | .put .. | .peek _ | .poll _ => []

/-- The values that requests drop, one after the other. -/
def dropped (c : Cache α) : List (Request α) → List α
  | [] => []
  | r :: requests => c.droppedBy r ++ (c.serve r).2.dropped requests

/-- The other keys of the row of a key that requests put, each once. -/
def rivals (c : Cache α) (key : String) (requests : List (Request α)) : List String :=
  (((requests.filterMap Request.entry?).map Prod.fst).filter fun other =>
    other ≠ key ∧ c.rowIndex other = c.rowIndex key).dedup

theorem run_append (c : Cache α) (before after : List (Request α)) :
    c.run (before ++ after) =
      ((c.run before).1 ++ ((c.run before).2.run after).1, ((c.run before).2.run after).2) := by
  induction before generalizing c with
  | nil => rfl
  | cons r before ih =>
    simp only [List.cons_append, run, ih]

theorem blocks_congr {c d : Cache α} (h : c.shape = d.shape) : c.blocks = d.blocks :=
  congrArg (fun shape => shape.2.1) h

/-! ### Rows -/

theorem row_setRow (h : Sound c) (key other : String) (row : List (String × α)) :
    (c.setRow key row).row other = if c.rowIndex other = c.rowIndex key then row else c.row other := by
  have hindex : (c.setRow key row).rowIndex other = c.rowIndex other :=
    rowIndex_congr (c.shape_setRow key row) other
  have hrows : (c.setRow key row).rows = c.rows.set (c.rowIndex key) row := rfl
  rw [Cache.row, hindex, hrows, List.getD_eq_getElem?_getD, List.getElem?_set]
  by_cases heq : c.rowIndex key = c.rowIndex other
  · rw [if_pos heq, if_pos (h.rowIndex_lt key), if_pos heq.symm, Option.getD_some]
  · rw [if_neg heq, if_neg (Ne.symm heq), Cache.row, List.getD_eq_getElem?_getD]

/-- The row of a key as `put` leaves it behind the new entry. -/
def behind (c : Cache α) (key : String) : List (String × α) :=
  match (c.row key).lookup key with
  | some _ => without key (c.row key)
  | none => if (c.row key).length = c.blocks then (c.row key).dropLast else c.row key

theorem put_row (c : Cache α) (key : String) (value : α) :
    (c.put key value).2 = c.setRow key ((key, value) :: c.behind key) := by
  dsimp only [put, behind]
  cases (c.row key).lookup key with
  | some old => rfl
  | none =>
    dsimp only
    split <;> rfl

theorem behind_sublist (c : Cache α) (key : String) : (c.behind key).Sublist (c.row key) := by
  unfold behind
  split
  · exact List.eraseP_sublist
  · split
    · exact List.dropLast_sublist _
    · exact List.Sublist.refl _

theorem lookup_eq_some_iff {i : Nat} {row : List (String × α)} (h : SoundRow c i row) :
    row.lookup key = some value ↔ (key, value) ∈ row := by
  have honce := h.once
  clear h
  induction row with
  | nil => simp
  | cons e row ih =>
    obtain ⟨other, held⟩ := e
    obtain ⟨hnew, honce⟩ := List.nodup_cons.mp honce
    rw [List.lookup_cons, List.mem_cons]
    by_cases hkey : key = other
    · subst hkey
      have hrow : (key, value) ∉ row := fun hmem => hnew (List.mem_map.mpr ⟨_, hmem, rfl⟩)
      simp [hrow, eq_comm]
    · have hbeq : (key == other) = false := by simpa using hkey
      rw [hbeq]
      simp [ih honce, hkey]

/-- What a lookup answers is what stands in the row of the key. -/
theorem peek_eq_some_iff (h : Sound c) : (c.peek key).1 = some value ↔ (key, value) ∈ c.row key :=
  lookup_eq_some_iff (h.row key)

theorem poll_eq_some_iff (h : Sound c) : (c.poll key).1 = some value ↔ (key, value) ∈ c.row key :=
  lookup_eq_some_iff (h.row key)

/-! ### The latest value -/

theorem mem_row_put (h : Sound c) {other : String} {held : α}
    (hmem : (other, held) ∈ (c.put key value).2.row other) :
    (other = key ∧ held = value) ∨ other ≠ key ∧ (other, held) ∈ c.row other := by
  have hsound := h.put key value
  rw [put_row] at hmem hsound
  by_cases hkey : other = key
  · subst hkey
    have hfront : (other, value) ∈ (c.setRow other ((other, value) :: c.behind other)).row other := by
      rw [row_setRow h, if_pos rfl]
      exact List.mem_cons_self
    have hfirst := (lookup_eq_some_iff (hsound.row other)).mpr hmem
    have hsecond := (lookup_eq_some_iff (hsound.row other)).mpr hfront
    rw [hfirst] at hsecond
    exact .inl ⟨rfl, Option.some.inj hsecond⟩
  · rw [row_setRow h] at hmem
    right
    constructor
    · exact hkey
    · split at hmem
      · rename_i hindex
        rcases List.mem_cons.mp hmem with heq | hmem
        · exact absurd (congrArg Prod.fst heq) hkey
        · rw [Cache.row, hindex]
          exact (c.behind_sublist key).mem hmem
      · exact hmem

theorem mem_row_poll (h : Sound c) {other : String} {held : α}
    (hmem : (other, held) ∈ (c.poll key).2.row other) :
    other ≠ key ∧ (other, held) ∈ c.row other := by
  have hrow : ∀ k, (c.record ((c.row key).lookup key).isSome).row k = c.row k := fun _ => rfl
  change (other, held) ∈
    ((c.record _).setRow key (without key (c.row key))).row other at hmem
  rw [row_setRow (h.record _), hrow] at hmem
  split at hmem
  · rename_i hindex
    constructor
    · rintro rfl
      exact (h.row other).not_mem_without (List.mem_map_of_mem hmem)
    · have hindex : c.rowIndex other = c.rowIndex key := hindex
      rw [Cache.row, hindex]
      exact List.eraseP_sublist.mem hmem
  · rename_i hindex
    constructor
    · rintro rfl
      exact hindex rfl
    · exact hmem

theorem not_mem_row_clear (c : Cache α) {other : String} {held : α} :
    (other, held) ∉ c.clear.row other := by
  intro hmem
  rw [Cache.row, List.getD_eq_getElem?_getD] at hmem
  cases hrow : c.clear.rows[c.clear.rowIndex other]? with
  | none =>
    rw [hrow] at hmem
    cases hmem
  | some row =>
    obtain ⟨_, -, rfl⟩ := List.mem_map.mp (List.mem_of_getElem? hrow)
    rw [hrow] at hmem
    cases hmem

theorem IsLatest.append {requests : List (Request α)} (h : IsLatest key value requests)
    {r : Request α} (hr : r.leavesAlone key = true) : IsLatest key value (requests ++ [r]) := by
  obtain ⟨earlier, since, rfl, hsince⟩ := h
  use earlier, since ++ [r]
  constructor
  · simp
  · intro s hs
    rcases List.mem_append.mp hs with hs | hs
    · exact hsince s hs
    · obtain rfl := List.mem_singleton.mp hs
      exact hr

/-- An entry after one more request is the one that the request puts, or it was there before and the
request leaves its key alone. -/
theorem mem_row_serve (h : Sound c) {r : Request α} (hmem : (key, value) ∈ (c.serve r).2.row key) :
    r = .put key value ∨ r.leavesAlone key = true ∧ (key, value) ∈ c.row key := by
  cases r with
  | put other held =>
    rcases mem_row_put h hmem with ⟨rfl, rfl⟩ | ⟨hne, hmem⟩
    · exact .inl rfl
    · exact .inr ⟨by simpa [Request.leavesAlone] using Ne.symm hne, hmem⟩
  | peek other => exact .inr ⟨rfl, hmem⟩
  | poll other =>
    obtain ⟨hne, hmem⟩ := mem_row_poll h hmem
    exact .inr ⟨by simpa [Request.leavesAlone] using Ne.symm hne, hmem⟩
  | clear => exact absurd hmem c.not_mem_row_clear

/-- **An entry is the latest one of its key.** -/
theorem latest_of_mem_row_run (h : Sound c) (hempty : ∀ k, c.row k = []) {requests : List (Request α)}
    (hmem : (key, value) ∈ (c.run requests).2.row key) : IsLatest key value requests := by
  induction requests using List.reverseRecOn with
  | nil =>
    change (key, value) ∈ c.row key at hmem
    rw [hempty key] at hmem
    cases hmem
  | append_singleton requests r ih =>
    rw [run_append] at hmem
    rcases mem_row_serve (h.run requests) hmem with rfl | ⟨hr, hmem⟩
    · exact ⟨requests, [], rfl, fun _ hr => (List.not_mem_nil hr).elim⟩
    · exact (ih hmem).append hr

/-- A lookup in the middle of a run is answered by the cache that the run has reached. -/
theorem answer_run {requests : List (Request α)} {before after : List (Request α × Option α)}
    {r : Request α} {answer : Option α} (h : (c.run requests).1 = before ++ (r, answer) :: after) :
    answer = ((c.run (before.map Prod.fst)).2.serve r).1 := by
  have hrequests : requests = before.map Prod.fst ++ r :: after.map Prod.fst := by
    rw [← map_fst_run c requests, h]
    simp
  rw [hrequests, run_append] at h
  have hlength : (c.run (before.map Prod.fst)).1.length = before.length := by
    have := congrArg List.length (map_fst_run c (before.map Prod.fst))
    simpa using this
  obtain ⟨-, hrest⟩ := List.append_inj h hlength
  have hfirst := (List.cons.inj hrest).1
  exact (congrArg Prod.snd hfirst).symm

/-! ### Where the values are -/

/-- The values outside the row of a key. -/
def elsewhere (c : Cache α) (key : String) : List α :=
  (c.rows.eraseIdx (c.rowIndex key)).flatten.map Prod.snd

theorem values_setRow_perm (h : Sound c) (key : String) (row : List (String × α)) :
    (c.setRow key row).values.Perm (row.map Prod.snd ++ c.elsewhere key) := by
  have hset := List.set_perm_cons_eraseIdx (h.rowIndex_lt key) row
  have hflat := (hset.flatten).map Prod.snd
  simpa [values, setRow, elsewhere] using hflat

theorem values_perm (h : Sound c) (key : String) :
    c.values.Perm ((c.row key).map Prod.snd ++ c.elsewhere key) := by
  have hget := List.getElem_cons_eraseIdx_perm (h.rowIndex_lt key)
  have hflat := (hget.symm.flatten).map Prod.snd
  have hlt := h.rowIndex_lt key
  have hrow : c.rows[c.rowIndex key] = c.row key := by
    rw [Cache.row, List.getD_eq_getElem?_getD, List.getElem?_eq_getElem (h.rowIndex_lt key),
      Option.getD_some]
  rw [hrow] at hflat
  simpa [values, elsewhere] using hflat

/-- The entry of a key and the rest of its row. -/
theorem row_perm_without {row : List (String × α)} {held : α} (h : row.lookup key = some held) :
    (row.map Prod.snd).Perm (held :: (without key row).map Prod.snd) := by
  induction row with
  | nil => cases h
  | cons e row ih =>
    obtain ⟨other, v⟩ := e
    by_cases hkey : key = other
    · subst hkey
      rw [List.lookup_cons, beq_self_eq_true] at h
      cases h
      simp [without]
    · have hbeq : (key == other) = false := by simpa using hkey
      have hkept : without key ((other, v) :: row) = (other, v) :: without key row := by
        simp [without, Ne.symm hkey]
      rw [List.lookup_cons, hbeq] at h
      rw [hkept, List.map_cons, List.map_cons]
      exact ((ih h).cons v).trans (List.Perm.swap _ _ _)

theorem put_perm (c : Cache α) (key : String) (value : α) :
    ((c.row key).map Prod.snd).Perm
      ((c.put key value).1.toList ++ (c.behind key).map Prod.snd) := by
  dsimp only [put, behind]
  cases hlookup : (c.row key).lookup key with
  | some old => simpa using row_perm_without hlookup
  | none =>
    by_cases hfull : (c.row key).length = c.blocks
    · simp only [if_pos hfull]
      cases hrow : (c.row key).getLast? with
      | none =>
        rw [List.getLast?_eq_none_iff.mp hrow]
        rfl
      | some last =>
        obtain ⟨first, hsplit⟩ := List.getLast?_eq_some_iff.mp hrow
        rw [hsplit, List.dropLast_concat, List.map_append]
        exact List.perm_append_comm
    · simp only [if_neg hfull]
      exact List.Perm.refl _

/-- A put takes its value in and gives one back at most. -/
theorem values_put_perm (h : Sound c) (key : String) (value : α) :
    (value :: c.values).Perm ((c.put key value).2.values ++ (c.put key value).1.toList) := by
  have hrow := (values_perm h key).trans ((c.put_perm key value).append_right _)
  have hafter := values_setRow_perm h key ((key, value) :: c.behind key)
  rw [← put_row] at hafter
  have hout : (value :: c.values).Perm
      ((value :: (c.behind key).map Prod.snd ++ c.elsewhere key) ++
        (c.put key value).1.toList) := by
    refine (hrow.cons value).trans ?_
    rw [List.append_assoc]
    exact List.perm_append_comm.cons value
  exact hout.trans (hafter.symm.append_right _)

/-- A poll gives back what it takes out. -/
theorem values_poll_perm (h : Sound c) (key : String) :
    c.values.Perm ((c.poll key).2.values ++ (c.poll key).1.toList) := by
  have hrow := values_perm h key
  have hafter := values_setRow_perm (h.record ((c.row key).lookup key).isSome) key
    (without key (c.row key))
  refine hrow.trans (List.Perm.trans ?_ (hafter.symm.append_right ((c.row key).lookup key).toList))
  cases hheld : (c.row key).lookup key with
  | none =>
    have hsame : without key (c.row key) = c.row key := by
      rw [without, List.eraseP_of_forall_not]
      intro e he heq
      exact not_mem_of_lookup_eq_none hheld (List.mem_map.mpr ⟨e, he, by simpa using heq⟩)
    rw [hsame, Option.toList_none, List.append_nil]
    exact List.Perm.refl _
  | some held =>
    refine ((row_perm_without hheld).append_right _).trans ?_
    exact @List.perm_append_comm _ [held] _

/-- **One request.** What was there and what comes in is there, is given back or is dropped. -/
theorem values_serve_perm (h : Sound c) (r : Request α) :
    (r.value?.toList ++ c.values).Perm
      ((c.serve r).2.values ++ ((givenBack? (r, (c.serve r).1)).toList ++ c.droppedBy r)) := by
  cases r with
  | put key value =>
    change (value :: c.values).Perm
      ((c.put key value).2.values ++ ((c.put key value).1.toList ++ []))
    rw [List.append_nil]
    exact values_put_perm h key value
  | peek key =>
    simp [Request.value?, Request.entry?, givenBack?, droppedBy, serve, peek, record, values]
  | poll key =>
    change c.values.Perm ((c.poll key).2.values ++ ((c.poll key).1.toList ++ []))
    rw [List.append_nil]
    exact values_poll_perm h key
  | clear =>
    have hempty : c.clear.values = [] := by
      simp [values, clear]
    change c.values.Perm (c.clear.values ++ ([] ++ c.values))
    rw [hempty]
    exact List.Perm.refl _

theorem filterMap_cons_toList {β γ : Type} (f : β → Option γ) (b : β) (l : List β) :
    (b :: l).filterMap f = (f b).toList ++ l.filterMap f := by
  rw [List.filterMap_cons]
  cases f b <;> rfl

/-- **Any requests.** The values that were there and those that were put are there, were given back
or were dropped, each once. -/
theorem values_run_perm (h : Sound c) (requests : List (Request α)) :
    (requests.filterMap Request.value? ++ c.values).Perm
      ((c.run requests).2.values ++
        ((c.run requests).1.filterMap givenBack? ++ c.dropped requests)) := by
  induction requests generalizing c with
  | nil => simp [run, dropped]
  | cons r requests ih =>
    classical
    rw [run, dropped, filterMap_cons_toList, filterMap_cons_toList, List.perm_iff_count]
    intro v
    have hfirst := (values_serve_perm h r).count_eq v
    have hrest := (ih (h.serve r)).count_eq v
    simp only [List.count_append] at hfirst hrest ⊢
    omega

/-! ### How long an entry stays -/

/-- The entry of a key with the value, behind entries of some keys only. -/
def StandsBehind (c : Cache α) (key : String) (value : α) (others : List String) : Prop :=
  ∃ newer older, c.row key = newer ++ (key, value) :: older ∧ ∀ e ∈ newer, e.1 ∈ others

theorem StandsBehind.mem_row {others : List String} (h : c.StandsBehind key value others) :
    (key, value) ∈ c.row key := by
  obtain ⟨newer, older, hrow, -⟩ := h
  rw [hrow]
  exact List.mem_append_right _ List.mem_cons_self

/-- Without another key, the entry stands where it stood. -/
theorem without_append {other : String} (hne : other ≠ key) (newer older : List (String × α)) :
    ∃ newer' older', without other (newer ++ (key, value) :: older) = newer' ++ (key, value) :: older' ∧
      ∀ e ∈ newer', e ∈ newer := by
  by_cases hnewer : ∃ e ∈ newer, e.1 = other
  · obtain ⟨e, he, hkey⟩ := hnewer
    use without other newer, older
    constructor
    · exact List.eraseP_append_left (by simpa using hkey) _ he
    · exact fun e he => List.eraseP_sublist.mem he
  · use newer, without other older
    constructor
    · have hother : ∀ e ∈ newer, ¬ (e.1 == other) = true := by
        intro e he heq
        exact hnewer ⟨e, he, by simpa using heq⟩
      rw [without, List.eraseP_append_right _ hother, List.eraseP_cons_of_neg]
      · rfl
      · simpa using Ne.symm hne
    · exact fun e he => he

/-- What a new key of the row leaves of it still has the entry, as long as too few keys are before it
to fill the row. -/
theorem behind_split (h : Sound c) {others : List String} (hroom : others.length < c.blocks)
    {other : String} (hne : other ≠ key) (hindex : c.rowIndex other = c.rowIndex key)
    (hmem : other ∈ others) (hstands : c.StandsBehind key value others) :
    ∃ newer older, c.behind other = newer ++ (key, value) :: older ∧ ∀ e ∈ newer, e.1 ∈ others := by
  obtain ⟨newer, older, hrow, hnewer⟩ := hstands
  have hsame : c.row other = c.row key := by rw [Cache.row, hindex, Cache.row]
  have hkeys := (h.row key).once
  rw [hrow, List.map_append] at hkeys
  rw [behind, hsame, hrow]
  split
  · obtain ⟨newer', older', hsplit, hsub⟩ := without_append hne newer older
    exact ⟨newer', older', hsplit, fun e he => hnewer e (hsub e he)⟩
  · next hnone =>
    split
    · next hfull =>
      -- the keys before the entry and the new one are among the others, so they do not fill the row
      have hnew : other ∉ newer.map Prod.fst := by
        intro hother
        apply not_mem_of_lookup_eq_none hnone
        rw [List.map_append]
        exact List.mem_append_left _ hother
      have hcount : (other :: newer.map Prod.fst).length ≤ others.length := by
        apply List.Subperm.length_le
        apply List.subperm_of_subset
        · exact List.nodup_cons.mpr ⟨hnew, (List.nodup_append.mp hkeys).1⟩
        · intro k hk
          rcases List.mem_cons.mp hk with rfl | hk
          · exact hmem
          · obtain ⟨e, he, rfl⟩ := List.mem_map.mp hk
            exact hnewer e he
      have holder : older ≠ [] := by
        rintro rfl
        simp at hfull hcount
        omega
      use newer, older.dropLast
      constructor
      · rw [List.dropLast_append_of_ne_nil (by simp), List.dropLast_cons_of_ne_nil holder]
      · exact hnewer
    · exact ⟨newer, older, rfl, hnewer⟩

/-- **One request.** An entry stays behind the others when a request leaves its key alone and puts
none but the others into the row. -/
theorem StandsBehind.serve (h : Sound c) {others : List String} (hroom : others.length < c.blocks)
    {r : Request α} (halone : r.leavesAlone key = true)
    (hputs : ∀ e ∈ r.entry?, e.1 ≠ key → c.rowIndex e.1 = c.rowIndex key → e.1 ∈ others)
    (hstands : c.StandsBehind key value others) :
    (c.serve r).2.StandsBehind key value others := by
  cases r with
  | put other held =>
    have hne : other ≠ key := by simpa [Request.leavesAlone] using halone
    change (c.put other held).2.StandsBehind key value others
    rw [put_row, StandsBehind, row_setRow h]
    split
    · next hindex =>
      have hmem := hputs _ rfl hne hindex.symm
      obtain ⟨newer, older, hrow, hnewer⟩ := behind_split h hroom hne hindex.symm hmem hstands
      use (other, held) :: newer, older
      constructor
      · rw [hrow, List.cons_append]
      · exact List.forall_mem_cons.mpr ⟨hmem, hnewer⟩
    · exact hstands
  | peek other => exact hstands
  | poll other =>
    have hne : other ≠ key := by simpa [Request.leavesAlone] using halone
    have hrow : ∀ k, (c.record ((c.row other).lookup other).isSome).row k = c.row k := fun _ => rfl
    change ((c.record _).setRow other (without other (c.row other))).StandsBehind key value others
    rw [StandsBehind, row_setRow (h.record _), hrow]
    split
    · next hindex =>
      have hindex : c.rowIndex key = c.rowIndex other := hindex
      obtain ⟨newer, older, hkey, hnewer⟩ := hstands
      have hsame : c.row other = c.row key := by rw [Cache.row, ← hindex, Cache.row]
      obtain ⟨newer', older', hsplit, hsub⟩ := without_append hne newer older
      exact ⟨newer', older', by rw [hsame, hkey, hsplit], fun e he => hnewer e (hsub e he)⟩
    · exact hstands
  | clear => cases halone

/-- **Any requests.** -/
theorem StandsBehind.run (h : Sound c) {others : List String} (hroom : others.length < c.blocks)
    {requests : List (Request α)} (halone : ∀ r ∈ requests, r.leavesAlone key = true)
    (hputs : ∀ e ∈ requests.filterMap Request.entry?,
      e.1 ≠ key → c.rowIndex e.1 = c.rowIndex key → e.1 ∈ others)
    (hstands : c.StandsBehind key value others) :
    (c.run requests).2.StandsBehind key value others := by
  induction requests generalizing c with
  | nil => exact hstands
  | cons r requests ih =>
    have hshape := c.shape_serve r
    rw [filterMap_cons_toList] at hputs
    apply ih (h.serve r)
    · rw [blocks_congr hshape]
      exact hroom
    · exact fun s hs => halone s (List.mem_cons_of_mem r hs)
    · intro e he
      rw [rowIndex_congr hshape, rowIndex_congr hshape]
      exact hputs e (List.mem_append_right _ he)
    · refine hstands.serve h hroom (halone r List.mem_cons_self) ?_
      intro e he
      exact hputs e (List.mem_append_left _ (by simpa using he))

/-- **How long an entry stays.** After a `put` the value is found as long as its key is left alone
and the row takes in fewer other keys than it holds entries. -/
theorem peek_run_put (h : Sound c) {since : List (Request α)}
    (halone : ∀ r ∈ since, r.leavesAlone key = true)
    (hroom : (c.rivals key since).length < c.blocks) :
    (((c.put key value).2.run since).2.peek key).1 = some value := by
  have hsound := h.put key value
  have hshape := c.shape_put key value
  have hfirst : (c.put key value).2.StandsBehind key value (c.rivals key since) := by
    rw [put_row, StandsBehind, row_setRow h, if_pos rfl]
    exact ⟨[], c.behind key, rfl, fun _ he => (List.not_mem_nil he).elim⟩
  rw [peek_eq_some_iff (hsound.run since)]
  refine (hfirst.run hsound ?_ halone ?_).mem_row
  · rw [blocks_congr hshape]
    exact hroom
  · intro e he hne hindex
    rw [rowIndex_congr hshape, rowIndex_congr hshape] at hindex
    rw [rivals, List.mem_dedup, List.mem_filter]
    exact ⟨List.mem_map_of_mem he, by simp [hne, hindex]⟩

/-! ### Values under other names -/

section Renaming

variable {β : Type} (f : α → β)

/-- A request with another value for each. -/
def Request.map : Request α → Request β
  | .put key value => .put key (f value)
  | .peek key => .peek key
  | .poll key => .poll key
  | .clear => .clear

/-- A cache with another value for each. -/
def map (c : Cache α) : Cache β where
  hash := c.hash
  blocks := c.blocks
  rows := c.rows.map (List.map (Prod.map id f))
  metrics := c.metrics

theorem lookup_map (key : String) (row : List (String × α)) :
    (row.map (Prod.map id f)).lookup key = (row.lookup key).map f := by
  induction row with
  | nil => rfl
  | cons e row ih =>
    obtain ⟨other, held⟩ := e
    rw [List.map_cons, Prod.map_apply, id, List.lookup_cons, List.lookup_cons, ih]
    cases key == other <;> rfl

theorem without_map (key : String) (row : List (String × α)) :
    without key (row.map (Prod.map id f)) = (without key row).map (Prod.map id f) := by
  rw [without, List.eraseP_map]
  rfl

theorem rowIndex_map (key : String) : (c.map f).rowIndex key = c.rowIndex key := by
  simp [rowIndex, map]

theorem row_map (key : String) : (c.map f).row key = (c.row key).map (Prod.map id f) := by
  rw [Cache.row, rowIndex_map, Cache.row, List.getD_eq_getElem?_getD, List.getD_eq_getElem?_getD]
  change ((c.rows.map _)[_]?).getD [] = _
  rw [List.getElem?_map]
  cases c.rows[c.rowIndex key]? <;> rfl

theorem size_map : (c.map f).size = c.size := by
  simp only [size, map, List.length_flatten, List.map_map]
  congr 2
  funext row
  exact List.length_map _

theorem setRow_map (key : String) (row : List (String × α)) :
    (c.map f).setRow key (row.map (Prod.map id f)) = (c.setRow key row).map f := by
  have hrows : (c.map f).rows.set ((c.map f).rowIndex key) (row.map (Prod.map id f)) =
      (c.rows.set (c.rowIndex key) row).map (List.map (Prod.map id f)) := by
    rw [rowIndex_map, List.map_set]
    rfl
  have hsize := size_map f (c := { c with rows := c.rows.set (c.rowIndex key) row })
  simp only [setRow, map, Cache.mk.injEq, CacheMetrics.mk.injEq, true_and, and_true]
  exact ⟨hrows, (congrArg (fun rows => rows.flatten.length) hrows).trans hsize⟩

theorem put_map (key : String) (value : α) :
    (c.map f).put key (f value) = ((c.put key value).1.map f, (c.put key value).2.map f) := by
  dsimp only [put]
  rw [row_map, lookup_map, List.length_map, without_map]
  cases (c.row key).lookup key with
  | some old =>
    dsimp only [Option.map_some]
    rw [← setRow_map]
    rfl
  | none =>
    change (if (c.row key).length = c.blocks then _ else _) = _
    split
    · rw [← setRow_map, List.getLast?_map, List.map_cons, List.map_dropLast, Option.map_map,
        Option.map_map]
      rfl
    · rw [← setRow_map]
      rfl

theorem serve_map (r : Request α) :
    (c.map f).serve (r.map f) = ((c.serve r).1.map f, (c.serve r).2.map f) := by
  cases r with
  | put key value => exact c.put_map f key value
  | peek key =>
    change ((c.map f).peek key) = _
    simp only [peek, serve, row_map, lookup_map, Option.isSome_map]
    rfl
  | poll key =>
    change ((c.map f).poll key) = _
    simp only [poll, serve, row_map, lookup_map, Option.isSome_map, without_map]
    rw [← setRow_map]
    rfl
  | clear =>
    change (none, (c.map f).clear) = (none, c.clear.map f)
    simp only [clear, map, List.map_map]
    rfl

/-- **A cache does not look at its values.** A run with other values is the same run, with these in
the place of the old ones: values may be told apart by the request that put them. -/
theorem run_map (requests : List (Request α)) :
    (c.map f).run (requests.map (Request.map f)) =
      ((c.run requests).1.map (Prod.map (Request.map f) (Option.map f)), (c.run requests).2.map f) := by
  induction requests generalizing c with
  | nil => rfl
  | cons r requests ih =>
    rw [List.map_cons, run, serve_map, run]
    simp only [ih]
    rfl

end Renaming

/-! ### A new cache -/

/-- **A cache is faithful to its requests.** In every run of requests to a new cache: a value that a
lookup answers is the one of the latest `put` of the key, with neither a `poll` of it nor a `clear`
since; the values put are stored, given back by `put` or `poll`, or dropped by `clear`, each once and
in one way only; and the value of a `put` is found as long as its key is left alone and its row takes
in fewer other keys than it holds entries. -/
theorem run_faithful (hash : String → Nat) (metrics : CacheMetrics) {blocks rows : Nat}
    (hblocks : 1 ≤ blocks) (hrows : 1 ≤ rows) (requests : List (Request α)) :
    ∃ c, ofGeometry hash metrics blocks rows = .ok c ∧ ∃ log after, c.run requests = (log, after) ∧
      (∀ before r rest key value, log = before ++ (r, some value) :: rest →
        r = .peek key ∨ r = .poll key → IsLatest key value (before.map Prod.fst)) ∧
      (requests.filterMap Request.value?).Perm
        (after.values ++ (log.filterMap givenBack? ++ c.dropped requests)) ∧
      (∀ before key value since, requests = before ++ .put key value :: since →
        (∀ r ∈ since, r.leavesAlone key = true) →
        (c.rivals key since).length < blocks.nextPowerOfTwo →
        (after.peek key).1 = some value) := by
  obtain ⟨c, hc, hsound, hshape, -⟩ := exists_ofGeometry (α := α) hash metrics hblocks hrows
  have hempty : ∀ row ∈ c.rows, row = [] := by
    unfold ofGeometry at hc
    split at hc
    · cases hc
    · cases hc
      exact fun row hrow => List.eq_of_mem_replicate hrow
  have hrow : ∀ key, c.row key = [] := by
    intro key
    rw [Cache.row, List.getD_eq_getElem?_getD, List.getElem?_eq_getElem (hsound.rowIndex_lt key)]
    exact hempty _ (List.getElem_mem _)
  have hvalues : c.values = [] := by
    rw [values, List.flatten_eq_nil_iff.mpr hempty, List.map_nil]
  use c, hc, (c.run requests).1, (c.run requests).2, rfl
  refine ⟨?_, ?_, ?_⟩
  · intro before r rest key value hlog hr
    have hanswer := answer_run hlog
    have hbefore := hsound.run (before.map Prod.fst)
    apply latest_of_mem_row_run hsound hrow
    rcases hr with rfl | rfl
    · exact (peek_eq_some_iff hbefore).mp hanswer.symm
    · exact (poll_eq_some_iff hbefore).mp hanswer.symm
  · have hperm := values_run_perm hsound requests
    rwa [hvalues, List.append_nil] at hperm
  · rintro before key value since rfl halone hroom
    have hreached := (c.shape_run before)
    rw [run_append]
    refine peek_run_put (hsound.run before) halone ?_
    have hrivals : (c.run before).2.rivals key since = c.rivals key since := by
      simp only [rivals, rowIndex_congr hreached]
    have hblocks : (c.run before).2.blocks = blocks.nextPowerOfTwo :=
      congrArg (fun shape => shape.2.1) (hreached.trans hshape)
    rw [hrivals, hblocks]
    exact hroom

/-- A key that is put again, one that is pushed out, one that is polled, and a `clear`. -/
def crowded : List (Request Nat) :=
  [.put "a" 1, .clear, .put "a" 2, .put "b" 3, .put "a" 4, .put "c" 5, .poll "a", .put "b" 6,
    .peek "c"]

theorem run_faithful_crowded :
    1 ≤ 2 ∧ 1 ≤ 1 ∧ ∃ c, ofGeometry (fun _ => 6) ⟨"m", 0, 0, 0⟩ 2 1 = .ok c ∧
      ∃ log after, c.run crowded = (log, after) ∧
        (∀ before r rest key value, log = before ++ (r, some value) :: rest →
          r = .peek key ∨ r = .poll key → IsLatest key value (before.map Prod.fst)) ∧
        [1, 2, 3, 4, 5, 6].Perm (after.values ++ (log.filterMap givenBack? ++ c.dropped crowded)) ∧
        (after.peek "c").1 = some 5 := by
  obtain ⟨c, hc, log, after, hrun, hlatest, hperm, hkept⟩ :=
    run_faithful (fun _ => 6) ⟨"m", 0, 0, 0⟩ (by decide : 1 ≤ 2) (by decide : 1 ≤ 1) crowded
  refine ⟨by decide, by decide, c, hc, log, after, hrun, hlatest, hperm, ?_⟩
  cases hc
  exact hkept [.put "a" 1, .clear, .put "a" 2, .put "b" 3, .put "a" 4] "c" 5 _ rfl (by decide)
    (by decide +kernel)

end Cache

end SeriesQuery
