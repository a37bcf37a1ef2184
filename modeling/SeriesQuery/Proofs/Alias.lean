import Mathlib.Data.List.Nodup
import Mathlib.Data.List.Perm.Subperm
import Mathlib.Order.Bounds.Basic
import SeriesQuery.Alias

/-!
Names that are free.

The numbers make different names of one name in any case, and there are more numbers to try
than names that are taken, so a name that is claimed was free (`AliasSet.isFree_freeName`)
and is taken from then on (`AliasSet.isFree_insert`).
-/

namespace SeriesQuery

namespace Ascii

theorem lower_append (a b : String) : lower (a ++ b) = lower a ++ lower b := by
  apply String.toList_inj.mp
  simp [lower]

theorem toLower_of_isDigit {c : Char} (h : c.isDigit = true) : c.toLower = c := by
  have hle : c.val.toNat ≤ 57 := by
    simp only [Char.isDigit, Bool.and_eq_true, decide_eq_true_eq] at h
    exact h.2
  have hcase : ¬ (c.val.toNat ≥ 65 ∧ c.val.toNat ≤ 90) := by omega
  unfold Char.toLower
  exact dif_neg hcase

theorem lower_toString (n : Nat) : lower (toString n) = toString n := by
  apply String.toList_inj.mp
  change (String.ofList ((n.repr).toList.map Char.toLower)).toList = n.repr.toList
  rw [String.toList_ofList, Nat.toList_repr]
  refine (List.map_congr_left fun c hc => ?_).trans (List.map_id _)
  exact toLower_of_isDigit (Nat.isDigit_of_mem_toDigits (by decide) (by decide) hc)

end Ascii

namespace AliasSet

variable {s : AliasSet}

theorem isFree_eq_false {name : String} : s.isFree name = false ↔ Ascii.lower name ∈ s.taken := by
  simp [isFree]

/-- A name that is free is none that is taken. -/
theorem same_eq_false {a b : String} (ha : s.isFree a = true) (hb : s.isFree b = false) :
    Ascii.same a b = false := by
  refine Bool.eq_false_iff.mpr fun hsame => ?_
  rw [isFree, Ascii.same_iff.mp hsame, ← isFree, hb] at ha
  cases ha

/-- A name that is claimed is taken, and no other. -/
theorem isFree_insert (s : AliasSet) (a b : String) :
    (s.insert a).isFree b = (s.isFree b && !Ascii.same a b) := by
  unfold insert
  split
  · rename_i hfree
    by_cases hsame : Ascii.lower a = Ascii.lower b
    · simp [isFree, Ascii.same, hsame]
    · simp [isFree, Ascii.same, hsame, Ne.symm hsame]
  · rename_i hfree
    by_cases hsame : Ascii.lower a = Ascii.lower b
    · have hb : s.isFree b = false := by
        rw [isFree_eq_false, ← hsame, ← isFree_eq_false]
        simpa using hfree
      simp [hb]
    · simp [Ascii.same, hsame]

theorem insert_of_taken {name : String} (h : s.isFree name = false) : s.insert name = s := by
  rw [AliasSet.insert, if_neg (by simp [h])]

theorem insert_of_free {name : String} (h : s.isFree name = true) :
    s.insert name = ⟨Ascii.lower name :: s.taken⟩ := by
  rw [AliasSet.insert, if_pos h]

theorem numbered_injective (base : String) :
    Function.Injective fun n => Ascii.lower (numbered base n) := by
  intro m n h
  simp only [numbered, Ascii.lower_append, Ascii.lower_toString] at h
  have hlists := congrArg String.toList h
  rw [String.toList_append, String.toList_append] at hlists
  have hdigits := List.append_cancel_left hlists
  simp only [Nat.toString_eq_ofList_toDigits, String.toList_ofList] at hdigits
  simpa using congrArg (fun digits => Nat.ofDigitChars 10 digits 0) hdigits

/-- Among one more numbers than there are taken names, one makes the name free. -/
theorem exists_freeNumber (s : AliasSet) (base : String) :
    ∃ n, (List.range (s.taken.length + 1)).find? (fun n => s.isFree (numbered base (n + 1))) =
      some n := by
  refine Option.ne_none_iff_exists'.mp fun hfind => ?_
  have htaken : (List.range (s.taken.length + 1)).map
      (fun n => Ascii.lower (numbered base (n + 1))) ⊆ s.taken := by
    intro name hname
    obtain ⟨n, hn, rfl⟩ := List.mem_map.mp hname
    exact isFree_eq_false.mp (by simpa using List.find?_eq_none.mp hfind n hn)
  have hnodup : ((List.range (s.taken.length + 1)).map
      fun n => Ascii.lower (numbered base (n + 1))).Nodup :=
    List.nodup_range.map ((numbered_injective base).comp fun _ _ h => Nat.succ.inj h)
  have hlength := (List.subperm_of_subset hnodup htaken).length_le
  rw [List.length_map, List.length_range] at hlength
  omega

/-- The number that is found is the least that makes the name free. -/
theorem isLeast_freeNumber (s : AliasSet) (base : String) :
    IsLeast {n | 0 < n ∧ s.isFree (numbered base n) = true} (s.freeNumber base) := by
  obtain ⟨n, hfind⟩ := s.exists_freeNumber base
  have hnumber : s.freeNumber base = n + 1 := by
    rw [freeNumber, hfind]
    rfl
  obtain ⟨hfree, -, hbelow⟩ := List.find?_range_eq_some.mp hfind
  rw [hnumber]
  refine ⟨⟨Nat.succ_pos n, hfree⟩, fun m hm => Nat.succ_le_of_lt (Nat.lt_of_not_le fun hle => ?_)⟩
  obtain ⟨hpos, hm⟩ := hm
  have hbefore := hbelow (m - 1) (by omega)
  rw [Nat.sub_add_cancel hpos, hm] at hbefore
  cases hbefore

/-- No number is tried past the number of taken names and one more, so a counter that can count the
names does not run over. -/
theorem freeNumber_le (s : AliasSet) (base : String) :
    s.freeNumber base ≤ s.taken.length + 1 := by
  obtain ⟨n, hfind⟩ := s.exists_freeNumber base
  have hn : n < s.taken.length + 1 := List.mem_range.mp (List.mem_of_find?_eq_some hfind)
  rw [freeNumber, hfind]
  exact hn

theorem isFree_freeNumber (s : AliasSet) (base : String) :
    s.isFree (numbered base (s.freeNumber base)) = true :=
  (s.isLeast_freeNumber base).1.2

theorem isFree_freeName (s : AliasSet) (base : String) : s.isFree (s.freeName base) = true := by
  unfold freeName
  split
  · assumption
  · exact s.isFree_freeNumber base

/-- The name that is found is `base` if that is free, and otherwise has the least positive number
after it that makes it free. -/
theorem freeName_least (s : AliasSet) (base : String) :
    s.isFree base = true ∧ s.freeName base = base ∨
      s.isFree base = false ∧
        ∃ n ≤ s.taken.length + 1, IsLeast {n | 0 < n ∧ s.isFree (numbered base n) = true} n ∧
          s.freeName base = numbered base n := by
  unfold freeName
  cases hbase : s.isFree base with
  | true => exact .inl ⟨rfl, if_pos rfl⟩
  | false =>
    right
    exact ⟨rfl, s.freeNumber base, s.freeNumber_le base, s.isLeast_freeNumber base,
      if_neg Bool.false_ne_true⟩

/-- A name made of `base`: the name itself or with a number after it. -/
def MadeOf (base name : String) : Prop :=
  name = base ∨ ∃ n, name = numbered base n

theorem madeOf_freeName (s : AliasSet) (base : String) : MadeOf base (s.freeName base) := by
  unfold freeName
  split
  · exact .inl rfl
  · exact .inr ⟨_, rfl⟩

/-- A name made of another begins with it, in any case. -/
theorem MadeOf.lower_prefix {base name : String} (h : MadeOf base name) :
    (Ascii.lower base).toList <+: (Ascii.lower name).toList := by
  rcases h with rfl | ⟨n, rfl⟩
  · exact List.prefix_refl _
  · rw [numbered, Ascii.lower_append, String.toList_append]
    exact List.prefix_append _ _

/-! ### The names in a set -/

/-- A name is like none of `names`, in any case. -/
def IsNew (names : List String) (name : String) : Prop :=
  ∀ taken ∈ names, Ascii.same taken name = false

/-- What a name becomes among `names`: it stays if none of them is like it, and otherwise the least
positive number that makes it new is put after it. -/
def MadeUnique (names : List String) (base name : String) : Prop :=
  IsNew names base ∧ name = base ∨
    ¬ IsNew names base ∧ ∃ n, IsLeast {n | 0 < n ∧ IsNew names (numbered base n)} n ∧
      name = numbered base n

/-- The names that are taken are those given. -/
def Holds (s : AliasSet) (names : List String) : Prop :=
  ∀ name, s.isFree name = true ↔ IsNew names name

theorem holds_empty : empty.Holds [] :=
  fun _ => ⟨fun _ _ h => (nomatch h), fun _ => rfl⟩

theorem Holds.insert {names : List String} (h : s.Holds names) (name : String) :
    (s.insert name).Holds (names ++ [name]) := by
  intro other
  rw [isFree_insert, Bool.and_eq_true, h other]
  simp [IsNew, or_imp, forall_and]

/-- A name that is taken may be listed again. -/
theorem Holds.again {names : List String} (h : s.Holds names) {name : String}
    (hname : s.isFree name = false) : s.Holds (names ++ [name]) :=
  insert_of_taken hname ▸ h.insert name

theorem Holds.madeUnique {names : List String} (h : s.Holds names) (base : String) :
    MadeUnique names base (s.freeName base) := by
  have hset : {n | 0 < n ∧ IsNew names (numbered base n)} =
      {n | 0 < n ∧ s.isFree (numbered base n) = true} := by
    ext n
    exact and_congr_right fun _ => (h _).symm
  rw [MadeUnique, hset, ← h base]
  rcases s.freeName_least base with hfree | ⟨htaken, n, -, hleast, hname⟩
  · exact .inl hfree
  · exact .inr ⟨by simp [htaken], n, hleast, hname⟩

/-! ### Sets that grow -/

/-- Every name that is taken in one set is taken in the other. -/
def Within (s t : AliasSet) : Prop :=
  ∀ name, s.isFree name = false → t.isFree name = false

theorem Within.refl (s : AliasSet) : s.Within s :=
  fun _ h => h

theorem Within.trans {t u : AliasSet} (hst : s.Within t) (htu : t.Within u) : s.Within u :=
  fun name h => htu name (hst name h)

/-- What is free in the larger set is free in the smaller one. -/
theorem Within.isFree {t : AliasSet} (h : s.Within t) {name : String}
    (hfree : t.isFree name = true) : s.isFree name = true := by
  cases hs : s.isFree name with
  | true => rfl
  | false => rw [← hfree, h name hs]

theorem within_insert (s : AliasSet) (name : String) : s.Within (s.insert name) := by
  intro other h
  simp [isFree_insert, h]

theorem insert_taken (s : AliasSet) (name : String) : (s.insert name).isFree name = false := by
  simp [isFree_insert]

theorem taken_ofList {names : List String} {name : String} (h : name ∈ names) :
    (ofList names).isFree name = false := by
  have hfold : ∀ {names : List String} (s : AliasSet), name ∈ names ∨ s.isFree name = false →
      (names.foldl insert s).isFree name = false := by
    intro names
    induction names with
    | nil => exact fun s h => h.resolve_left List.not_mem_nil
    | cons first names ih =>
      intro s h
      rcases h with h | h
      · rcases List.mem_cons.mp h with rfl | h
        · exact ih _ (.inr (s.insert_taken _))
        · exact ih _ (.inl h)
      · exact ih _ (.inr (s.within_insert first name h))
  exact hfold empty (.inl h)

end AliasSet

end SeriesQuery
