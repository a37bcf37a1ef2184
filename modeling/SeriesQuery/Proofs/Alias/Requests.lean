import Mathlib.Data.List.ReduceOption
import SeriesQuery.Proofs.Alias

/-!
Names that are asked for one after the other.

A name is made free by trying it with one number after the other. The search needs no bound: it ends
with the least number that makes the name free (`AliasSet.claimsFrom_iff`). And however names are
asked for, what a set gives was free and is taken from then on (`AliasSet.isFree_run`), so that it
gives no name twice (`AliasSet.given_once`).
-/

namespace SeriesQuery

namespace AliasSet

variable {s : AliasSet} {base : String}

/-! ### The search as it goes -/

/-- The names that are tried for `base`: itself, and then with `1`, `2`, and so on after it. -/
def candidate (base : String) : Nat → String
  | 0 => base
  | n + 1 => numbered base (n + 1)

/-- The candidates for `base` from one on are claimed in turn, with no bound, until one was free:
that name and the set with it. -/
inductive ClaimsFrom (base : String) : AliasSet → Nat → String × AliasSet → Prop where
  | free {s after : AliasSet} {n : Nat} (h : s.claim (candidate base n) = (true, after)) :
      ClaimsFrom base s n (candidate base n, after)
  | taken {s after : AliasSet} {n : Nat} {r : String × AliasSet}
      (h : s.claim (candidate base n) = (false, after)) (rest : ClaimsFrom base after (n + 1) r) :
      ClaimsFrom base s n r

theorem claim_of_free {name : String} (h : s.isFree name = true) :
    s.claim name = (true, s.insert name) := by
  rw [claim, h]

/-- A name that is refused leaves the set as it is. -/
theorem claim_of_taken {name : String} (h : s.isFree name = false) : s.claim name = (false, s) := by
  rw [claim, h, insert_of_taken h]

/-- The search ends at the first candidate, from the one it begins with, that is free. -/
theorem claimsFrom_first {n k : Nat} (hle : n ≤ k) (hfree : s.isFree (candidate base k) = true)
    (hbefore : ∀ m, n ≤ m → m < k → s.isFree (candidate base m) = false) :
    ClaimsFrom base s n (candidate base k, s.insert (candidate base k)) := by
  induction hturns : k - n generalizing n with
  | zero =>
    obtain rfl : n = k := by omega
    exact .free (claim_of_free hfree)
  | succ turns ih =>
    refine .taken (claim_of_taken (hbefore n (Nat.le_refl n) (by omega))) ?_
    exact ih (by omega) (fun m hm => hbefore m (by omega)) (by omega)

/-- There is one way only for the search to end. -/
theorem ClaimsFrom.eq {n : Nat} {r r' : String × AliasSet} (h : ClaimsFrom base s n r)
    (h' : ClaimsFrom base s n r') : r = r' := by
  induction h with
  | free h =>
    cases h' with
    | free h' =>
      cases h.symm.trans h'
      rfl
    | taken h' => cases h.symm.trans h'
  | taken h _ ih =>
    cases h' with
    | free h' => cases h.symm.trans h'
    | taken h' rest =>
      cases h.symm.trans h'
      exact ih rest

/-- The first candidate that is free is the name that the set makes free. -/
theorem claimsFrom_claimFresh (s : AliasSet) (base : String) :
    ClaimsFrom base s 0 (s.claimFresh base) := by
  cases hbase : s.isFree base with
  | true =>
    rw [claimFresh, freeName, if_pos hbase]
    exact .free (claim_of_free hbase)
  | false =>
    obtain ⟨⟨hpos, hfree⟩, hleast⟩ := s.isLeast_freeNumber base
    rw [claimFresh, freeName, if_neg (by simp [hbase])]
    obtain ⟨k, hk⟩ := Nat.exists_eq_succ_of_ne_zero hpos.ne'
    rw [hk] at hfree hleast ⊢
    refine claimsFrom_first (Nat.zero_le (k + 1)) hfree fun m _ hlt => ?_
    cases m with
    | zero => exact hbase
    | succ m =>
      exact Bool.eq_false_iff.mpr fun h => Nat.not_le.mpr hlt (hleast ⟨m.succ_pos, h⟩)

/-- The search has an end, and it takes the name that the set makes free. -/
theorem claimsFrom_iff {r : String × AliasSet} :
    ClaimsFrom base s 0 r ↔ r = s.claimFresh base :=
  ⟨fun h => h.eq (s.claimsFrom_claimFresh base), fun h => h ▸ s.claimsFrom_claimFresh base⟩

/-! ### One request -/

/-- What is asked of a set: a name as it is, or a free name made of one. -/
inductive Request where
  | claim (name : String)
  | claimFresh (base : String)
deriving DecidableEq, Repr, Inhabited

/-- Serves one request: the name it is given, if any, and the set after it. -/
def serve (s : AliasSet) : Request → Option String × AliasSet
  | .claim name => (if (s.claim name).1 then some name else none, (s.claim name).2)
  | .claimFresh base => (some (s.claimFresh base).1, (s.claimFresh base).2)

/-- A request is given a free name and takes it, or it is given none and leaves the set as it is. -/
theorem serve_cases (s : AliasSet) (r : Request) :
    (∃ name, s.isFree name = true ∧ s.serve r = (some name, s.insert name)) ∨
      s.serve r = (none, s) := by
  cases r with
  | claim name =>
    cases h : s.isFree name with
    | true => exact .inl ⟨name, h, by rw [serve, claim_of_free h, if_pos rfl]⟩
    | false => exact .inr (by rw [serve, claim_of_taken h, if_neg Bool.false_ne_true])
  | claimFresh base => exact .inl ⟨s.freeName base, s.isFree_freeName base, rfl⟩

theorem isFree_of_serve {r : Request} {name : String} (h : (s.serve r).1 = some name) :
    s.isFree name = true := by
  obtain ⟨given, hfree, hserve⟩ | hserve := s.serve_cases r
  · rw [hserve] at h
    exact Option.some.inj h ▸ hfree
  · rw [hserve] at h
    cases h

theorem isFree_serve (s : AliasSet) (r : Request) (name : String) :
    (s.serve r).2.isFree name = true ↔
      s.isFree name = true ∧ IsNew (s.serve r).1.toList name := by
  obtain ⟨given, -, hserve⟩ | hserve := s.serve_cases r
  · simp [hserve, isFree_insert, IsNew]
  · simp [hserve, IsNew]

/-! ### Requests in any order -/

/-- Serves requests one after the other: what each is given, and the set after the last. -/
def run (s : AliasSet) : List Request → List (Option String) × AliasSet
  | [] => ([], s)
  | r :: requests =>
    let (answer, after) := s.serve r
    let (answers, last) := after.run requests
    (answer :: answers, last)

/-- The names that requests are given, in order. -/
def given (s : AliasSet) (requests : List Request) : List String :=
  (s.run requests).1.reduceOption

theorem given_cons (s : AliasSet) (r : Request) (requests : List Request) :
    s.given (r :: requests) = (s.serve r).1.toList ++ (s.serve r).2.given requests := by
  change ((s.serve r).1 :: ((s.serve r).2.run requests).1).reduceOption = _
  cases (s.serve r).1 with
  | none => exact List.reduceOption_cons_of_none _
  | some name => exact List.reduceOption_cons_of_some _ _

/-- What is free after a run was free before it and is like no name that was given. -/
theorem isFree_run (s : AliasSet) (requests : List Request) (name : String) :
    (s.run requests).2.isFree name = true ↔
      s.isFree name = true ∧ IsNew (s.given requests) name := by
  induction requests generalizing s with
  | nil => exact ⟨fun h => ⟨h, fun _ hgiven => nomatch hgiven⟩, And.left⟩
  | cons r requests ih =>
    calc (s.run (r :: requests)).2.isFree name = true
        ↔ (s.serve r).2.isFree name = true ∧ IsNew ((s.serve r).2.given requests) name := ih _
      _ ↔ s.isFree name = true ∧ IsNew (s.given (r :: requests)) name := by
        rw [isFree_serve, given_cons, and_assoc]
        simp [IsNew, or_imp, forall_and]

theorem isFree_of_mem_given {requests : List Request} {name : String}
    (h : name ∈ s.given requests) : s.isFree name = true := by
  induction requests generalizing s with
  | nil => cases h
  | cons r requests ih =>
    rw [given_cons, List.mem_append] at h
    rcases h with h | h
    · exact isFree_of_serve (Option.mem_toList.mp h)
    · exact ((s.isFree_serve r name).mp (ih h)).1

theorem pairwise_given (s : AliasSet) (requests : List Request) :
    (s.given requests).Pairwise fun a b => Ascii.same a b = false := by
  induction requests generalizing s with
  | nil => exact .nil
  | cons r requests ih =>
    rw [given_cons, List.pairwise_append]
    refine ⟨?_, ih _, fun a ha b hb => ?_⟩
    · cases (s.serve r).1 <;> simp
    · exact ((s.isFree_serve r b).mp (isFree_of_mem_given hb)).2 a ha

/-- **A name that is made free has the least number, and no name is given twice.** The search for it
ends, with the name itself if that is free and otherwise with the least positive number after it that
makes it free, and that name alone is added to those that are taken. Whatever is asked of a set, in
any order, no two of the names that it gives are alike, all of them were free before, and what is
free afterwards is like none of them. -/
theorem given_once (s : AliasSet) (base : String) (requests : List Request) :
    ((∀ r, ClaimsFrom base s 0 r ↔ r = s.claimFresh base) ∧
      (s.isFree base = true ∧ (s.claimFresh base).1 = base ∨
        s.isFree base = false ∧
          ∃ n ≤ s.taken.length + 1, IsLeast {n | 0 < n ∧ s.isFree (numbered base n) = true} n ∧
            (s.claimFresh base).1 = numbered base n) ∧
      (s.claimFresh base).2.taken = Ascii.lower (s.claimFresh base).1 :: s.taken) ∧
    (s.given requests).Pairwise (fun a b => Ascii.same a b = false) ∧
    (∀ name ∈ s.given requests, s.isFree name = true) ∧
    ∀ name, (s.run requests).2.isFree name = true ↔
      s.isFree name = true ∧ IsNew (s.given requests) name := by
  have htaken : (s.insert (s.freeName base)).taken = Ascii.lower (s.freeName base) :: s.taken := by
    rw [insert_of_free (s.isFree_freeName base)]
  exact ⟨⟨fun _ => claimsFrom_iff, s.freeName_least base, htaken⟩, s.pairwise_given requests,
    fun _ => isFree_of_mem_given, s.isFree_run requests⟩

theorem given_once_numbered :
    ClaimsFrom "COLUMN" (ofList ["column", "SUM", "Column1"]) 0
        ("COLUMN2", ⟨["column2", "column1", "sum", "column"]⟩) ∧
      (ofList ["column", "SUM", "Column1"]).given
          [.claimFresh "sum", .claim "Sum1", .claimFresh "COLUMN", .claim "sum11",
            .claimFresh "Sum1", .claimFresh "column"] =
        ["sum1", "COLUMN2", "sum11", "Sum12", "column3"] ∧
      (ofList ["column", "SUM", "Column1"]).isFree "sum1" = true := by
  have h := given_once (ofList ["column", "SUM", "Column1"]) "COLUMN"
    [.claimFresh "sum", .claim "Sum1", .claimFresh "COLUMN", .claim "sum11", .claimFresh "Sum1",
      .claimFresh "column"]
  obtain ⟨⟨hsearch, -, -⟩, -, hfree, -⟩ := h
  refine ⟨(hsearch _).mpr ?_, ?_, hfree "sum1" ?_⟩ <;> decide +kernel

end AliasSet

end SeriesQuery
