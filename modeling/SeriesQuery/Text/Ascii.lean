/-!
Comparison of names without regard to the case of ASCII letters. Letters past
ASCII keep their case, so `é` and `É` are different names.
-/

namespace SeriesQuery.Ascii

/-- The text with `A`–`Z` turned into `a`–`z`. -/
def lower (s : String) : String :=
  String.ofList (s.toList.map Char.toLower)

/-- Two names are the same when they agree up to the case of ASCII letters. -/
def same (a b : String) : Bool :=
  lower a == lower b

theorem same_iff {a b : String} : same a b = true ↔ lower a = lower b := by
  simp [same]

@[simp] theorem same_self (a : String) : same a a = true := by
  simp [same]

theorem same_comm (a b : String) : same a b = same b a := by
  simp only [same, Bool.beq_comm]

theorem same_trans {a b c : String} (hab : same a b = true) (hbc : same b c = true) :
    same a c = true := by
  simp_all [same]

end SeriesQuery.Ascii
