/-!
# The nearest double of an integer

A double has 53 significant bits. An integer is rounded to that many; half way between two
neighbours the one with the even significand is taken. The result is again an integer, so it is
kept as one.

* `nearest_of_lt`: integers below `2 ^ 53` are doubles already.
-/

namespace Rulewright.Decimal

/-- Significant bits of a double. -/
def significandBits : Nat := 53

/-- The quotient rounded to the nearest natural number, a half to the even one. -/
def divNearest (n d : Nat) : Nat :=
  let q := n / d
  let twice := 2 * (n % d)
  if twice > d || (twice == d && q % 2 == 1) then q + 1 else q

/-- The weight of the last significant bit of a double of the size of `n`. -/
def ulp (n : Nat) : Nat :=
  Nat.pow 2 (n.log2 + 1 - significandBits)

/-- The double nearest to a natural number. -/
def nearest (n : Nat) : Nat :=
  divNearest n (ulp n) * ulp n

/-- The double nearest to an integer. -/
def nearestInt : Int → Int
  | .ofNat n => nearest n
  | .negSucc n => -(nearest (n + 1) : Int)

theorem ulp_of_lt {n : Nat} (h : n < 9007199254740992) : ulp n = 1 := by
  have hl : n.log2 < 53 := by
    by_cases h0 : n = 0
    · subst h0; decide
    · exact (Nat.log2_lt h0).2 h
  have : n.log2 + 1 - significandBits = 0 := by
    unfold significandBits; omega
  simp [ulp, this]

theorem nearest_of_lt {n : Nat} (h : n < 9007199254740992) : nearest n = n := by
  simp [nearest, ulp_of_lt h, divNearest, Nat.mod_one]

end Rulewright.Decimal
