/-!
# Ranges of characters

A class of characters is a list of ranges. A range with step two holds every second code point,
as the alphabets do that alternate their cases.

* `Ranges.mem_iff`: a character is in a class when its code point is in one of the ranges.
-/

namespace Rulewright.Text

/-- The code points `first`, `first + step`, … up to `last`. -/
structure CodeRange where
  first : Nat
  last : Nat
  step : Nat

/-- A class of characters as a list of ranges. -/
abbrev Ranges := List CodeRange

/-- The code point lies between the ends of the range and on its steps. -/
def CodeRange.contains (r : CodeRange) (n : Nat) : Bool :=
  decide (r.first ≤ n) && decide (n ≤ r.last) && (n - r.first) % r.step == 0

def Ranges.contains (rs : Ranges) (c : Char) : Bool :=
  rs.any (·.contains c.toNat)

theorem Ranges.mem_iff (rs : Ranges) (c : Char) :
    rs.contains c = true ↔ ∃ r ∈ rs, r.contains c.toNat = true := by
  simp [Ranges.contains]

/-- Ranges without gaps, from pairs of their ends. -/
def Ranges.solid (pairs : List (Nat × Nat)) : Ranges :=
  pairs.map fun p => ⟨p.1, p.2, 1⟩

end Rulewright.Text
