/-!
# Decimal digits
-/

namespace Rulewright.Decimal

/-- The number written by decimal digits. -/
def ofDigits (digits : List Char) : Nat :=
  digits.foldl (fun n c => n * 10 + (c.toNat - '0'.toNat)) 0

end Rulewright.Decimal
