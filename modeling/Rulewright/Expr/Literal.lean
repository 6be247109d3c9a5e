import Rulewright.Decimal.Shortest

/-!
# Literals

A literal is an integer of 64 bits, with or without sign. Matcher code compares literals as
doubles, so two literals with one nearest double are the same value to it.
-/

namespace Rulewright

inductive Literal where
  | int (value : Int)
  | uint (value : Nat)
  deriving DecidableEq

/-- The integer fits 64 bits with sign. -/
def fitsInt64 (n : Int) : Bool :=
  decide (-9223372036854775808 ≤ n) && decide (n < 9223372036854775808)

/-- The number fits 64 bits without sign. -/
def fitsUInt64 (n : Nat) : Bool := decide (n < 18446744073709551616)

namespace Literal

/-- The value as an integer of 64 bits with sign, if it is one. -/
def int64? : Literal → Option Int
  | .int n => some n
  | .uint n => if fitsInt64 n then some n else none

/-- The exact integer. -/
def value : Literal → Int
  | .int n => n
  | .uint n => n

/-- The nearest double, which is an integer too. -/
def double (l : Literal) : Int := Decimal.nearestInt l.value

/-- The nearest double as text. -/
def doubleText (l : Literal) : String := Decimal.intText l.double

/-- The literal in the notation of terms. -/
def text : Literal → String
  | .int n => toString n
  | .uint n => toString n ++ "u"

end Literal

end Rulewright
