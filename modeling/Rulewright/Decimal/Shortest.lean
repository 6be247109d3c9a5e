import Rulewright.Decimal.Nearest

/-!
# The shortest decimal text of a double

A double is written with the fewest digits that read back as it. The numbers that read back as a
double are those nearer to it than to its neighbours, the ends of that interval included when its
significand is even. For each number of digits the two neighbours on that decimal grid are tried;
the first grid with a hit wins, and of two hits the nearer one, the upper one if both are equally
near.

Only integral doubles are written. Below `10 ^ 16` all digits are written, with one zero after the
point; from there on the text has an exponent.
-/

namespace Rulewright.Decimal

/-- A decimal number with this value is read as the double `v`. Both are scaled by four, so that
the middle between two doubles is a whole number. -/
def readsBack (v x : Nat) : Bool :=
  let u := ulp v
  let below := if v == Nat.pow 2 v.log2 then u else 2 * u
  let even := (v / u) % 2 == 0
  if even then 4 * v - below ≤ 4 * x && 4 * x ≤ 4 * v + 2 * u
  else 4 * v - below < 4 * x && 4 * x < 4 * v + 2 * u

/-- Of the two multiples of `unit` around `v`, the nearer one that reads back as `v`. -/
def onGrid? (v unit : Nat) : Option Nat :=
  let low := v / unit * unit
  let high := low + unit
  match readsBack v low, readsBack v high with
  | true, true => some (if v - low < high - v then low else high)
  | true, false => some low
  | false, true => some high
  | false, false => none

/-- The number with the fewest significant digits that reads back as `v`. -/
def shortest (v : Nat) : Nat :=
  let size := (Nat.toDigits 10 v).length
  ((List.range size).reverse.findSome? fun k => onGrid? v (Nat.pow 10 k)).getD v

/-- Digits without the zeros at their end. -/
def trimZeros (digits : List Char) : List Char :=
  (digits.reverse.dropWhile (· == '0')).reverse

/-- One digit, a point, the rest of the digits, and the exponent. -/
def scientific (n : Nat) : String :=
  let digits := Nat.toDigits 10 n
  let mark := 'e' :: Nat.toDigits 10 (digits.length - 1)
  match trimZeros digits with
  | [] => String.ofList ('0' :: mark)
  | [d] => String.ofList (d :: mark)
  | d :: ds => String.ofList (d :: '.' :: ds ++ mark)

/-- The text of a double that is a natural number. -/
def natText (v : Nat) : String :=
  if v < 10000000000000000 then toString v ++ ".0" else scientific (shortest v)

/-- The text of a double that is an integer. -/
def intText : Int → String
  | .ofNat n => natText n
  | .negSucc n => "-" ++ natText (n + 1)

end Rulewright.Decimal
