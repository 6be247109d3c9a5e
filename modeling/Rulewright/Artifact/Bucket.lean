import Rulewright.Expr.Basic

/-!
# Buckets and names

Within a phase rules are tried in buckets. A rule for an operator is in the bucket of the operator,
or in that of the operator and its number of operands if the operator takes several; a rule with an
optional operand at its root fits more than one number and is in the bucket for any. Buckets of
operators come first, by name and then by count, any count first. Rules with an open operator at
their root follow, by number of operands.
-/

namespace Rulewright

inductive Bucket where
  | operator (name : String) (arity : Option Nat)
  | anyway (count : Nat)
  deriving DecidableEq

namespace Bucket

/-- No count comes before every count. -/
def compareArity : Option Nat → Option Nat → Ordering
  | none, none => .eq
  | none, some _ => .lt
  | some _, none => .gt
  | some a, some b => compare a b

def cmp : Bucket → Bucket → Ordering
  | .operator n a, .operator m b => (compare n m).then (compareArity a b)
  | .operator _ _, .anyway _ => .lt
  | .anyway _, .operator _ _ => .gt
  | .anyway a, .anyway b => compare a b

instance : Ord Bucket := ⟨cmp⟩

/-- Why a pattern has no bucket. -/
def noBucketMessage : String := "the pattern root is neither an operator nor an anyway node"

/-- The bucket of a pattern. -/
def of? (l : Language) (pattern : Expr) : Option Bucket :=
  match pattern.unwrap with
  | .app symbol operands =>
    let name := l.name symbol
    let hasOptional := operands.any fun e => e.unwrap.isOptional
    match l.declarationState name with
    | some .overloaded => some (.operator name (if hasOptional then none else operands.length))
    | _ => some (.operator name none)
  | .anyway _ operands => some (.anyway operands.length)
  | _ => none

/-- The operator whose bucket it is. -/
def operator? : Bucket → Option String
  | .operator name _ => some name
  | .anyway _ => none

end Bucket

/-- The word that stands for a character in names. -/
def characterWord? : Char → Option String
  | '+' => some "plus"
  | '-' => some "minus"
  | '*' => some "mult"
  | '/' => some "div"
  | '%' => some "mod"
  | '^' => some "pow"
  | '=' => some "eq"
  | '!' => some "not"
  | '<' => some "lt"
  | '>' => some "gt"
  | '&' => some "and"
  | '|' => some "or"
  | '~' => some "tilde"
  | '.' => some "dot"
  | ':' => some "colon"
  | '?' => some "qmark"
  | '#' => some "hash"
  | '@' => some "at"
  | _ => none

/-- A character that is not part of a name, as one: its word, or its code point. -/
def characterName (c : Char) : String :=
  (characterWord? c).getD ("x" ++ String.ofList (Nat.toDigits 16 c.toNat))

def isNameCharacter (c : Char) : Bool := c.isAlphanum || c == '_'

/-- The parts of a name; `run` holds the characters of the current one, last one first. -/
def nameParts (run : List Char) : List Char → List String
  | [] => if run.isEmpty then [] else [String.ofList run.reverse]
  | c :: rest =>
    if isNameCharacter c then nameParts (c :: run) rest
    else
      (if run.isEmpty then [] else [String.ofList run.reverse]) ++
        characterName c :: nameParts [] rest

/-- An operator as part of a name. -/
def sanitize (operator : String) : String :=
  "_".intercalate (nameParts [] operator.toList)

/-- A phase as the end of a name. -/
def phaseSuffix (phase : Int) : String :=
  if phase < 0 then "neg" ++ toString phase.natAbs else toString phase

namespace Bucket

/-- The start of the names of the functions of a bucket. -/
def functionStem : Bucket → String
  | .operator name _ => "apply_" ++ sanitize name
  | .anyway _ => "apply_anyway"

end Bucket

/-- The function that tries the rules of a phase one by one. -/
def dispatchName (phase : Int) : String := "apply_rules_phase_" ++ phaseSuffix phase

/-- The function that has all rules of a phase in one. -/
def fusedName (phase : Int) : String := "apply_fused_phase_" ++ phaseSuffix phase

end Rulewright
