import Rulewright.Expr.Parser

/-!
# Why a rule is not compiled

A rule that asks for something matchers cannot do is left out, and the others are compiled. The
two other failures end the whole generation.
-/

namespace Rulewright

/-- What matchers cannot do. -/
inductive Unsupported where
  /-- An optional operand that is not one of exactly two operands. -/
  | optionalPlace
  /-- An optional operand that is not a metavariable. -/
  | optionalPattern
  /-- An optional operand of a root with an open operator. -/
  | optionalAnywayRoot
  /-- An optional operand of a root that does not take one and two operands only. -/
  | optionalRootArity (operator : String)
  /-- An optional operand outside of patterns. -/
  | optionalReplacement
  | unboundMeta (id : MetaId)
  | unboundGroup (group : GroupId)
  | noConstructor (operator : String)
  deriving DecidableEq

def Unsupported.message : Unsupported → String
  | .optionalPlace => "optional operand outside a two-operand pattern"
  | .optionalPattern => "optional operand must be a meta-variable"
  | .optionalAnywayRoot => "optional operand of an anyway node at the root"
  | .optionalRootArity operator =>
    "optional operand at the root needs `" ++ operator ++ "` to take one or two operands"
  | .optionalReplacement => "optional operand in a replacement"
  | .unboundMeta id => "$" ++ toString id ++ " is not bound by the pattern"
  | .unboundGroup group => "anyway group " ++ toString group ++ " is not bound by the pattern"
  | .noConstructor operator => "operator `" ++ operator ++ "` has no constructor"

inductive CompileError where
  | unsupported (reason : Unsupported)
  /-- A comparison of operators that counts the operands of neither node. -/
  | misaligned (countAt first second : Trail)
  /-- A rule of the configuration that is not readable. -/
  | configuredRule (source : ParseError)
  deriving DecidableEq

namespace CompileError

def message : CompileError → String
  | .unsupported reason => reason.message
  | .misaligned countAt first second =>
    "anyway comparison with count at `" ++ countAt.text ++ "` cannot pair operators at `" ++
      first.text ++ "` and `" ++ second.text ++ "`"
  | .configuredRule source => "invalid configured rule: " ++ source.message

/-- The error ends the generation; the others drop one rule. -/
def isFatal : CompileError → Bool
  | .unsupported _ => false
  | _ => true

end CompileError

end Rulewright
