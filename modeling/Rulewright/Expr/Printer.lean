import Rulewright.Expr.Basic

/-!
# The notation of terms

An application is written in parentheses, its head first: the name of the symbol, `#` for a
compound wrapper, `?` for an optional operand and its default, `~` and the number of the group for
an application of an open operator. One space stands before each operand. A metavariable is its
number after `$`.
-/

namespace Rulewright.Expr

mutual

def render (l : Language) : Expr → String
  | .metavar id => "$" ++ toString id
  | .var name => name
  | .literal value => value.text
  | .app symbol operands => "(" ++ l.name symbol ++ renderAll l operands ++ ")"
  | .compound inner => "(# " ++ inner.render l ++ ")"
  | .optional pattern default => "(? " ++ pattern.render l ++ " " ++ default.render l ++ ")"
  | .anyway group operands => "(~ " ++ toString group ++ renderAll l operands ++ ")"

/-- Operands, each after a space. -/
def renderAll (l : Language) : List Expr → String
  | [] => ""
  | e :: rest => " " ++ e.render l ++ renderAll l rest

end

end Rulewright.Expr
