import Rulewright.Expr.Basic

/-!
# Constant terms

A term built from literals by addition, multiplication, subtraction and negation has a value. It
is computed from left to right in integers of 64 bits with sign, and there is none if a step
leaves their range.
-/

namespace Rulewright.Expr

mutual

/-- The term is made of literals, wrappers and applications that have operands. -/
def isConstant : Expr → Bool
  | .literal _ => true
  | .compound inner => inner.isConstant
  | .app _ operands => !operands.isEmpty && allConstant operands
  | _ => false

def allConstant : List Expr → Bool
  | [] => true
  | e :: rest => e.isConstant && allConstant rest

end

/-- The integer if it fits 64 bits with sign. -/
def checked (n : Int) : Option Int :=
  if fitsInt64 n then some n else none

/-- The value of an operator on values. -/
def applyOperator? (name : String) (values : List Int) : Option Int :=
  match name, values with
  | "+", _ :: _ => values.foldlM (fun acc v => checked (acc + v)) 0
  | "*", _ :: _ => values.foldlM (fun acc v => checked (acc * v)) 1
  | "-", [v] => checked (-v)
  | "-", [v, w] => checked (v - w)
  | _, _ => none

mutual

/-- The value of a constant term. -/
def value? (l : Language) : Expr → Option Int
  | .literal lit => lit.int64?
  | .compound inner => inner.value? l
  | .app symbol operands =>
    match values? l operands with
    | some values => applyOperator? (l.name symbol) values
    | none => none
  | _ => none

def values? (l : Language) : List Expr → Option (List Int)
  | [] => some []
  | e :: rest =>
    match e.value? l, values? l rest with
    | some v, some vs => some (v :: vs)
    | _, _ => none

end

end Rulewright.Expr
