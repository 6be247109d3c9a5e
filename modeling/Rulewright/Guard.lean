import Rulewright.Error
import Rulewright.Text.Quoted

/-!
# Guards

A guard is a condition on the matched term that matcher code checks before it goes on. Guards
speak of nodes by their trails. Two guards are taken to be equal when their texts are, except free
ones, which are texts themselves and equal to nothing.
-/

namespace Rulewright

/-- One side of an equation. -/
inductive Side where
  | operatorOf (trail : Trail)
  | operandCountOf (trail : Trail)
  | isValueOf (trail : Trail)
  | valueOf (trail : Trail)
  | number (n : Nat)
  | operatorName (name : String)
  | irregular
  deriving DecidableEq

def Side.text : Side → String
  | .operatorOf t => t.temporary ++ ".op()"
  | .operandCountOf t => t.temporary ++ ".arity()"
  | .isValueOf t => t.temporary ++ ".is_value()"
  | .valueOf t => t.temporary ++ ".value()"
  | .number n => toString n
  | .operatorName name => Text.quoted name
  | .irregular => "()"

/-- A count of operands together with a comparison of two operators. The operands of one of the
two compared nodes are counted. -/
structure AnywayComparison where
  countAt : Trail
  first : Trail
  second : Trail
  count : Nat
  aligned : countAt = first ∨ countAt = second
  deriving DecidableEq

/-- The counted node is read from its temporary, the other one from its parent. -/
def AnywayComparison.text (c : AnywayComparison) : String :=
  let first := if c.countAt = c.first then c.first.temporary else c.first.access
  let second := if c.countAt = c.first then c.second.access else c.second.temporary
  c.countAt.temporary ++ ".arity() == " ++ toString c.count ++ " && " ++
    first ++ ".op() == " ++ second ++ ".op()"

inductive Guard where
  | equality (left right : Side)
  /-- The node is a literal with this value. -/
  | value (trail : Trail) (literal : Literal)
  /-- The node has this operator and this number of operands. -/
  | overloaded (trail : Trail) (operator : String) (count : Nat)
  | anyway (comparison : AnywayComparison)
  /-- The nodes of each pair are equal terms. -/
  | structurallyEqual (pairs : List (Trail × Trail))
  /-- A condition given by its text alone. -/
  | free (text : String)
  | irregular
  deriving DecidableEq

namespace Guard

def operatorIs (trail : Trail) (name : String) : Guard :=
  .equality (.operatorOf trail) (.operatorName name)

def operandCountIs (trail : Trail) (count : Nat) : Guard :=
  .equality (.operandCountOf trail) (.number count)

def sameOperator (first second : Trail) : Guard :=
  .equality (.operatorOf first) (.operatorOf second)

/-- The comparison of two operators that counts the operands of one of the nodes. -/
def anyway? (countAt first second : Trail) (count : Nat) : Except CompileError Guard :=
  if h : countAt = first ∨ countAt = second then
    .ok (.anyway ⟨countAt, first, second, count, h⟩)
  else .error (.misaligned countAt first second)

def pairText (p : Trail × Trail) : String :=
  p.1.temporary ++ ".structurally_equal(&" ++ p.2.temporary ++ ")"

def text : Guard → String
  | .equality left right => left.text ++ " == " ++ right.text
  | .value trail literal =>
    trail.temporary ++ ".is_value() && " ++ trail.temporary ++ ".value() == " ++ literal.doubleText
  | .overloaded trail operator count =>
    trail.temporary ++ ".op() == " ++ Text.quoted operator ++ " && " ++
      trail.temporary ++ ".arity() == " ++ toString count
  | .anyway comparison => comparison.text
  | .structurallyEqual pairs => " && ".intercalate (pairs.map pairText)
  | .free text => text
  | .irregular => "false"

def isFree : Guard → Bool
  | .free _ => true
  | _ => false

/-- The guards have one text and neither is free. -/
def equals (a b : Guard) : Bool :=
  !a.isFree && !b.isFree && a.text == b.text

/-- The node and the number of operands of a plain count of operands. -/
def operandCountCheck? : Guard → Option (Trail × Nat)
  | .equality (.operandCountOf trail) (.number count)
  | .equality (.number count) (.operandCountOf trail) => some (trail, count)
  | _ => none

/-- The nodes of a plain comparison of two operators. -/
def operatorPairing? : Guard → Option (Trail × Trail)
  | .equality (.operatorOf first) (.operatorOf second) => some (first, second)
  | _ => none

/-- The number of operands that a check for an operator implies. -/
def impliedArity? (l : Language) : Guard → Option Nat
  | .equality (.operatorOf _) (.operatorName name)
  | .equality (.operatorName name) (.operatorOf _) => l.uniqueArity? name
  | _ => none

/-- The guard checks the number of operands that the other one implies, of whatever node. -/
def moreSpecificThan (l : Language) (a b : Guard) : Bool :=
  match a.operandCountCheck?, b.impliedArity? l with
  | some (_, count), some arity => count == arity
  | _, _ => false

def unrelatedTo (l : Language) (a b : Guard) : Bool :=
  a.isFree || b.isFree ||
    !(a.equals b || a.moreSpecificThan l b || b.moreSpecificThan l a)

end Guard

end Rulewright
