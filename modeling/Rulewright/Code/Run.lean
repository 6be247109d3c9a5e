import Rulewright.Code.Walk

/-!
# Running code

Code runs on a term. Definitions bind trails to terms, guards choose the bodies of branches, and a
return ends the run. A line of custom text fires: it is recorded, with `formula` as the name of the
matched term. What free guards decide is a parameter.

Nodes that are commented out do nothing, and so do custom lines that are comments.

What a run does from a node on depends on the node and on the bound terms alone. So a run that ends
meets no such state again below itself, also where the code leads back to a node, and the number of
states bounds the depth of every run that ends (`Code.stateBound`).
-/

namespace Rulewright

/-- The terms bound to trails. -/
abbrev Bindings := Table Trail Expr

/-- What a run did. -/
structure Outcome where
  /-- The code returned `true`. -/
  changed : Bool
  /-- The custom lines that were run. -/
  fired : List String
  bindings : Bindings

/-- The value of a side of an equation. -/
inductive GuardValue where
  | operator (name : String)
  | number (n : Nat)
  | flag (b : Bool)
  | double (value : Int)
  deriving DecidableEq

namespace Bindings

/-- The term at a trail given from its end, bound there or an operand of the term at its parent. -/
def nodeAtReverse (b : Bindings) : List Nat → Option Expr
  | [] => b.get? []
  | index :: above =>
    match b.get? (index :: above).reverse with
    | some e => some e
    | none => (nodeAtReverse b above).bind (·.operands[index]?)

/-- The term bound at a trail, or read from the term at its parent. -/
def nodeAt (b : Bindings) (t : Trail) : Option Expr :=
  b.nodeAtReverse t.reverse

/-- The value of the right side of a definition. -/
def bind (b : Bindings) : Binding → Option Expr
  | .operand parent index => (b.nodeAt parent).bind (·.operands[index]?)
  | .same trail => b.nodeAt trail
  | .constructed _ value => some value

def operatorAt (l : Language) (b : Bindings) (t : Trail) : Option String :=
  (b.nodeAt t).bind (·.operator? l)

def countIs (b : Bindings) (t : Trail) (count : Nat) : Bool :=
  match b.nodeAt t with
  | some e => e.operands.length == count
  | none => false

end Bindings

def Expr.literal? : Expr → Option Literal
  | .literal value => some value
  | _ => none

namespace Side

def value? (l : Language) (b : Bindings) : Side → Option GuardValue
  | .operatorOf t => (b.operatorAt l t).map .operator
  | .operandCountOf t => (b.nodeAt t).map fun e => .number e.operands.length
  | .isValueOf t => (b.nodeAt t).map fun e => .flag e.literal?.isSome
  | .valueOf t => ((b.nodeAt t).bind (·.literal?)).map fun v => .double v.double
  | .number n => some (.number n)
  | .operatorName name => some (.operator name)
  | .irregular => none

end Side

/-- Both terms are there and are equal. -/
def Bindings.equalAt (b : Bindings) (first second : Trail) : Bool :=
  match b.nodeAt first, b.nodeAt second with
  | some x, some y => x == y
  | _, _ => false

namespace Guard

/-- The guard holds of the bound terms. -/
def holds (l : Language) (free : String → Bool) (b : Bindings) : Guard → Bool
  | .equality left right =>
    match left.value? l b, right.value? l b with
    | some x, some y => x == y
    | _, _ => false
  | .value t literal =>
    match (b.nodeAt t).bind (·.literal?) with
    | some v => v.double == literal.double
    | none => false
  | .overloaded t operator count => b.operatorAt l t == some operator && b.countIs t count
  | .anyway c =>
    b.countIs c.countAt c.count && (b.operatorAt l c.first).isSome &&
      b.operatorAt l c.first == b.operatorAt l c.second
  | .structurallyEqual pairs => pairs.all fun p => b.equalAt p.1 p.2
  | .free text => free (withRoot text "formula")
  | .irregular => false

end Guard

namespace Code

/-- What a run has done so far. -/
structure Progress where
  fired : List String
  bindings : Bindings

/-- The custom line is itself a comment. -/
def isCommentLine (text : String) : Bool :=
  ['/', '/'].isPrefixOf text.toList

/-- The body that a branch chooses. -/
def choose (c : Code) (l : Language) (free : String → Bool) (bindings : Bindings) (b : Branch) :
    NodeId :=
  if b.guard.holds l free bindings then b.thenBody
  else
    match (b.elseIfs.filterMap c.branch?).find? fun inner => inner.guard.holds l free bindings with
    | some inner => inner.thenBody
    | none => b.elseBody

/-- Run the sequence from a node on, at most `n` steps deep. The first result is the value returned,
if there is a return. -/
def runFrom (c : Code) (l : Language) (free : String → Bool) :
    Nat → NodeId → Progress → Option Bool × Progress
  | 0, _, p => (none, p)
  | n + 1, id, p =>
    let (returned, p) :=
      if c.isCommentedOut id then (none, p)
      else
        match c.kind id with
        | .definition target binding _ =>
          match p.bindings.bind binding with
          | some e => (none, { p with bindings := p.bindings.insert target e })
          | none => (none, { p with bindings := p.bindings.erase target })
        | .ret value => (some value, p)
        | .branch b => runFrom c l free n (c.choose l free p.bindings b) p
        | .custom text =>
          if isCommentLine text then (none, p)
          else (none, { p with fired := p.fired ++ [withRoot text "formula"] })
        | .declaration _ | .noop | .placeholder => (none, p)
    match returned, c.next id with
    | some value, _ => (some value, p)
    | none, some k => runFrom c l free n k p
    | none, none => (none, p)

/-- The values that definitions construct, `none` for a definition that reads a bound term. -/
def definedValues (c : Code) : List (Option Expr) :=
  c.nodes.toList.filterMap fun node =>
    match node.kind with
    | .definition _ (.constructed _ value) _ => some (some value)
    | .definition _ _ _ => some none
    | _ => none

/-- At least the number of states of runs on a term. A state is a node, and at the root and at each
trail that is defined a bound term or none. Bound are the term itself, constructed values, and what
is reached from them through operands. -/
def stateBound (c : Code) (candidate : Expr) : Nat :=
  let defined := c.definedValues
  let terms := candidate.reach + Expr.reachAll (defined.filterMap id)
  c.size * Nat.pow (terms + 1) (defined.length + 1)

/-- Run the sequence from a node on, on a term. -/
def run (c : Code) (l : Language) (free : String → Bool) (id : NodeId) (candidate : Expr) :
    Outcome :=
  let start : Progress := { fired := [], bindings := Table.empty.insert Trail.root candidate }
  let (returned, p) := c.runFrom l free (c.stateBound candidate) id start
  { changed := returned.getD false, fired := p.fired, bindings := p.bindings }

end Code

end Rulewright
