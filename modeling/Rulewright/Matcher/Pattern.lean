import Rulewright.Code.Surgery
import Rulewright.Matcher.Construction

/-!
# Matchers of patterns

The matcher of a pattern node is a sequence that starts with a node doing nothing. It checks the
node with a guard, binds the operands inside of the guarded body, and goes on with the matchers of
the operands. The matcher of a later operand stands inside of those of the earlier ones: the first
operand whose matcher does something leaves a placeholder at its innermost point, and the next
matcher is put there.

A node with an optional operand has two forms. In the full form both operands are there. In the
short form there is one, and the optional operand is its default. Below the root the node may also
be missing altogether and the term at its trail be the other operand.
-/

namespace Rulewright.Matcher

structure Options where
  /-- Leave the check of the root to the caller, who has done it. -/
  skipRootGuard : Bool
  /-- Join a count of operands with the comparison of operators that depends on it. -/
  joinComparisons : Bool := true

/-- The matcher so far. -/
structure Progress where
  code : Code
  groups : Groups
  /-- The next matcher that does something gets a placeholder at its innermost point. -/
  deepest : Bool

abbrev Build := EStateM CompileError Progress

/-- Change the code and give a node of it. -/
def create (f : Code → NodeId × Code) : Build NodeId :=
  modifyGet fun p =>
    let (id, code) := f p.code
    (id, { p with code })

def edit (f : Code → Code) : Build Unit :=
  modify fun p => { p with code := f p.code }

def alloc (kind : NodeKind) : Build NodeId :=
  create (·.alloc kind)

def append (sequence fragment : NodeId) : Build Unit :=
  edit (·.append sequence fragment)

def lift {α : Type} : Except CompileError α → Build α
  | .ok a => return a
  | .error e => throw e

/-- What is checked at a pattern node. -/
inductive Shape where
  | literal (value : Literal)
  | var (name : String)
  | symbol (name : String)
  | anyway (group : GroupId)

/-- The guard of a node with this many operands. An operator that takes several counts is checked
together with the count. -/
def Shape.guard (l : Language) (trail : Trail) (count : Nat) : Shape → Guard
  | .literal value => .value trail value
  | .var name => .operatorIs trail name
  | .symbol name =>
    match l.declarationState name with
    | some .overloaded => .overloaded trail name count
    | _ => .operatorIs trail name
  | .anyway _ => .operandCountIs trail count

/-- The trail of the earlier node of the same group, if there is one. The node joins its group. -/
def Shape.enterGroup (trail : Trail) : Shape → Build (Option Trail)
  | .anyway group =>
    modifyGet fun p =>
      (p.groups.firstTrail? group, { p with groups := p.groups.pushTrail group trail })
  | _ => return none

/-- The optional one of exactly two operands: its position, pattern and default. -/
def optionalOperand? : List Expr → Option (Nat × Expr × Expr)
  | [a, b] =>
    match a.unwrap, b.unwrap with
    | .optional pattern default, _ => some (0, pattern, default)
    | _, .optional pattern default => some (1, pattern, default)
    | _, _ => none
  | _ => none

/-- A line that says which check the caller has done. -/
def impliedLine (guard : Guard) : NodeKind :=
  .custom ("// implied by dispatch: " ++ guard.text)

/-- Define the operands of a node in a sequence, the first one being number `index`. -/
def bindOperands (target : NodeId) (trail : Trail) (index : Nat) : Nat → Build Unit
  | 0 => return
  | count + 1 => do
    let definition ← alloc (.definition (trail.child index) (.operand trail index) true)
    append target definition
    bindOperands target trail (index + 1) count

/-- Check a node and bind its operands. `pending` is the trail of an earlier node whose operator
has to be the same. The result is the sequence that the matchers of the operands go to. -/
def matchPlain (o : Options) (trail : Trail) (guard : Guard) (pending : Option Trail)
    (count : Nat) (line : NodeId) : Build NodeId := do
  let target ←
    if o.skipRootGuard && trail.isEmpty && pending.isNone then do
      let implied ← alloc (impliedLine guard)
      append line implied
      pure line
    else do
      let body ← alloc .noop
      let check ← create (·.createIf guard (some body) none)
      let check ← match pending with
        | some first => do
          let wrapper ← create (·.sequence [check])
          create (·.createIf (.sameOperator first trail) (some wrapper) none)
        | none => pure check
      append line check
      pure body
  bindOperands target trail 0 count
  return target

/-- A sequence of assignments to two temporaries. -/
def assignBoth (first second : Trail × Binding) : Build NodeId := do
  let a ← alloc (.definition first.1 first.2 false)
  let b ← alloc (.definition second.1 second.2 false)
  create (·.sequence [a, b])

/-- Declare the temporaries of two operands. -/
def declareBoth (sequence : NodeId) (trail : Trail) : Build Unit := do
  let a ← alloc (.declaration (trail.child 0))
  append sequence a
  let b ← alloc (.declaration (trail.child 1))
  append sequence b

/-- The guard of a node with an optional operand that has this many operands. -/
def Shape.countGuard (trail : Trail) (pending : Option Trail) (count : Nat) (shape : Shape) :
    Except CompileError Guard :=
  match shape, pending with
  | .symbol name, _ => .ok (.overloaded trail name count)
  | _, some first => Guard.anyway? trail first trail count
  | _, none => .ok (.operandCountIs trail count)

/-- The operand counts of a root with an optional operand are one and two. -/
def takesOneOrTwo (l : Language) (name : String) : Bool :=
  match l.arities? name with
  | some counts => !counts.isEmpty && counts.all fun n => n == 1 || n == 2
  | none => false

/-- Bind both operands of a root with an optional operand. -/
def matchOptionalRoot (o : Options) (l : Language) (shape : Shape) (trail : Trail)
    (full short : NodeId) (line : NodeId) : Build NodeId := do
  match shape with
  | .symbol name =>
    if !takesOneOrTwo l name then throw (.unsupported (.optionalRootArity name))
    let guard := Guard.operatorIs trail name
    let sequence ←
      if o.skipRootGuard then do
        let implied ← alloc (impliedLine guard)
        append line implied
        pure line
      else do
        let inner ← alloc .noop
        let outer ← create (·.createIf guard (some inner) none)
        append line outer
        pure inner
    declareBoth sequence trail
    let choice ← create (·.createIf (.operandCountIs trail 2) (some full) (some short))
    append sequence choice
    return sequence
  | _ => throw (.unsupported .optionalAnywayRoot)

/-- Bind both operands of a node of which the one at `position` is optional. The result is the
sequence that the matcher of the other operand goes to. -/
def matchOptional (o : Options) (l : Language) (shape : Shape) (trail : Trail)
    (position : Nat) (pattern default : Expr) (pending : Option Trail) (line : NodeId) :
    Build NodeId := do
  match pattern.unwrap with
  | .metavar _ => pure ()
  | _ => throw (.unsupported .optionalPattern)
  let missing := trail.child position
  let other := trail.child (1 - position)
  let value := default.unwrap
  let code ← lift (value.groundCode l)
  let constructed := Binding.constructed code value
  let fullGuard ← lift (shape.countGuard trail pending 2)
  let shortGuard ← lift (shape.countGuard trail pending 1)
  let full ← assignBoth (trail.child 0, .operand trail 0) (trail.child 1, .operand trail 1)
  let short ← assignBoth (missing, constructed) (other, .operand trail 0)
  if trail.isEmpty then
    matchOptionalRoot o l shape trail full short line
  else do
    let absent ← assignBoth (missing, constructed) (other, .same trail)
    declareBoth line trail
    let choice ← create (·.createIf fullGuard (some full) (some absent))
    let _ ← create (·.addElseIf choice shortGuard (some short))
    append line choice
    return line

/-- The first node of a sequence that does something, if it is a branch. -/
def firstBranch? (c : Code) (sequence : NodeId) : Option (NodeId × Branch) :=
  (c.nextMeaningful? sequence).bind fun id => (c.branch? id).map fun b => (id, b)

/-- Join a count of operands at the start of a matcher with the comparison of operators at the
start of the matcher of an operand, if that comparison is about the counted node. The comparison
then needs no branch of its own. -/
def join (line rest : NodeId) : Build NodeId := do
  let c := (← get).code
  match firstBranch? c line, firstBranch? c rest with
  | some (countId, counting), some (_, pairing) =>
    match counting.guard.operandCountCheck?, pairing.guard.operatorPairing? with
    | some (countAt, count), some (first, second) =>
      if countAt = first || countAt = second then do
        let guard ← lift (Guard.anyway? countAt first second count)
        edit (·.setGuard countId guard)
        let joined ← alloc .noop
        edit (·.setPredecessor pairing.thenBody joined)
        return joined
      else return rest
    | _, _ => return rest
  | _, _ => return rest

/-- Put the matcher of an operand to its place. -/
def place (o : Options) (line target rest : NodeId) : Build Unit := do
  if (← get).code.isBlank rest then return
  let rest ← if o.joinComparisons then join line rest else pure rest
  match (← get).code.findPlaceholder? line with
  | some placeholder => edit (·.replace placeholder rest)
  | none => append target rest

/-- Leave a placeholder, if one is wanted. -/
def leavePlaceholder (target : NodeId) : Build Unit := do
  if (← get).deepest then
    let placeholder ← alloc .placeholder
    append target placeholder
    modify fun p => { p with deepest := false }

/-- Ask for a placeholder in the matcher of an operand, if the matcher before it has one. -/
def askPlaceholder (line : NodeId) : Build Unit :=
  modify fun p =>
    if !p.deepest && (p.code.findPlaceholder? line).isSome then { p with deepest := true } else p

/-- Check a node and bind its operands. The result is the sequence that the matchers of the
operands go to, and the position of an operand that has none. -/
def enter (o : Options) (l : Language) (shape : Shape) (trail : Trail) (operands : List Expr)
    (line : NodeId) : Build (NodeId × Option Nat) := do
  let pending ← shape.enterGroup trail
  match optionalOperand? operands with
  | some (position, pattern, default) =>
    let target ← matchOptional o l shape trail position pattern default pending line
    return (target, some position)
  | none =>
    let count := operands.length
    let target ← matchPlain o trail (shape.guard l trail count) pending count line
    return (target, none)

mutual

/-- The matcher of a pattern at a trail. -/
def matchPattern (o : Options) (l : Language) : Expr → Trail → Build NodeId
  | .compound inner, trail => matchPattern o l inner trail
  | .metavar _, _ => alloc .noop
  | .optional _ _, _ => do
    let _ ← alloc .noop
    throw (.unsupported .optionalPlace)
  | .literal value, trail => do
    let line ← alloc .noop
    let (target, _) ← enter o l (.literal value) trail [] line
    leavePlaceholder target
    return line
  | .var name, trail => do
    let line ← alloc .noop
    let (target, _) ← enter o l (.var name) trail [] line
    leavePlaceholder target
    return line
  | .app symbol operands, trail => do
    let line ← alloc .noop
    let (target, skipped) ← enter o l (.symbol (l.name symbol)) trail operands line
    matchOperands o l line target skipped trail 0 operands
    leavePlaceholder target
    return line
  | .anyway group operands, trail => do
    let line ← alloc .noop
    let (target, skipped) ← enter o l (.anyway group) trail operands line
    matchOperands o l line target skipped trail 0 operands
    leavePlaceholder target
    return line

/-- The matchers of operands from number `index` on. -/
def matchOperands (o : Options) (l : Language) (line target : NodeId) (skipped : Option Nat)
    (trail : Trail) (index : Nat) : List Expr → Build Unit
  | [] => return
  | operand :: rest => do
    if skipped ≠ some index then
      askPlaceholder line
      let code ← matchPattern o l operand (trail.child index)
      place o line target code
    matchOperands o l line target skipped trail (index + 1) rest

end

end Rulewright.Matcher
