import Rulewright.Code.Walk

/-!
# Integrity of code

The check looks at each reachable node and its neighbours: a node that names a parent is held by
it, the bodies of a branch name it, and the next node of a node names it.
-/

namespace Rulewright

inductive IntegrityViolation where
  /-- The node names a parent that does not hold it there. -/
  | danglingParent (node parent : NodeId)
  /-- A body of a branch does not name it. -/
  | orphanedBody (branch body : NodeId)
  /-- The next node of a node does not name it. -/
  | brokenSequence (node successor : NodeId)
  deriving DecidableEq

def IntegrityViolation.message : IntegrityViolation → String
  | .danglingParent node parent =>
    "node " ++ toString node ++ " names " ++ toString parent ++
      " as parent, which does not own it"
  | .orphanedBody branch body =>
    "body " ++ toString body ++ " of If " ++ toString branch ++ " does not name it as parent"
  | .brokenSequence node successor =>
    "successor " ++ toString successor ++ " of " ++ toString node ++
      " does not name it as predecessor"

namespace Code

variable (c : Code)

def parentViolations (node : NodeId) : List IntegrityViolation :=
  match c.link node with
  | .childOf parent slot =>
    if c.slot? parent slot = some node then [] else [.danglingParent node parent]
  | _ => []

def bodyViolations (node : NodeId) : List IntegrityViolation :=
  match c.branch? node with
  | some b =>
    b.slots.filterMap fun held =>
      if c.link held.2 = .childOf node held.1 then none else some (.orphanedBody node held.2)
  | none => []

def sequenceViolations (node : NodeId) : List IntegrityViolation :=
  match c.next node with
  | some successor =>
    if c.link successor = .after node then [] else [.brokenSequence node successor]
  | none => []

/-- What is wrong with the links of a node and its neighbours. -/
def nodeViolations (node : NodeId) : List IntegrityViolation :=
  c.parentViolations node ++ c.bodyViolations node ++ c.sequenceViolations node

/-- What is wrong with the nodes reachable from a node. -/
def checkIntegrity (id : NodeId) : List IntegrityViolation :=
  (c.descendants id).flatMap c.nodeViolations

end Code

end Rulewright
