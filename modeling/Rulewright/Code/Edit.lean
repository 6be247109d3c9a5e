import Rulewright.Code.Copy

/-!
# Edits

An edit is one operation on code as a value, so that a list of edits is a history of code. Edits
name nodes by number, and an edit that names a node the code does not have at that moment is a
fault.
-/

namespace Rulewright

/-- Why an edit is refused. -/
inductive EditFault where
  | missingNode (id : NodeId)
  /-- An `else if` for a node that is not a branch. -/
  | notABranch (id : NodeId)
  deriving DecidableEq

inductive Edit where
  | create (kind : NodeKind)
  | sequence (items : List NodeId)
  | createIf (guard : Guard) (thenBody elseBody : Option NodeId)
  | addElseIf (node : NodeId) (guard : Guard) (body : Option NodeId)
  | deepCopy (node : NodeId)
  | setPredecessor (node predecessor : NodeId)
  | setParent (node parent : NodeId) (slot : Slot)
  | attach (sequence fragment : NodeId) (mode : Code.AppendMode)
  | replace (node fragment : NodeId)
  | insertBefore (node fragment : NodeId)
  | neutralize (node : NodeId)
  | setGuard (node : NodeId) (guard : Guard)
  | setComment (node : NodeId) (comment : String)
  | commentOut (node : NodeId) (comment : String)
  | setDeclares (node : NodeId) (declares : Bool)

namespace Code

/-- The code has this node. -/
def require (c : Code) (id : NodeId) : Except EditFault Unit :=
  if id < c.size then .ok () else .error (.missingNode id)

/-- Append each item to a sequence. -/
def appendEach (head : NodeId) (c : Code) : List NodeId → Except EditFault Code
  | [] => .ok c
  | item :: rest => do
    c.require item
    appendEach head (c.append head item) rest

/-- The bodies that a new branch is to get are there when it gets them. -/
def requireBodies (c : Code) (thenBody elseBody : Option NodeId) : Except EditFault Unit := do
  let (t, c) := c.bodyOrNoop thenBody
  let (e, c) := c.bodyOrNoop elseBody
  c.require t
  (c.detach t).require e

/-- Do an edit. The number is that of the node it makes, if it makes one. -/
def perform (c : Code) : Edit → Except EditFault (Option NodeId × Code)
  | .create kind =>
    let (id, c) := c.alloc kind
    return (some id, c)
  | .sequence items => do
    let (head, c) := c.alloc .noop
    return (some head, ← appendEach head c items)
  | .createIf guard thenBody elseBody => do
    c.requireBodies thenBody elseBody
    let (id, c) := c.createIf guard thenBody elseBody
    return (some id, c)
  | .addElseIf node guard body => do
    c.requireBodies body none
    let after := (c.createIf guard body none).2
    after.require node
    if (after.branch? node).isNone then throw (.notABranch node)
    let (id, c) := c.addElseIf node guard body
    return (some id, c)
  | .deepCopy node => do
    c.require node
    let (id, c) := c.deepCopy node
    return (some id, c)
  | .setPredecessor node predecessor => do
    c.require node
    (c.detach node).require predecessor
    return (none, c.setPredecessor node predecessor)
  | .setParent node parent slot => do
    c.require node
    (c.detach node).require parent
    return (none, c.setParent node parent slot)
  | .attach sequence fragment mode => do
    c.require sequence
    c.require fragment
    return (none, c.attach sequence fragment mode)
  | .replace node fragment => do
    c.require node
    c.require fragment
    return (none, c.replace node fragment)
  | .insertBefore node fragment => do
    c.require node
    c.require fragment
    return (none, c.insertBefore node fragment)
  | .neutralize node => do
    c.require node
    return (none, c.neutralize node)
  | .setGuard node guard => do
    c.require node
    return (none, c.setGuard node guard)
  | .setComment node comment => do
    c.require node
    return (none, c.setComment node comment)
  | .commentOut node comment => do
    c.require node
    return (none, c.commentOut node comment)
  | .setDeclares node declares => do
    c.require node
    return (none, c.setDeclares node declares)

/-- Do edits one after the other. -/
def performAll (c : Code) : List Edit → Except EditFault Code
  | [] => .ok c
  | e :: rest => do
    let (_, c) ← c.perform e
    c.performAll rest

end Code

end Rulewright
