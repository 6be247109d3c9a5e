import Rulewright.Code.Walk

/-!
# Building and moving code

Every operation keeps links, next nodes and bodies in step. A node that is moved is first taken
from its place; the body of a branch that loses its head gets a new node that does nothing. What a
moved node displaces starts a sequence of its own.
-/

namespace Rulewright.Code

/-- Put a node into a slot, if there is such a slot. -/
def fillSlot (c : Code) (parent : NodeId) (slot : Slot) (node : NodeId) : Code :=
  match c.kind parent with
  | .branch b =>
    match b.slot? slot with
    | some _ =>
      (c.setKind parent (.branch (b.setSlot slot node))).setLink node (.childOf parent slot)
    | none => c
  | _ => c

/-- Take a node from its place. -/
def detach (c : Code) (node : NodeId) : Code :=
  match c.link node with
  | .root => c
  | .after p => (c.setNext p none).setLink node .root
  | .childOf p slot =>
    let (filler, c) := c.alloc .noop
    (c.fillSlot p slot filler).setLink node .root

/-- Make `node` the next node of `predecessor`. -/
def setPredecessor (c : Code) (node predecessor : NodeId) : Code :=
  let c := c.detach node
  let displaced := c.next predecessor
  let c := c.setNext predecessor (some node)
  let c := match displaced with
    | some d => c.setLink d .root
    | none => c
  c.setLink node (.after predecessor)

/-- Make `node` head a body of `parent`. -/
def setParent (c : Code) (node parent : NodeId) (slot : Slot) : Code :=
  let c := c.detach node
  match c.slot? parent slot with
  | some displaced =>
    let c := c.fillSlot parent slot node
    if displaced = node then c else c.setLink displaced .root
  | none => c

/-- Put a sequence in the place of `node`, which then follows it. -/
def insertBefore (c : Code) (node fragment : NodeId) : Code :=
  let link := c.link node
  let c := c.detach fragment
  let c := c.setLink node .root
  let c := match link with
    | .root => c
    | .after p => (c.setNext p (some fragment)).setLink fragment link
    | .childOf p slot => c.fillSlot p slot fragment
  let last := c.last fragment
  (c.setNext last (some node)).setLink node (.after last)

/-- Put a sequence in the place of `node`. What followed the node follows the sequence. -/
def replace (c : Code) (node fragment : NodeId) : Code :=
  let successor := c.next node
  let c := c.setNext node none
  let c := c.insertBefore node fragment
  let c := c.detach node
  match successor with
  | some s =>
    let last := c.last fragment
    (c.setNext last (some s)).setLink s (.after last)
  | none => c

/-- Where a sequence is attached to the end of another one. -/
inductive AppendMode where
  | plain
  | replaceLast
  | beforeLast
  deriving DecidableEq

def attach (c : Code) (sequence fragment : NodeId) (mode : AppendMode) : Code :=
  let last := c.last sequence
  match mode with
  | .plain => c.setPredecessor fragment last
  | .replaceLast => c.replace last fragment
  | .beforeLast => c.insertBefore last fragment

/-- Attach a sequence to the end of another one. -/
def append (c : Code) (sequence fragment : NodeId) : Code :=
  c.attach sequence fragment .plain

/-- A node that does nothing, followed by the given ones. -/
def sequence (c : Code) (items : List NodeId) : NodeId × Code :=
  let (head, c) := c.alloc .noop
  (head, items.foldl (fun c item => c.append head item) c)

/-- The given body, or a new one that does nothing. -/
def bodyOrNoop (c : Code) : Option NodeId → NodeId × Code
  | some body => (body, c)
  | none => c.alloc .noop

/-- A branch with the given bodies. -/
def createIf (c : Code) (guard : Guard) (thenBody elseBody : Option NodeId) : NodeId × Code :=
  let (t, c) := c.bodyOrNoop thenBody
  let (e, c) := c.bodyOrNoop elseBody
  let c := (c.detach t).detach e
  let (id, c) := c.alloc (.branch { guard, thenBody := t, elseBody := e, elseIfs := [] })
  (id, (c.setLink t (.childOf id .thenBody)).setLink e (.childOf id .elseBody))

/-- Add an `else if` to a branch. Nothing is added to a node that is not a branch. -/
def addElseIf (c : Code) (id : NodeId) (guard : Guard) (body : Option NodeId) : NodeId × Code :=
  let (elseIf, c) := c.createIf guard body none
  match c.kind id with
  | .branch b =>
    let c := c.setKind id (.branch { b with elseIfs := b.elseIfs ++ [elseIf] })
    (elseIf, c.setLink elseIf (.childOf id (.elseIf b.elseIfs.length)))
  | _ => (elseIf, c)

end Rulewright.Code
