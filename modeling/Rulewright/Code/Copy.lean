import Rulewright.Code.Surgery

/-!
# Copies and structural equality
-/

namespace Rulewright.Code

/-- Name the holder of each body in the body's link. -/
def linkBodies (c : Code) (id : NodeId) (b : Branch) : Code :=
  b.slots.foldl (fun c held => c.setLink held.2 (.childOf id held.1)) c

/-- Copy each sequence of a list, in order. -/
def copyEach (copy : Code → NodeId → NodeId × Code) (c : Code) :
    List NodeId → List NodeId × Code
  | [] => ([], c)
  | id :: rest =>
    let (head, c) := copy c id
    let (heads, c) := copyEach copy c rest
    (head :: heads, c)

/-- Copy one node, its bodies first, with the given way to copy a body. -/
def copyNode (copy : Code → NodeId → NodeId × Code) (c : Code) (id : NodeId) : NodeId × Code :=
  match c.node? id with
  | none => c.alloc .noop
  | some n =>
    match n.kind with
    | .branch b =>
      let (thenBody, c) := copy c b.thenBody
      let (elseBody, c) := copy c b.elseBody
      let (elseIfs, c) := copyEach copy c b.elseIfs
      let b := { b with thenBody, elseBody, elseIfs }
      let id := c.size
      let c := c.push { Node.fresh (.branch b) with
        comment := n.comment, commentedOut := n.commentedOut }
      (id, c.linkBodies id b)
    | kind =>
      (c.size, c.push { Node.fresh kind with
        comment := n.comment, commentedOut := n.commentedOut })

/-- Copy a sequence in which paths have at most `n` nodes. -/
def copyFrom : Nat → Code → NodeId → NodeId × Code
  | 0, c, _ => c.alloc .noop
  | n + 1, c, id =>
    let (head, c) := c.copyNode (copyFrom n) id
    match c.next id with
    | some k =>
      let (rest, c) := copyFrom n c k
      (head, c.setPredecessor rest head)
    | none => (head, c)

/-- Copy the sequence from a node on, bodies included. -/
def deepCopy (c : Code) (id : NodeId) : NodeId × Code :=
  copyFrom c.size c id

/-- The two nodes agree, their bodies and what follows them apart. -/
def sameNode (c : Code) (a b : NodeId) : Bool :=
  (c.kind a).sameSort (c.kind b) && c.comment? a == c.comment? b &&
    c.isCommentedOut a == c.isCommentedOut b && c.content a == c.content b

/-- Compare the sequences from two nodes on in paths of at most `n` nodes. -/
def sameFrom (c : Code) : Nat → NodeId → NodeId → Bool
  | 0, _, _ => false
  | n + 1, a, b =>
    c.sameNode a b &&
    (c.bodies a).length == (c.bodies b).length &&
    ((c.bodies a).zip (c.bodies b)).all (fun p => sameFrom c n p.1 p.2) &&
    match c.next a, c.next b with
    | some a, some b => sameFrom c n a b
    | none, none => true
    | _, _ => false

/-- The sequences from two nodes on are the same code, bodies included. A comparison that ends never
meets a pair of nodes below itself, so the number of pairs bounds its paths. -/
def structurallyEqual (c : Code) (a b : NodeId) : Bool :=
  c.sameFrom (c.size * c.size) a b

end Rulewright.Code
