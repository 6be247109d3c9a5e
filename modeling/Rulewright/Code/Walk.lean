import Rulewright.Code.Basic

/-!
# Walks through code

A walk goes down from a node through its bodies and its next nodes. A walk that ends never comes
back to a node that it is below of, so the size of the store bounds the paths of every walk: `chain`
along a sequence, `descendants` through all that is reachable, `ancestors` upwards through the
links. The search `findPlaceholder?` looks no further than it has to.
-/

namespace Rulewright.Code

variable (c : Code)

/-- At most `n` nodes from a node on along its sequence. -/
def chainFrom : Nat → NodeId → List NodeId
  | 0, _ => []
  | n + 1, id =>
    id :: match c.next id with
      | some k => chainFrom n k
      | none => []

/-- The nodes of a sequence from a node on. -/
def chain (id : NodeId) : List NodeId :=
  c.chainFrom c.size id

/-- The last node of a sequence. -/
def last (id : NodeId) : NodeId :=
  (c.chain id).getLastD id

/-- The first node from a node on that does something. -/
def nextMeaningful? (id : NodeId) : Option NodeId :=
  (c.chain id).find? fun k => (c.kind k).isMeaningful

/-- The sequence does nothing. -/
def isBlank (id : NodeId) : Bool :=
  (c.nextMeaningful? id).isNone

/-- The last branch of a sequence, bodies not looked into. -/
def lastBranch? (id : NodeId) : Option NodeId :=
  (c.chain id).reverse.find? fun k => (c.branch? k).isSome

/-- What is reachable from a node in paths of at most `n` nodes. -/
def descendantsFrom : Nat → NodeId → List NodeId
  | 0, _ => []
  | n + 1, id =>
    (c.bodies id).flatMap (descendantsFrom n) ++
      id :: match c.next id with
        | some k => descendantsFrom n k
        | none => []

/-- The nodes reachable from a node: the bodies of a branch before it, and the rest of the sequence
after it. -/
def descendants (id : NodeId) : List NodeId :=
  c.descendantsFrom c.size id

/-- The first placeholder in paths of at most `n` nodes from a node on. -/
def findPlaceholderFrom : Nat → NodeId → Option NodeId
  | 0, _ => none
  | n + 1, id =>
    match (c.bodies id).findSome? (findPlaceholderFrom n) with
    | some found => some found
    | none =>
      if (c.kind id).isPlaceholder then some id
      else
        match c.next id with
        | some k => findPlaceholderFrom n k
        | none => none

/-- The first placeholder among the nodes reachable from a node. -/
def findPlaceholder? (id : NodeId) : Option NodeId :=
  c.findPlaceholderFrom c.size id

theorem findPlaceholderFrom_eq_find? (n : Nat) (id : NodeId) :
    c.findPlaceholderFrom n id =
      (c.descendantsFrom n id).find? fun k => (c.kind k).isPlaceholder := by
  induction n generalizing id with
  | zero => rfl
  | succ n ih =>
    have bodies : (c.bodies id).findSome? (c.findPlaceholderFrom n) =
        ((c.bodies id).flatMap (c.descendantsFrom n)).find? fun k => (c.kind k).isPlaceholder := by
      rw [List.find?_flatMap]
      exact congrArg (fun f => List.findSome? f (c.bodies id)) (funext ih)
    rw [findPlaceholderFrom, descendantsFrom, List.find?_append, List.find?_cons, bodies]
    cases ((c.bodies id).flatMap (c.descendantsFrom n)).find? fun k => (c.kind k).isPlaceholder with
    | some found => rfl
    | none =>
      cases (c.kind id).isPlaceholder with
      | true => rfl
      | false =>
        cases c.next id with
        | some k => simpa using ih k
        | none => rfl

/-- The search finds the first placeholder of the whole walk. -/
theorem findPlaceholder?_eq_find? (id : NodeId) :
    c.findPlaceholder? id = (c.descendants id).find? fun k => (c.kind k).isPlaceholder :=
  c.findPlaceholderFrom_eq_find? c.size id

/-- The node before or around a node. -/
def up? (id : NodeId) : Option NodeId :=
  match c.link id with
  | .root => none
  | .after p => some p
  | .childOf p _ => some p

def ancestorsFrom : Nat → NodeId → List NodeId
  | 0, _ => []
  | n + 1, id =>
    match c.up? id with
    | some p => p :: ancestorsFrom n p
    | none => []

/-- The nodes before a node, then the branch around it, then the nodes before that, and so on. -/
def ancestors (id : NodeId) : List NodeId :=
  c.ancestorsFrom c.size id

end Rulewright.Code
