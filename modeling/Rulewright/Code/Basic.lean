import Rulewright.Guard

/-!
# Code

Matcher code is a store of nodes that refer to each other by number. A node starts a sequence, or
follows another node, or heads one of the bodies of a branch; `link` says which. A sequence goes
on through `next`. The three kinds of reference repeat each other (a node after `p` is what `p`
has as its next), and every operation that moves nodes keeps them in step.

Nodes are only ever added, so a number stays the name of its node. A number that is not in the
store has no next node and no bodies.
-/

namespace Rulewright

abbrev NodeId := Nat

/-- The body of a branch that a node heads. -/
inductive Slot where
  | thenBody
  | elseBody
  | elseIf (index : Nat)
  deriving DecidableEq

/-- Where a node stands. -/
inductive Link where
  | root
  | after (predecessor : NodeId)
  | childOf (parent : NodeId) (slot : Slot)
  deriving DecidableEq

/-- The right side of a definition. -/
inductive Binding where
  | operand (parent : Trail) (index : Nat)
  /-- The node at another trail. -/
  | same (trail : Trail)
  /-- A new term, and the code that builds it. -/
  | constructed (code : String) (value : Expr)
  deriving DecidableEq

def Binding.text : Binding → String
  | .operand parent index => parent.temporary ++ ".operand(" ++ toString index ++ ")"
  | .same trail => trail.temporary ++ ".clone()"
  | .constructed code _ => code

/-- A guard, the bodies it chooses from, and the branches that stand for `else if`. -/
structure Branch where
  guard : Guard
  thenBody : NodeId
  elseBody : NodeId
  elseIfs : List NodeId
  deriving DecidableEq

namespace Branch

/-- The bodies with their places. -/
def slots (b : Branch) : List (Slot × NodeId) :=
  (.thenBody, b.thenBody) :: (.elseBody, b.elseBody) ::
    b.elseIfs.mapIdx fun index node => (.elseIf index, node)

/-- The bodies in the order of their places. -/
def bodies (b : Branch) : List NodeId :=
  b.thenBody :: b.elseBody :: b.elseIfs

def slot? (b : Branch) : Slot → Option NodeId
  | .thenBody => some b.thenBody
  | .elseBody => some b.elseBody
  | .elseIf index => b.elseIfs[index]?

def setSlot (b : Branch) (slot : Slot) (node : NodeId) : Branch :=
  match slot with
  | .thenBody => { b with thenBody := node }
  | .elseBody => { b with elseBody := node }
  | .elseIf index => { b with elseIfs := b.elseIfs.set index node }

end Branch

inductive NodeKind where
  | declaration (target : Trail)
  | definition (target : Trail) (binding : Binding) (declares : Bool)
  | ret (value : Bool)
  | branch (b : Branch)
  | custom (text : String)
  | noop
  /-- The place where code is put in later. -/
  | placeholder
  deriving DecidableEq

namespace NodeKind

/-- The text of a node without its bodies. -/
def content : NodeKind → String
  | .declaration target => "let mut " ++ target.temporary ++ ": TermPtr;"
  | .definition target binding true =>
    "let " ++ target.temporary ++ ": TermPtr = " ++ binding.text ++ ";"
  | .definition target binding false => target.temporary ++ " = " ++ binding.text ++ ";"
  | .ret true => "return true;"
  | .ret false => "return false;"
  | .branch b => b.guard.text
  | .custom text => text
  | .noop | .placeholder => ""

/-- The two kinds are of one sort, whatever they hold. -/
def sameSort : NodeKind → NodeKind → Bool
  | .declaration _, .declaration _ | .definition _ _ _, .definition _ _ _ | .ret _, .ret _
  | .branch _, .branch _ | .custom _, .custom _ | .noop, .noop
  | .placeholder, .placeholder => true
  | _, _ => false

/-- The node does something. -/
def isMeaningful : NodeKind → Bool
  | .noop | .placeholder => false
  | _ => true

def isPlaceholder : NodeKind → Bool
  | .placeholder => true
  | _ => false

/-- The temporary that a definition introduces. -/
def declaredTarget? : NodeKind → Option Trail
  | .definition target _ true => some target
  | _ => none

def branch? : NodeKind → Option Branch
  | .branch b => some b
  | _ => none

end NodeKind

structure Node where
  kind : NodeKind
  comment : Option String
  /-- The node is written as a comment and does nothing. -/
  commentedOut : Bool
  link : Link
  next : Option NodeId
  deriving DecidableEq

/-- A new node that starts a sequence of its own. -/
def Node.fresh (kind : NodeKind) : Node :=
  { kind, comment := none, commentedOut := false, link := .root, next := none }

structure Code where
  nodes : Array Node
  deriving DecidableEq

namespace Code

def empty : Code := ⟨#[]⟩

instance : Inhabited Code := ⟨empty⟩

/-- The number of nodes, reachable or not. It is the number of the next node too. -/
def size (c : Code) : Nat := c.nodes.size

def node? (c : Code) (id : NodeId) : Option Node := c.nodes[id]?

/-- The kind of a node; a number without a node does nothing. -/
def kind (c : Code) (id : NodeId) : NodeKind :=
  match c.node? id with
  | some n => n.kind
  | none => .noop

def link (c : Code) (id : NodeId) : Link :=
  match c.node? id with
  | some n => n.link
  | none => .root

def next (c : Code) (id : NodeId) : Option NodeId :=
  (c.node? id).bind (·.next)

def isCommentedOut (c : Code) (id : NodeId) : Bool :=
  match c.node? id with
  | some n => n.commentedOut
  | none => false

def comment? (c : Code) (id : NodeId) : Option String :=
  (c.node? id).bind (·.comment)

def branch? (c : Code) (id : NodeId) : Option Branch :=
  (c.kind id).branch?

def content (c : Code) (id : NodeId) : String :=
  (c.kind id).content

/-- The bodies of a node. -/
def bodies (c : Code) (id : NodeId) : List NodeId :=
  match c.branch? id with
  | some b => b.bodies
  | none => []

/-- The body that a node holds in a slot. -/
def slot? (c : Code) (id : NodeId) (slot : Slot) : Option NodeId :=
  (c.branch? id).bind (·.slot? slot)

/-- Add a node. Its number is the size of the store before. -/
def push (c : Code) (n : Node) : Code := ⟨c.nodes.push n⟩

/-- Add a new node of a kind, and give its number. -/
def alloc (c : Code) (kind : NodeKind) : NodeId × Code :=
  (c.size, c.push (.fresh kind))

def modify (c : Code) (id : NodeId) (f : Node → Node) : Code :=
  ⟨c.nodes.modify id f⟩

def setLink (c : Code) (id : NodeId) (link : Link) : Code :=
  c.modify id fun n => { n with link }

def setNext (c : Code) (id : NodeId) (next : Option NodeId) : Code :=
  c.modify id fun n => { n with next }

def setKind (c : Code) (id : NodeId) (kind : NodeKind) : Code :=
  c.modify id fun n => { n with kind }

/-- Replace the guard of a branch. -/
def setGuard (c : Code) (id : NodeId) (guard : Guard) : Code :=
  match c.kind id with
  | .branch b => c.setKind id (.branch { b with guard })
  | _ => c

def setComment (c : Code) (id : NodeId) (comment : String) : Code :=
  c.modify id fun n => { n with comment := some comment }

/-- Keep a node as a comment only. -/
def commentOut (c : Code) (id : NodeId) (comment : String) : Code :=
  c.modify id fun n => { n with commentedOut := true, comment := some comment }

/-- Turn a definition into an assignment, or back. -/
def setDeclares (c : Code) (id : NodeId) (declares : Bool) : Code :=
  match c.kind id with
  | .definition target binding _ => c.setKind id (.definition target binding declares)
  | _ => c

/-- Make a node do nothing, in its place. -/
def neutralize (c : Code) (id : NodeId) : Code :=
  c.setKind id .noop

end Code

end Rulewright
