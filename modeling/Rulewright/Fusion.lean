import Rulewright.Code.Copy

/-!
# Fusing matchers

Matchers of several rules are fused into one decision tree. The last branches of two sequences are
compared. Branches with one guard are shared and their bodies fused; a guard that is more specific
takes the whole other matcher from its branch on into its body; otherwise the other matcher goes to
the `else` body. Where a sequence has no branch, a copy of the other one is appended.

Afterwards definitions that repeat one before or around them are commented out, and definitions of
declared temporaries become assignments.
-/

namespace Rulewright.Code

/-- Fuse `other` into `mine`, going down at most `n` bodies. -/
def mergeFrom (l : Language) : Nat → Code → NodeId → NodeId → Code
  | 0, c, _, _ => c
  | n + 1, c, mine, other =>
    match c.lastBranch? mine, c.lastBranch? other with
    | none, none => c
    | some _, none => c
    | none, some _ =>
      let (copy, c) := c.deepCopy other
      c.append mine copy
    | some lastMine, some lastOther =>
      match c.branch? lastMine, c.branch? lastOther with
      | some ours, some theirs =>
        if ours.guard.equals theirs.guard then mergeFrom l n c ours.thenBody theirs.thenBody
        else if ours.guard.moreSpecificThan l theirs.guard then
          mergeFrom l n c ours.thenBody lastOther
        else mergeFrom l n c ours.elseBody other
      | _, _ => c

/-- Fuse the matcher at `other` into the one at `mine`, and leave `other` as it is. The way down
meets no pair of nodes twice, so the number of pairs bounds it. -/
def merge (l : Language) (c : Code) (mine other : NodeId) : Code :=
  mergeFrom l (c.size * c.size + 1) c mine other

/-- The note on a definition that is commented out. -/
def repeatedNote : String := "Re-declaration and/or re-initialization."

/-- The note on a definition that became an assignment. -/
def assignedNote : String := "Re-initialization."

/-- The node introduces or assigns a temporary. -/
def isDefinition (c : Code) (id : NodeId) : Bool :=
  match c.kind id with
  | .declaration _ | .definition _ _ _ => true
  | _ => false

/-- Compare a definition with a node before or around it. -/
def reviseAgainst (node : NodeId) (c : Code) (ancestor : NodeId) : Code :=
  if c.isCommentedOut node then c
  else if c.content ancestor == c.content node then c.commentOut node repeatedNote
  else
    match c.kind ancestor with
    | .declaration declared =>
      if (c.kind node).declaredTarget? = some declared then
        (c.setComment node assignedNote).setDeclares node false
      else c
    | _ => c

/-- Revise a definition, looking at the nodes before and around it, nearest first. -/
def revise (c : Code) (node : NodeId) : Code :=
  if c.isDefinition node then (c.ancestors node).foldl (reviseAgainst node) c else c

/-- Comment out what repeats a definition in scope, and assign to declared temporaries. -/
def eliminateRedundancy (c : Code) (head : NodeId) : Code :=
  (c.descendants head).foldl revise c

end Rulewright.Code
