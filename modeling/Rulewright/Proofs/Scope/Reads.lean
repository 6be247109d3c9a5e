import Rulewright.Code.Walk
import Rulewright.Proofs.Replacement.Writing

/-!
# What nodes read

Guards, definitions and lines use the temporaries of trails. A node that a guard reads from its
parent needs the temporary of the parent. The texts of free guards and of replacements are read back
as calls on constructions. Nodes that are comments use nothing.

* `Guard.Within`, `Binding.Within`, `NodeKind.Within`: the temporaries that are used are among the
  given ones.
* `Code.InScope`: a temporary is introduced before or around a node.
* `Code.Ready`: a temporary is bound on every way to a node.
-/

namespace Rulewright

/-- The trail whose temporary is used where the node at a trail is read from its parent. -/
def Trail.holder (t : Trail) : Trail :=
  match t.split? with
  | none => root
  | some (parent, _) => parent

theorem Trail.holder_child (t : Trail) (i : Nat) : (t.child i).holder = t := by
  simp [holder, split?, child]

/-! ### Guards -/

def Side.trails : Side → List Trail
  | .operatorOf t | .operandCountOf t | .isValueOf t | .valueOf t => [t]
  | .number _ | .operatorName _ | .irregular => []

/-- The counted node is read from its temporary, the other one from its parent. -/
def AnywayComparison.trails (c : AnywayComparison) : List Trail :=
  [c.countAt, if c.countAt = c.first then c.second.holder else c.first.holder]

namespace Guard

/-- The trails whose temporaries a guard uses that is not free. -/
def trails : Guard → List Trail
  | .equality left right => left.trails ++ right.trails
  | .value t _ | .overloaded t _ _ => [t]
  | .anyway c => c.trails
  | .structurallyEqual pairs => pairs.flatMap fun p => [p.1, p.2]
  | .free _ | .irregular => []

/-- The temporaries that the guard uses are those of trails with the property. A free guard makes
all checks of one of the lists. -/
def Within (l : Language) (checks : List (List CheckName)) (S : Trail → Prop) : Guard → Prop
  | .free text => ∃ calls : List CheckCall, calls.map (·.check) ∈ checks ∧
      text = " && ".intercalate (calls.map CheckCall.text) ∧ ∀ c ∈ calls, c.subject.Within l S
  | g => ∀ t ∈ g.trails, S t

variable {l : Language} {checks checks' : List (List CheckName)} {S S' : Trail → Prop} {g : Guard}

theorem within_iff (h : g.isFree = false) : g.Within l checks S ↔ ∀ t ∈ g.trails, S t := by
  cases g with
  | free text => cases h
  | _ => exact Iff.rfl

theorem Within.mono (hS : ∀ t, S t → S' t) (h : g.Within l checks S) : g.Within l checks S' := by
  cases g with
  | free text =>
    obtain ⟨calls, hchecks, htext, hcalls⟩ := h
    exact ⟨calls, hchecks, htext, fun c hc => Construction.Within.mono hS _ (hcalls c hc)⟩
  | _ => exact fun t ht => hS t (h t ht)

theorem Within.of_subset (hsub : checks ⊆ checks') (h : g.Within l checks S) :
    g.Within l checks' S := by
  cases g with
  | free text =>
    obtain ⟨calls, hchecks, h⟩ := h
    exact ⟨calls, hsub hchecks, h⟩
  | _ => exact h

end Guard

/-! ### Definitions and lines -/

/-- The temporaries that the right side of a definition uses are those of trails with the property.
-/
def Binding.Within (l : Language) (S : Trail → Prop) : Binding → Prop
  | .operand parent _ => S parent
  | .same t => S t
  | .constructed code _ => ∃ k : Construction, code = k.text ∧ k.Within l S

theorem Binding.Within.mono {l : Language} {S S' : Trail → Prop} (hS : ∀ t, S t → S' t)
    {β : Binding} (h : β.Within l S) : β.Within l S' := by
  cases β with
  | operand parent index => exact hS parent h
  | same t => exact hS t h
  | constructed code value =>
    obtain ⟨k, htext, hk⟩ := h
    exact ⟨k, htext, Construction.Within.mono hS k hk⟩

/-- The line that replaces the matched term by what is constructed. -/
def Construction.replaceLine (k : Construction) : String :=
  Trail.rootMark ++ ".replace(" ++ k.text ++ ");"

/-- The temporaries that the node uses, its bodies apart, are those of trails with the first
property, and the temporary that it assigns without introducing it is one of the second. -/
def NodeKind.Within (l : Language) (checks : List (List CheckName)) (reads assigns : Trail → Prop) :
    NodeKind → Prop
  | .definition target β declares => β.Within l reads ∧ (declares = false → assigns target)
  | .branch b => b.guard.Within l checks reads
  | .custom text =>
    Code.isCommentLine text = true ∨ ∃ k : Construction, text = k.replaceLine ∧ k.Within l reads
  | .declaration _ | .ret _ | .noop | .placeholder => True

namespace NodeKind

variable {l : Language} {checks checks' : List (List CheckName)}
  {reads reads' assigns assigns' : Trail → Prop} {k : NodeKind}

theorem Within.mono (hr : ∀ t, reads t → reads' t) (ha : ∀ t, assigns t → assigns' t)
    (h : k.Within l checks reads assigns) : k.Within l checks reads' assigns' := by
  cases k with
  | definition target β declares => exact ⟨h.1.mono hr, fun hd => ha target (h.2 hd)⟩
  | branch b => exact Guard.Within.mono hr h
  | custom text =>
    refine h.imp_right ?_
    rintro ⟨k, htext, hk⟩
    exact ⟨k, htext, Construction.Within.mono hr k hk⟩
  | _ => trivial

theorem Within.of_subset (hsub : checks ⊆ checks') (h : k.Within l checks reads assigns) :
    k.Within l checks' reads assigns := by
  cases k with
  | branch b => exact Guard.Within.of_subset hsub h
  | _ => exact h

end NodeKind

/-! ### Nodes of a store -/

namespace Code

variable (c : Code)

/-- The node defines a new temporary for the trail. -/
def Defines (id : NodeId) (t : Trail) : Prop :=
  c.isCommentedOut id = false ∧ ∃ β, c.kind id = .definition t β true

/-- The node declares a temporary for the trail. -/
def Declares (id : NodeId) (t : Trail) : Prop :=
  c.isCommentedOut id = false ∧ c.kind id = .declaration t

/-- The node introduces a temporary for the trail. -/
def Introduces (id : NodeId) (t : Trail) : Prop := c.Declares id t ∨ c.Defines id t

/-- The temporary of the trail is that of the matched term, or is introduced before or around the
node. -/
def InScope (id : NodeId) (t : Trail) : Prop :=
  t = Trail.root ∨ ∃ above ∈ c.ancestors id, c.Introduces above t

/-- A node of the sequence assigns the temporary of the trail. -/
def Assigns (head : NodeId) (t : Trail) : Prop :=
  ∃ id ∈ c.chain head, c.isCommentedOut id = false ∧ ∃ β, c.kind id = .definition t β false

/-- The node is a branch, and whichever body it chooses assigns the temporary of the trail. -/
def AssignsAlways (id : NodeId) (t : Trail) : Prop :=
  ∃ b, c.branch? id = some b ∧ c.Assigns b.thenBody t ∧ c.Assigns b.elseBody t ∧
    ∀ alternative ∈ b.elseIfs, ∃ b', c.branch? alternative = some b' ∧ c.Assigns b'.thenBody t

/-- Some node before or around the node declares the temporary of the trail. -/
def IsDeclared (id : NodeId) (t : Trail) : Prop := ∃ above ∈ c.ancestors id, c.Declares above t

/-- The temporary of the trail is bound at the node: it is that of the matched term, or is defined
before or around the node, or is declared there, and a branch that assigns it in all bodies comes
after the declaration and is left before the node. -/
def Ready (id : NodeId) (t : Trail) : Prop :=
  t = Trail.root ∨ (∃ above ∈ c.ancestors id, c.Defines above t) ∨
  ∃ above ∈ c.ancestors id, c.Declares above t ∧
    ∃ choice ∈ c.ancestors id, above ∈ c.ancestors choice ∧ c.AssignsAlways choice t ∧
      ∃ after ∈ id :: c.ancestors id, c.link after = .after choice

end Code

end Rulewright
