import Rulewright.Matcher.Pattern
import Rulewright.Rule.Basic

/-!
# Matchers of rules

The matcher of a rule is that of its pattern with an action at its innermost point. The action
checks that the nodes of each metavariable are equal, then the conditions, and then replaces the
matched term and returns `true`. The matcher returns `false` if it gets to its end.
-/

namespace Rulewright.Matcher

def modifyingNote : String :=
  "Commented out due to modifying condition. " ++
    "Rules with modifying conditions need to be of type x ==> x."

/-- The text of a condition of a rule, nothing for one that always passes. -/
def conditionCode (s : Scope) (k : Condition) : Except CompileError (Option String) :=
  if k.check.isNoCheck then .ok none
  else
    match (s.code k.subject []).1 with
    | .ok code => .ok (some ("conditions::" ++ k.check.text ++ "(&" ++ code ++ ")"))
    | .error e => .error e

/-- The texts of all conditions of a rule, the global one last. -/
def conditionCodes (s : Scope) (r : Rule) : Except CompileError (List String) := do
  let codes ← r.conditions.mapM (conditionCode s)
  let global :=
    if r.global.isNoCheck then []
    else ["conditions::" ++ r.global.text ++ "(&" ++ Trail.rootMark ++ ")"]
  return codes.filterMap id ++ global

/-- The code under a guard, as a sequence. -/
def underGuard (guard : Guard) (body : NodeId) : Build NodeId := do
  let check ← create (·.createIf guard (some body) none)
  create (·.sequence [check])

/-- The checks that need the whole match, and the replacement. -/
def action (l : Language) (foldConstants : Bool) (r : Rule) : Build NodeId := do
  let metas := r.pattern.metaTrails
  let scope : Scope := { language := l, metas, groups := (← get).groups, foldConstants := false }
  let conditions ← lift (conditionCodes scope r)
  let code ← lift ({ scope with foldConstants }.code r.replacement []).1
  let replace ← alloc (.custom (Trail.rootMark ++ ".replace(" ++ code ++ ");"))
  if r.hasModifyingCondition then edit (·.commentOut replace modifyingNote)
  let yes ← alloc (.ret true)
  let body ← create (·.sequence [replace, yes])
  let body ←
    if conditions.isEmpty then pure body
    else underGuard (.free (" && ".intercalate conditions)) body
  let pairs := metas.equalities
  if pairs.isEmpty then return body
  else underGuard (.structurallyEqual pairs) body

/-- Make every placeholder below a node do nothing. -/
def neutralizePlaceholders (c : Code) (head : NodeId) : Code :=
  ((c.descendants head).filter fun id => (c.kind id).isPlaceholder).foldl Code.neutralize c

/-- The matcher of a rule. -/
def matchRule (o : Options) (l : Language) (foldConstants : Bool) (r : Rule) : Build NodeId := do
  let head ← matchPattern o l r.pattern Trail.root
  let action ← action l foldConstants r
  match (← get).code.findPlaceholder? head with
  | some placeholder => edit (·.replace placeholder action)
  | none => append head action
  edit (neutralizePlaceholders · head)
  let no ← alloc (.ret false)
  append head no
  return head

end Matcher

/-- How rules are compiled. -/
structure CompileOptions where
  skipRootGuard : Bool
  foldConstants : Bool
  joinComparisons : Bool := true

/-- Add the matcher of a rule to code. What was added stays if the rule cannot be compiled. -/
def Rule.compile (o : CompileOptions) (l : Language) (r : Rule) (c : Code) :
    Except CompileError NodeId × Code :=
  let options : Matcher.Options :=
    { skipRootGuard := o.skipRootGuard, joinComparisons := o.joinComparisons }
  let start : Matcher.Progress := { code := c, groups := Table.empty, deepest := true }
  match (Matcher.matchRule options l o.foldConstants r).run start with
  | .ok head p => (.ok head, p.code)
  | .error e p => (.error e, p.code)

end Rulewright
