import Rulewright.Artifact.Section
import Rulewright.Diagnostics
import Rulewright.Rule.Basic

/-!
# Plans

Rules are looked at in the order of their texts. A rule is abandoned, or skipped for a reason, or
accepted into a bucket. The accepted rules are ordered by phase, then bucket, then text, and
numbered in that order, so that a plan depends on the rules alone and not on the order they were
given in.
-/

namespace Rulewright

/-- An entry of the generated functions: that of a rule, or the comment a rule leaves. -/
inductive RuleItem where
  | abandoned (operator rule : String)
  | skipped (rule reason : String)
  | function (name rule body : String)
  deriving DecidableEq

namespace RuleItem

def text : RuleItem → String
  | .abandoned operator rule => "// Abandoned rule for '" ++ operator ++ "': " ++ rule ++ "\n"
  | .skipped rule reason => "// Rule '" ++ rule ++ "' skipped: " ++ reason ++ "\n"
  | .function name rule body => Section.ruleFunction name rule body

def abandonedRule? : RuleItem → Option String
  | .abandoned _ rule => some rule
  | _ => none

def skippedRule? : RuleItem → Option String
  | .skipped rule _ => some rule
  | _ => none

def functionName? : RuleItem → Option String
  | .function name _ _ => some name
  | _ => none

/-- The report on a skipped rule. -/
def skipWarning (rule reason : String) : Diagnostic :=
  .warning ("Rule '" ++ rule ++ "' skipped: " ++ reason)

end RuleItem

/-- What becomes of a rule before it is compiled. -/
inductive Verdict where
  | abandoned (operator : String)
  | skipped (reason : String)
  | accepted (bucket : Bucket)
  deriving DecidableEq

def Rule.verdict (l : Language) (r : Rule) : Verdict :=
  if r.abandoned then .abandoned ((r.pattern.operator? l).getD "anyway")
  else if !r.problems.isEmpty then .skipped ("; ".intercalate r.problems)
  else
    match Bucket.of? l r.pattern with
    | some bucket => .accepted bucket
    | none => .skipped Bucket.noBucketMessage

/-- A rule with its text. -/
structure TextedRule where
  text : String
  rule : Rule
  deriving DecidableEq

/-- A rule in its bucket. -/
structure Candidate extends TextedRule where
  bucket : Bucket
  deriving DecidableEq

/-- The order of rules: phase, then bucket. -/
def Candidate.cmp (a b : Candidate) : Ordering :=
  (compare a.rule.phase b.rule.phase).then (compare a.bucket b.bucket)

/-- A rule with its place among the accepted ones. -/
structure PlannedRule extends Candidate where
  index : Nat
  deriving DecidableEq

def PlannedRule.functionName (p : PlannedRule) : String :=
  p.bucket.functionStem ++ "_" ++ toString p.index

/-- What is known after looking at some of the rules. -/
structure Survey where
  items : List RuleItem
  accepted : List Candidate
  /-- Operators without declared counts that were reported. -/
  undeclared : List String
  reports : List Diagnostic

namespace Survey

def start : Survey := ⟨[], [], [], []⟩

/-- Operators of a pattern that have no declared counts and were not reported. -/
def newUndeclared (l : Language) (known : List String) (pattern : Expr) : List String :=
  (pattern.operators l).filter fun name =>
    l.declarationState name = none && !known.contains name

def undeclaredWarning (rule operator : String) : Diagnostic :=
  .warning <|
    "Operator '" ++ operator ++ "' of rule '" ++ rule ++
      "' has no declared arity, its overload state cannot be checked."

/-- Look at one more rule. -/
def add (l : Language) (s : Survey) (r : TextedRule) : Survey :=
  match r.rule.verdict l with
  | .abandoned operator => { s with items := s.items ++ [.abandoned operator r.text] }
  | .skipped reason =>
    { s with
      items := s.items ++ [.skipped r.text reason]
      reports := s.reports ++ [RuleItem.skipWarning r.text reason] }
  | .accepted bucket =>
    let new := newUndeclared l s.undeclared r.rule.pattern
    { s with
      accepted := s.accepted ++ [{ r with bucket }]
      undeclared := s.undeclared ++ new
      reports := s.reports ++ new.map (undeclaredWarning r.text) }

end Survey

structure Plan where
  /-- The comments of rules that are not compiled. -/
  items : List RuleItem
  planned : List PlannedRule
  reports : List Diagnostic

namespace Plan

/-- Rules with their texts, by text. -/
def ordered (l : Language) (rules : List Rule) : List TextedRule :=
  (rules.map fun rule => { text := rule.text l, rule : TextedRule }).mergeSort
    fun a b => (compare a.text b.text).isLE

def ofRules (l : Language) (rules : List Rule) : Plan :=
  let survey := (ordered l rules).foldl (Survey.add l) .start
  let sorted := survey.accepted.mergeSort fun a b => (a.cmp b).isLE
  { items := survey.items
    planned := sorted.mapIdx fun index candidate => { candidate with index }
    reports := survey.reports }

/-- The phases of a plan, ascending. -/
def phases (p : Plan) : List Int :=
  sortedSet (p.planned.map (·.rule.phase))

end Plan

end Rulewright
