import Rulewright.Artifact.Plan
import Rulewright.Code.Integrity
import Rulewright.Code.Printer
import Rulewright.Config
import Rulewright.Fusion
import Rulewright.Matcher.Rule
import Rulewright.RuleSet

/-!
# Generated files

A file has a function for every rule that can be compiled and, for each phase, a function that
tries them one by one and a function that has them fused into one. A rule that cannot be compiled
leaves a comment.
-/

namespace Rulewright

/-- The functions of a phase. -/
structure PhaseCode where
  phase : Int
  /-- The functions of the rules, by bucket. -/
  buckets : List (Bucket × List String)
  fusedBody : String

structure Artifact where
  language : Language
  skipRootGuard : Bool
  foldConstants : Bool
  /-- The texts of the rules that the configuration adds. -/
  additional : List String
  items : List RuleItem
  /-- The operators of the compiled rules. -/
  used : List String
  phases : List PhaseCode
  diagnostics : Diagnostics
  /-- Some code failed its integrity check. -/
  defective : Bool

namespace Artifact

def summary (a : Artifact) : Summary :=
  { compiled := (a.items.filterMap (·.functionName?)).length
    phases := a.phases.map (·.phase)
    abandoned := a.items.filterMap (·.abandonedRule?)
    additional := a.additional
    skipped := a.items.filterMap (·.skippedRule?) }

def header (a : Artifact) : String :=
  Section.header a.summary a.skipRootGuard a.defective

/-- The items of the module, in order. -/
def moduleItems (a : Artifact) : List String :=
  let phases := a.phases.map (·.phase)
  [Section.snapshot a.language a.used] ++
    a.items.map (·.text) ++
    a.phases.map (fun p => Section.dispatch p.phase p.buckets) ++
    [Section.simplify "simplify_fast" phases dispatchName] ++
    a.phases.map (fun p => Section.fusedFunction p.phase p.fusedBody) ++
    [Section.simplify "simplify_very_fast" phases fusedName,
      Section.formulaLoop a.foldConstants]

def text (a : Artifact) : String :=
  "\n".intercalate [a.header, Section.module a.moduleItems, Section.closing]

end Artifact

/-- The code of one rule. -/
structure CompiledRule where
  body : String
  violations : List IntegrityViolation

/-- Compile a rule on its own. -/
def PlannedRule.compile (o : CompileOptions) (l : Language) (p : PlannedRule) :
    Except CompileError CompiledRule :=
  match p.rule.compile o l Code.empty with
  | (.ok head, code) =>
    .ok { body := Section.indent (code.render head 0 "formula")
          violations := code.checkIntegrity head }
  | (.error e, _) => .error e

def violationError (name : String) (v : IntegrityViolation) : Diagnostic :=
  .error (name ++ ": integrity violated: " ++ v.message)

/-- The functions of single rules. -/
structure RuleFunctions where
  items : List RuleItem
  compiled : List PlannedRule
  reports : List Diagnostic
  defective : Bool

namespace RuleFunctions

/-- Add a rule with what came of its compilation. -/
def add (f : RuleFunctions) (p : PlannedRule) :
    Except CompileError CompiledRule → Except CompileError RuleFunctions
  | .ok code =>
    .ok {
      items := f.items ++ [.function p.functionName p.text code.body]
      compiled := f.compiled ++ [p]
      reports := f.reports ++ code.violations.map (violationError p.functionName) ++
        [.note (p.functionName ++ " generated from rule '" ++ p.text ++ "'")]
      defective := f.defective || !code.violations.isEmpty }
  | .error e =>
    if e.isFatal then .error e
    else
      .ok { f with
        items := f.items ++ [.skipped p.text e.message]
        reports := f.reports ++ [RuleItem.skipWarning p.text e.message] }

def ofPlan (o : CompileOptions) (l : Language) (planned : List PlannedRule) :
    Except CompileError RuleFunctions :=
  planned.foldlM (fun f p => f.add p (p.compile o l))
    { items := [], compiled := [], reports := [], defective := false }

/-- The operators of the compiled rules, sorted. -/
def used (l : Language) (f : RuleFunctions) : List String :=
  sortedSet (f.compiled.flatMap fun p =>
    p.rule.pattern.operatorList l ++ p.rule.replacement.operatorList l)

end RuleFunctions

/-- The rules of a phase in one piece of code. -/
structure FusedCode where
  code : Code
  head : Option NodeId
  reports : List Diagnostic

namespace FusedCode

/-- Fuse one more rule. -/
def add (o : CompileOptions) (l : Language) (f : FusedCode) (p : PlannedRule) :
    Except CompileError FusedCode :=
  match p.rule.compile o l f.code with
  | (.ok other, code) =>
    match f.head with
    | some head => .ok { f with code := code.merge l head other }
    | none => .ok { f with code, head := some other }
  | (.error e, code) =>
    if e.isFatal then .error e
    else
      .ok { f with
        code
        reports := f.reports ++
          [.warning ("Rule '" ++ p.text ++ "' left out of the fused function: " ++ e.message)] }

/-- Fuse the rules of a phase. -/
def ofRules (o : CompileOptions) (l : Language) (rules : List PlannedRule) :
    Except CompileError FusedCode :=
  rules.foldlM (add o l) { code := Code.empty, head := none, reports := [] }

/-- The body of the fused function, what is wrong with it, and the reports on it. -/
def finish (phase : Int) (f : FusedCode) : String × List IntegrityViolation × List Diagnostic :=
  match f.head with
  | none => (Section.indent "false", [], f.reports)
  | some head =>
    let code := f.code.eliminateRedundancy head
    let size := (code.descendants head).length
    (Section.indent (code.render head 0 "m"), code.checkIntegrity head,
      f.reports ++
        [.note (fusedName phase ++ ": integrity checked over " ++ toString size ++ " nodes")])

end FusedCode

/-- The functions of rules by bucket; neighbours of one bucket are together. -/
def bucketFunctions (rules : List PlannedRule) : List (Bucket × List String) :=
  (rules.splitBy fun a b => a.bucket == b.bucket).filterMap fun group =>
    group.head?.map fun first => (first.bucket, group.map (·.functionName))

/-- The functions of phases. -/
structure PhaseFunctions where
  phases : List PhaseCode
  reports : List Diagnostic
  defective : Bool

/-- Add the functions of a phase. -/
def PhaseFunctions.add (o : CompileOptions) (l : Language) (compiled : List PlannedRule)
    (f : PhaseFunctions) (phase : Int) : Except CompileError PhaseFunctions := do
  let rules := compiled.filter (·.rule.phase == phase)
  let (body, violations, reports) := (← FusedCode.ofRules o l rules).finish phase
  return {
    phases := f.phases ++ [{ phase, buckets := bucketFunctions rules, fusedBody := body }]
    reports := f.reports ++ reports ++ violations.map (violationError (fusedName phase))
    defective := f.defective || !violations.isEmpty }

/-- The rules of the rule set and those of the configuration, with the abandoned ones marked. -/
def markAbandoned (abandon rules : List Rule) : List Rule :=
  rules.map fun rule => if abandon.any rule.sameRule then rule.abandon else rule

/-- The reports on rules to abandon that are not there. -/
def missingAbandoned (l : Language) (abandon rules : List Rule) : List Diagnostic :=
  (abandon.filter fun target => !rules.any (·.sameRule target)).map fun target =>
    .warning ("Rule '" ++ target.text l ++
      "', which was marked to be abandoned, was not found in the rules list.")

/-- The file of rules and the rules that a configuration adds and abandons. -/
def generateFrom (l : Language) (config : Config) (rules additional abandon : List Rule) :
    Except CompileError Artifact := do
  let all := rules ++ additional
  let plan := Plan.ofRules l (markAbandoned abandon all)
  let single : CompileOptions :=
    { skipRootGuard := config.skipRootGuard, foldConstants := config.foldConstants }
  let functions ← RuleFunctions.ofPlan single l plan.planned
  let phases ← plan.phases.foldlM
    (PhaseFunctions.add { single with skipRootGuard := false } l functions.compiled)
    { phases := [], reports := [], defective := false }
  return {
    language := l
    skipRootGuard := config.skipRootGuard
    foldConstants := config.foldConstants
    additional := additional.map (·.text l)
    items := plan.items ++ functions.items
    used := functions.used l
    phases := phases.phases
    diagnostics :=
      ⟨missingAbandoned l abandon all ++ plan.reports ++ functions.reports ++ phases.reports⟩
    defective := functions.defective || phases.defective }

/-- The file of a rule set. -/
def RuleSet.generate (s : RuleSet) (config : Config) : Except CompileError Artifact :=
  match config.additionalRules s.language with
  | .error e => .error (.configuredRule e)
  | .ok additional =>
    match config.abandonedRules s.language with
    | .error e => .error (.configuredRule e)
    | .ok abandon => generateFrom s.language config s.rules additional abandon

end Rulewright
