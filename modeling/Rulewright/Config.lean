import Rulewright.Rule.Definition

/-!
# Configuration

Settings of a generation. Every field has a default.
-/

namespace Rulewright

structure Config where
  /-- Write constant parts of replacements as their values, and fold constants when rules run. -/
  foldConstants : Bool
  /-- Leave the check of the root out of the functions of single rules. -/
  skipRootGuard : Bool
  /-- Rules that are kept as comments only. -/
  abandon : List RuleDefinition
  /-- Rules compiled besides those of the rule set. -/
  additional : List RuleDefinition
  deriving DecidableEq

namespace Config

def default : Config :=
  { foldConstants := false, skipRootGuard := true, abandon := [], additional := [] }

instance : Inhabited Config := ⟨default⟩

def abandonedRules (l : Language) (c : Config) : Except ParseError (List Rule) :=
  c.abandon.mapM (·.toRule l)

def additionalRules (l : Language) (c : Config) : Except ParseError (List Rule) :=
  c.additional.mapM (·.toRule l)

def ofJson? (j : Json) : Option Config := do
  let rules := Json.list? RuleDefinition.ofJson?
  match ← j.record? ["fold_constants", "skip_outer_guard", "abandon", "additional"] with
  | [foldConstants, skipRootGuard, abandon, additional] =>
    return {
      foldConstants := ← Json.withDefault default.foldConstants Json.bool? foldConstants
      skipRootGuard := ← Json.withDefault default.skipRootGuard Json.bool? skipRootGuard
      abandon := ← Json.withDefault default.abandon rules abandon
      additional := ← Json.withDefault default.additional rules additional }
  | _ => none

def toJson (c : Config) : Json :=
  .object
    [("fold_constants", .bool c.foldConstants), ("skip_outer_guard", .bool c.skipRootGuard),
      ("abandon", Json.ofList RuleDefinition.toJson c.abandon),
      ("additional", Json.ofList RuleDefinition.toJson c.additional)]

end Config

end Rulewright
