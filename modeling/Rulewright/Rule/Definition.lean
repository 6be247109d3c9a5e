import Rulewright.Expr.Parser
import Rulewright.Json.Record
import Rulewright.Rule.Basic

/-!
# Rules as they are stored

A stored rule has its terms in notation. It becomes a rule in a language; the first term that
cannot be read is the error, in the order pattern, replacement, conditions.
-/

namespace Rulewright

structure ConditionDefinition where
  subject : String
  check : CheckName
  deriving DecidableEq

structure RuleDefinition where
  pattern : String
  replacement : String
  conditions : List ConditionDefinition
  global : CheckName
  phase : Int
  abandoned : Bool
  deriving DecidableEq

namespace ConditionDefinition

def toCondition (l : Language) (d : ConditionDefinition) : Except ParseError Condition := do
  return { subject := ← l.parse d.subject, check := d.check }

def ofCondition (l : Language) (k : Condition) : ConditionDefinition :=
  { subject := k.subject.render l, check := k.check }

def ofJson? (j : Json) : Option ConditionDefinition := do
  match ← j.record? ["on", "kind"] with
  | [subject, check] =>
    return {
      subject := ← Json.required Json.string? subject
      check := ⟨← Json.required Json.string? check⟩ }
  | _ => none

def toJson (d : ConditionDefinition) : Json :=
  .object [("on", .string d.subject), ("kind", .string d.check.text)]

end ConditionDefinition

namespace RuleDefinition

/-- The rule in a language. -/
def toRule (l : Language) (d : RuleDefinition) : Except ParseError Rule := do
  let pattern ← l.parse d.pattern
  let replacement ← l.parse d.replacement
  let conditions ← d.conditions.mapM (·.toCondition l)
  return { pattern, replacement, conditions, global := d.global, phase := d.phase,
           abandoned := d.abandoned }

/-- The stored form of a rule. -/
def ofRule (l : Language) (r : Rule) : RuleDefinition :=
  { pattern := r.pattern.render l
    replacement := r.replacement.render l
    conditions := r.conditions.map (.ofCondition l)
    global := r.global
    phase := r.phase
    abandoned := r.abandoned }

def ofJson? (j : Json) : Option RuleDefinition := do
  match ← j.record? ["from", "to", "conditions", "global", "phase", "abandoned"] with
  | [pattern, replacement, conditions, global, phase, abandoned] =>
    return {
      pattern := ← Json.required Json.string? pattern
      replacement := ← Json.required Json.string? replacement
      conditions := ← Json.withDefault [] (Json.list? ConditionDefinition.ofJson?) conditions
      global := ⟨← Json.withDefault CheckName.noCheck.text Json.string? global⟩
      phase := ← Json.withDefault 0 Json.int32? phase
      abandoned := ← Json.withDefault false Json.bool? abandoned }
  | _ => none

def toJson (d : RuleDefinition) : Json :=
  .object <|
    [("from", .string d.pattern), ("to", .string d.replacement)] ++
    (if d.conditions.isEmpty then []
      else [("conditions", Json.ofList ConditionDefinition.toJson d.conditions)]) ++
    [("global", .string d.global.text), ("phase", .int d.phase)] ++
    (if d.abandoned then [("abandoned", .bool true)] else [])

end RuleDefinition

end Rulewright
