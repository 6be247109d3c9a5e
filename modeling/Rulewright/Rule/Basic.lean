import Rulewright.Expr.Printer
import Rulewright.Text.Uppercase

/-!
# Rules

A rule replaces a term that matches its pattern by its replacement, if its conditions allow it. A
condition is a named check on a term built from the matched parts; the global condition is a check
on the matched term. Rules are applied phase by phase. An abandoned rule is kept as a comment only.
-/

namespace Rulewright

/-- The name of a check. -/
structure CheckName where
  text : String
  deriving DecidableEq

namespace CheckName

/-- The check that always passes. -/
def noCheck : CheckName := ⟨"no_check"⟩

instance : Inhabited CheckName := ⟨noCheck⟩

def isNoCheck (k : CheckName) : Bool := k == noCheck

/-- The check changes the term it is given. Such checks have a capital letter in their name. -/
def isModifying (k : CheckName) : Bool := k.text.toList.any Text.isUppercase

end CheckName

/-- A check on a term. -/
structure Condition where
  subject : Expr
  check : CheckName
  deriving DecidableEq

structure Rule where
  pattern : Expr
  replacement : Expr
  conditions : List Condition
  global : CheckName
  phase : Int
  abandoned : Bool
  deriving DecidableEq

namespace Rule

def abandon (r : Rule) : Rule := { r with abandoned := true }

/-- Some check of the rule changes the term it is given. -/
def hasModifyingCondition (r : Rule) : Bool :=
  r.global.isModifying || r.conditions.any (·.check.isModifying)

/-- The rules are the same, phase and abandonment apart. -/
def sameRule (r s : Rule) : Bool :=
  r.pattern == s.pattern && r.replacement == s.replacement && r.conditions == s.conditions &&
    r.global == s.global

/-- The modifying conditions that have another condition after them. -/
def earlyModifying : List Condition → List Condition
  | [] => []
  | [_] => []
  | k :: rest => if k.check.isModifying then k :: earlyModifying rest else earlyModifying rest

/-- Why the rule cannot be applied safely. -/
def problems (r : Rule) : List String :=
  (earlyModifying r.conditions).map
    (fun k => "modifying condition '" ++ k.check.text ++ "' is not the last condition") ++
  if r.hasModifyingCondition && r.pattern != r.replacement then
    ["rule has a modifying condition, but 'from' differs from 'to'"]
  else []

def conditionText (l : Language) (k : Condition) : String :=
  k.subject.render l ++ ": '" ++ k.check.text ++ "'"

/-- The rule on one line. -/
def text (l : Language) (r : Rule) : String :=
  r.pattern.render l ++ " ==> " ++ r.replacement.render l ++
    (if r.conditions.isEmpty then ""
      else " [[" ++ ", ".intercalate (r.conditions.map (conditionText l)) ++ "]]") ++
    (if r.global.isNoCheck then "" else " \x7b\x7b'" ++ r.global.text ++ "'\x7d\x7d") ++
    " @" ++ toString r.phase

end Rule

end Rulewright
