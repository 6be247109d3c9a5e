import Rulewright.Json.Parser
import Rulewright.Language.Entry
import Rulewright.Rule.Definition

/-!
# Rule sets

A rule set is a language and rules in it. It is stored as one JSON value, or as two files of a
directory, the language in `language.json` and the rules in `rules.json`.
-/

namespace Rulewright

structure RuleSet where
  language : Language
  rules : List Rule
  deriving DecidableEq

/-- A stored rule set: the entries of its language, and its rules in notation. -/
structure RuleSetFile where
  symbols : List SymbolEntry
  rules : List RuleDefinition
  deriving DecidableEq

namespace RuleSetFile

/-- Read the rules in the language. -/
def toRuleSet (f : RuleSetFile) : Except ParseError RuleSet := do
  let language := Language.ofEntries f.symbols
  return { language, rules := ← f.rules.mapM (·.toRule language) }

def ofRuleSet (s : RuleSet) : RuleSetFile :=
  { symbols := s.language.entries, rules := s.rules.map (.ofRule s.language) }

def ofJson? (j : Json) : Option RuleSetFile := do
  match ← j.record? ["language", "rules"] with
  | [language, rules] =>
    return {
      symbols := ← Json.required Language.entriesOfJson? language
      rules := ← Json.required (Json.list? RuleDefinition.ofJson?) rules }
  | _ => none

def toJson (f : RuleSetFile) : Json :=
  .object [("language", Language.entriesToJson f.symbols),
    ("rules", Json.ofList RuleDefinition.toJson f.rules)]

end RuleSetFile

/-- Why a file cannot be loaded. -/
inductive LoadError where
  | unreadable (path : String)
  | notJson (path : String)
  | rule (path : String) (index : Nat) (source : ParseError)
  deriving DecidableEq

/-- A file below a directory. -/
def joinPath (directory file : String) : String :=
  if directory.isEmpty || directory.toList.getLast? == some '/' then directory ++ file
  else directory ++ "/" ++ file

/-- The value in a JSON file, whose contents are given unless it cannot be read. -/
def loadJson {α : Type} (read : Json → Option α) (path : String) (contents : Option String) :
    Except LoadError α :=
  match contents with
  | none => .error (.unreadable path)
  | some text =>
    match (Json.parse? text).bind read with
    | some value => .ok value
    | none => .error (.notJson path)

namespace RuleSet

/-- The rules in a file of stored rules. -/
def rulesOfJson? (j : Json) : Option (List RuleDefinition) := do
  match ← j.record? ["rules"] with
  | [rules] => Json.required (Json.list? RuleDefinition.ofJson?) rules
  | _ => none

/-- Read stored rules, counting them from `index`. -/
def readRules (l : Language) (path : String) (index : Nat) :
    List RuleDefinition → Except LoadError (List Rule)
  | [] => .ok []
  | d :: rest =>
    match d.toRule l with
    | .error source => .error (.rule path index source)
    | .ok rule =>
      match readRules l path (index + 1) rest with
      | .ok rules => .ok (rule :: rules)
      | .error e => .error e

/-- Load a rule set from a directory. `readFile` gives the contents of a file. -/
def load {m : Type → Type} [Monad m] (readFile : String → m (Option String))
    (directory : String) : m (Except LoadError RuleSet) := do
  let languagePath := joinPath directory "language.json"
  match loadJson Language.ofJson? languagePath (← readFile languagePath) with
  | .error e => return .error e
  | .ok language =>
    let rulesPath := joinPath directory "rules.json"
    match loadJson rulesOfJson? rulesPath (← readFile rulesPath) with
    | .error e => return .error e
    | .ok definitions =>
      return (readRules language rulesPath 0 definitions).map fun rules => { language, rules }

end RuleSet

end Rulewright
