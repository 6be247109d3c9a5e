import Rulewright.Json.Record
import Rulewright.Language.Basic

/-!
# Languages as lists of entries

The stored form of a language has an entry per symbol: its name, its operand counts and its
constructor.
-/

namespace Rulewright

/-- A symbol of a stored language. -/
structure SymbolEntry where
  name : String
  arities : List Nat
  constructor : Option String
  deriving DecidableEq

namespace SymbolEntry

def ofJson? (j : Json) : Option SymbolEntry := do
  match ← j.record? ["name", "arities", "constructor"] with
  | [name, arities, constructor] =>
    return {
      name := ← Json.required Json.string? name
      arities := ← Json.withDefault [] (Json.list? Json.count?) arities
      constructor := ← Json.withDefault none (Json.nullable? Json.string?) constructor }
  | _ => none

def toJson (e : SymbolEntry) : Json :=
  .object <|
    [("name", .string e.name), ("arities", Json.ofList Json.nat e.arities)] ++
    match e.constructor with
    | some c => [("constructor", .string c)]
    | none => []

end SymbolEntry

namespace Language

/-- The language with these entries. -/
def ofEntries (entries : List SymbolEntry) : Language :=
  entries.foldl (fun l e => l.addOperator e.name e.arities e.constructor) empty

/-- The entries of a language, in the order of its symbols. -/
def entries (l : Language) : List SymbolEntry :=
  l.names.mapIdx fun id name =>
    { name
      arities := (l.arities.get? id).getD []
      constructor := l.constructors.get? id }

/-- The entries of a stored language. -/
def entriesOfJson? (j : Json) : Option (List SymbolEntry) := do
  match ← j.record? ["symbols"] with
  | [symbols] => Json.required (Json.list? SymbolEntry.ofJson?) symbols
  | _ => none

def entriesToJson (entries : List SymbolEntry) : Json :=
  .object [("symbols", Json.ofList SymbolEntry.toJson entries)]

def ofJson? (j : Json) : Option Language :=
  (entriesOfJson? j).map ofEntries

def toJson (l : Language) : Json :=
  entriesToJson l.entries

end Language

end Rulewright
