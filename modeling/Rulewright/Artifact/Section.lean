import Rulewright.Artifact.Bucket
import Rulewright.Text.Quoted

/-!
# Sections of the generated file

The file has a header of comments, one module with the generated functions, and a closing line.
-/

namespace Rulewright

/-- What went into a generated file. Rules are given by their texts. -/
structure Summary where
  compiled : Nat
  phases : List Int
  abandoned : List String
  additional : List String
  skipped : List String
  deriving DecidableEq

namespace Section

def indentLine (line : String) : String :=
  if line.isEmpty then "" else "    " ++ line

/-- Indent each line that is not empty by one level. -/
def indent (text : String) : String :=
  "\n".intercalate ((Text.lines text).map indentLine) ++ "\n"

def headerLine (text : String) : String := "// " ++ text ++ "\n"

def header (s : Summary) (skipRootGuard defective : Bool) : String :=
  String.join <|
    [headerLine "Generated by regula 0.1.0. Do not edit by hand.",
      headerLine <|
        "Rules: " ++ toString s.compiled ++ " compiled, " ++ toString s.skipped.length ++
          " skipped, " ++ toString s.abandoned.length ++ " abandoned, " ++
          toString s.additional.length ++ " additional. Phases: " ++
          ", ".intercalate (s.phases.map toString) ++ "."] ++
    (if skipRootGuard then
      [headerLine "Per-rule functions leave the check of the root operator to dispatch."]
    else []) ++
    s.abandoned.map (fun rule => headerLine ("Abandoned: " ++ rule)) ++
    s.additional.map (fun rule => headerLine ("Additional: " ++ rule)) ++
    s.skipped.map (fun rule => headerLine ("Skipped: " ++ rule)) ++
    (if defective then
      [headerLine "DEFECTIVE: generated code failed its integrity check."] else [])

def stringSlice (name : String) (items : List String) : String :=
  "pub const " ++ name ++ ": &[&str] = &[" ++ ", ".intercalate (items.map Text.quoted) ++ "];\n"

/-- The names of a language that are declared in a state, sorted. -/
def declaredNames (l : Language) (state : DeclarationState) : List String :=
  sortedSet (l.names.filter fun name => l.declarationState name = some state)

def driftCheck : String :=
  "/// Warns about operators whose overload state differs from the one the rules were\n" ++
  "/// generated for.\n" ++
  "pub fn check_operator_drift(p: &Registry) \x7b\n" ++
  "    for op in USED_OPERATORS \x7b\n" ++
  "        if p.is_overloaded(op) != OVERLOADED_OPERATORS.contains(op) \x7b\n" ++
  "            p.warn(&format!(\n" ++
  "                \"W0001: overload state of operator '\x7b\x7d' changed since the rules were " ++
  "generated. \\\n" ++
  "                 Regenerate the rules.\",\n" ++
  "                op\n" ++
  "            ));\n" ++
  "        \x7d\n" ++
  "    \x7d\n" ++
  "\x7d\n"

/-- How the operators are declared, and the check that they still are so when rules run. -/
def snapshot (l : Language) (used : List String) : String :=
  stringSlice "NON_OVERLOADED_OPERATORS" (declaredNames l .unique) ++
    stringSlice "OVERLOADED_OPERATORS" (declaredNames l .overloaded) ++
    stringSlice "USED_OPERATORS" used ++ "\n" ++ driftCheck

/-- The function of one rule. -/
def ruleFunction (name rule body : String) : String :=
  "// Generated from rule:\n// " ++ rule ++ "\npub fn " ++ name ++
    "(formula: &TermPtr, p: &Registry) -> bool \x7b\n" ++ body ++ "\x7d\n"

def calls (functions : List String) : String :=
  String.join (functions.map fun name =>
    "if " ++ name ++ "(m, p) \x7b\n    return true;\n\x7d\n")

def guarded (condition body : String) : String :=
  "if " ++ condition ++ " \x7b\n" ++ indent body ++ "\x7d\n"

def countCondition (count : Nat) : String := "m.arity() == " ++ toString count

/-- The calls of a bucket, under the check of its number of operands. -/
def bucketCalls (bucket : Bucket × List String) : String :=
  match bucket.1 with
  | .operator _ (some count) | .anyway count => guarded (countCondition count) (calls bucket.2)
  | .operator _ none => calls bucket.2

/-- The calls of neighbouring buckets of one operator. -/
def operatorCalls (buckets : List (Bucket × List String)) : String :=
  let inner := String.join (buckets.map bucketCalls)
  match buckets.head?.bind (·.1.operator?) with
  | some name => guarded ("m.op() == " ++ Text.quoted name) inner
  | none => inner

/-- The function that tries the rules of a phase until one of them changes the node. -/
def dispatch (phase : Int) (buckets : List (Bucket × List String)) : String :=
  let groups := buckets.splitBy fun a b => a.1.operator? == b.1.operator?
  "pub fn " ++ dispatchName phase ++ "(m: &TermPtr, p: &Registry) -> bool \x7b\n" ++
    indent (String.join (groups.map operatorCalls) ++ "false\n") ++ "\x7d\n"

/-- The function that has all rules of a phase in one. -/
def fusedFunction (phase : Int) (body : String) : String :=
  "pub fn " ++ fusedName phase ++ "(m: &TermPtr, p: &Registry) -> bool \x7b\n" ++ body ++ "\x7d\n"

/-- The function that runs every phase over the whole formula. -/
def simplify (name : String) (phases : List Int) (phaseFunction : Int → String) : String :=
  "pub fn " ++ name ++ "(formula: &TermPtr, p: &Registry) \x7b\n" ++
    "    check_operator_drift(p);\n" ++
    String.join (phases.map fun phase =>
      "    apply_to_full_formula(formula, p, " ++ phaseFunction phase ++ ", FOLD_CONSTANTS);\n") ++
    "\x7d\n"

/-- The loop that applies rules until nothing changes any more. -/
def formulaLoop (foldConstants : Bool) : String :=
  "pub const FOLD_CONSTANTS: bool = " ++ (if foldConstants then "true" else "false") ++ ";\n" ++
  "\n" ++
  "pub type RuleFn = fn(&TermPtr, &Registry) -> bool;\n" ++
  "\n" ++
  "/// Applies `rules` to every node in post-order until nothing changes anymore.\n" ++
  "pub fn apply_to_full_formula(formula: &TermPtr, p: &Registry, rules: RuleFn, " ++
  "fold_constants: bool) \x7b\n" ++
  "    let mut changed = true;\n" ++
  "    while changed \x7b\n" ++
  "        changed = false;\n" ++
  "        for m in formula.post_order() \x7b\n" ++
  "            if fold_constants && !m.is_leaf() && m.is_constant() \x7b\n" ++
  "                m.replace(_val(m.const_eval()));\n" ++
  "                changed = true;\n" ++
  "                continue;\n" ++
  "            \x7d\n" ++
  "            if rules(&m, p) \x7b\n" ++
  "                changed = true;\n" ++
  "            \x7d\n" ++
  "        \x7d\n" ++
  "    \x7d\n" ++
  "\x7d\n"

/-- The generated items in their module. -/
def module (items : List String) : String :=
  "#[allow(unused_variables, unused_mut, unreachable_code)]\n" ++
    "pub mod simplification \x7b\n    use super::runtime::*;\n\n" ++
    "\n".intercalate (items.map indent) ++ "\x7d\n"

def closing : String := "// End of generated rules.\n"

end Section

end Rulewright
