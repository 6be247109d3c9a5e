/-!
# Diagnostics

What is reported while code is generated, in the order it was found.
-/

namespace Rulewright

/-- How bad a report is. -/
inductive Severity where
  | note
  | warning
  | error
  deriving DecidableEq

namespace Severity

def text : Severity → String
  | .note => "note"
  | .warning => "warning"
  | .error => "error"

def rank : Severity → Nat
  | .note => 0
  | .warning => 1
  | .error => 2

/-- The worse of two. -/
def max (a b : Severity) : Severity := if a.rank < b.rank then b else a

end Severity

structure Diagnostic where
  severity : Severity
  message : String
  deriving DecidableEq

namespace Diagnostic

def note (message : String) : Diagnostic := ⟨.note, message⟩

def warning (message : String) : Diagnostic := ⟨.warning, message⟩

def error (message : String) : Diagnostic := ⟨.error, message⟩

def text (d : Diagnostic) : String := d.severity.text ++ ": " ++ d.message

end Diagnostic

/-- Reports in the order they were made. -/
structure Diagnostics where
  entries : List Diagnostic
  deriving DecidableEq

namespace Diagnostics

def empty : Diagnostics := ⟨[]⟩

def push (d : Diagnostics) (entry : Diagnostic) : Diagnostics := ⟨d.entries ++ [entry]⟩

/-- The reports of `d`, then those of `e`. -/
def extend (d e : Diagnostics) : Diagnostics := ⟨d.entries ++ e.entries⟩

def count (d : Diagnostics) (severity : Severity) : Nat :=
  d.entries.countP (·.severity == severity)

def hasErrors (d : Diagnostics) : Bool := d.entries.any (·.severity == .error)

/-- The highest severity reported. -/
def worst? (d : Diagnostics) : Option Severity :=
  d.entries.foldl (fun worst e =>
    match worst with
    | none => some e.severity
    | some w => some (w.max e.severity)) none

end Diagnostics

end Rulewright
