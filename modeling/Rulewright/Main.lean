import Rulewright.CommandLine

/-!
# The program

The command line on the files of the disk.
-/

open Rulewright

/-- The files of the disk. -/
def Rulewright.CommandLine.disk : CommandLine.FileAccess IO where
  read path := do
    try return some (← IO.FS.readFile path)
    catch _ => return none
  write path contents := do
    try
      IO.FS.writeFile path contents
      return true
    catch _ => return false

def main (args : List String) : IO UInt32 := do
  match ← CommandLine.run CommandLine.disk args with
  | .ok text =>
    IO.print text
    return 0
  | .error failure =>
    IO.eprintln failure.message
    return failure.code.toUInt32
