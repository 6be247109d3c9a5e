import Rulewright.Artifact.Generate

/-!
# The command line

The arguments name a directory with a rule set, the file to write and, if there is one, a
configuration. What the program does with files is given to it, so that it runs on a disk and in
memory alike.
-/

namespace Rulewright

namespace CommandLine

/-- An option with a value. -/
inductive ValueOption where
  | rules
  | output
  | config
  deriving DecidableEq

/-- An option without a value. -/
inductive Switch where
  | foldConstants
  | keepRootGuard
  deriving DecidableEq

def ValueOption.ofLong? : String → Option ValueOption
  | "rules" => some .rules
  | "output" => some .output
  | "config" => some .config
  | _ => none

def ValueOption.ofShort? : Char → Option ValueOption
  | 'r' => some .rules
  | 'o' => some .output
  | 'c' => some .config
  | _ => none

def Switch.ofLong? : String → Option Switch
  | "fold-constants" => some .foldConstants
  | "no-skip-outer-guard" => some .keepRootGuard
  | _ => none

/-- One word of the command line. -/
inductive Word where
  | switch (switch : Switch)
  /-- An option with its value in the same word. -/
  | joined (option : ValueOption) (value : String)
  /-- An option whose value is the next word. -/
  | awaiting (option : ValueOption)

/-- A word after two dashes. A value is put after a sign of equality. -/
def Word.ofLong? (word : List Char) : Option Word :=
  let name := String.ofList (word.takeWhile (· != '='))
  match word.dropWhile (· != '=') with
  | [] => (Switch.ofLong? name).map .switch <|> (ValueOption.ofLong? name).map .awaiting
  | _ :: value => (ValueOption.ofLong? name).map (.joined · (String.ofList value))

/-- A word after one dash. A value follows directly or after a sign of equality. -/
def Word.ofShort? : List Char → Option Word
  | [] => none
  | [c] => (ValueOption.ofShort? c).map .awaiting
  | c :: '=' :: value => (ValueOption.ofShort? c).map (.joined · (String.ofList value))
  | c :: value => (ValueOption.ofShort? c).map (.joined · (String.ofList value))

def Word.ofText? (word : String) : Option Word :=
  match word.toList with
  | '-' :: '-' :: rest => Word.ofLong? rest
  | '-' :: rest => Word.ofShort? rest
  | _ => none

/-- A word that can be the value of the option before it. -/
def isValue (word : String) : Bool :=
  match word.toList with
  | [] => false
  | '-' :: rest => rest.isEmpty
  | _ => true

/-- An option as it was given. -/
inductive Argument where
  | switch (switch : Switch)
  | value (option : ValueOption) (text : String)
  deriving DecidableEq

/-- The options of a command line, unless it has anything else. Two dashes may end it. -/
def arguments? : List String → Option (List Argument)
  | [] => some []
  | ["--"] => some []
  | word :: rest =>
    match Word.ofText? word with
    | none => none
    | some (.switch s) => (arguments? rest).map (.switch s :: ·)
    | some (.joined option value) =>
      if value.isEmpty then none else (arguments? rest).map (.value option value :: ·)
    | some (.awaiting option) =>
      match rest with
      | [] => none
      | value :: rest =>
        if isValue value then (arguments? rest).map (.value option value :: ·) else none

/-- The values given for an option. -/
def values (option : ValueOption) (arguments : List Argument) : List String :=
  arguments.filterMap fun
    | .value o text => if o = option then some text else none
    | .switch _ => none

/-- The one value of an option. -/
def single? : List String → Option String
  | [value] => some value
  | _ => none

/-- The value of an option that may be left out; nothing if it is repeated. -/
def atMostOne? : List String → Option (Option String)
  | [] => some none
  | [value] => some (some value)
  | _ => none

/-- Whether a switch is given; nothing if it is repeated. -/
def isOn? (switch : Switch) (arguments : List Argument) : Option Bool :=
  match arguments.count (.switch switch) with
  | 0 => some false
  | 1 => some true
  | _ => none

/-- What a command line asks for. -/
structure Settings where
  rules : String
  output : String
  config : Option String
  foldConstants : Bool
  keepRootGuard : Bool
  deriving DecidableEq

def Settings.ofArguments? (arguments : List Argument) : Option Settings :=
  return {
    rules := ← single? (values .rules arguments)
    output := ← single? (values .output arguments)
    config := ← atMostOne? (values .config arguments)
    foldConstants := ← isOn? .foldConstants arguments
    keepRootGuard := ← isOn? .keepRootGuard arguments }

def Settings.parse? (words : List String) : Option Settings :=
  (arguments? words).bind Settings.ofArguments?

/-- The configuration with the switches of the command line. -/
def Settings.adjust (s : Settings) (config : Config) : Config :=
  { config with
    foldConstants := config.foldConstants || s.foldConstants
    skipRootGuard := config.skipRootGuard && !s.keepRootGuard }

/-- How a run ends. -/
inductive Failure where
  | badArguments
  | config (path : String)
  | rules (path : String)
  | generation (error : CompileError)
  | output (path : String)
  deriving DecidableEq

namespace Failure

/-- The exit code. -/
def code : Failure → Nat
  | .badArguments => 2
  | _ => 1

def message : Failure → String
  | .badArguments => "usage: --rules <directory> --output <file> [--config <file>] " ++
      "[--fold-constants] [--no-skip-outer-guard]"
  | .config path => "Error: loading configuration " ++ path
  | .rules path => "Error: loading rules from " ++ path
  | .generation error => "Error: " ++ error.message
  | .output path => "Error: writing " ++ path

end Failure

/-- What is printed about a file that was written. -/
def report (output : String) (a : Artifact) : String :=
  let summary := a.summary
  let count (severity : Severity) := toString (a.diagnostics.count severity)
  String.join <| List.map (· ++ "\n") <|
    ["Compiled " ++ toString summary.compiled ++ " rules into " ++ output] ++
    (a.diagnostics.entries.filter (·.severity != .note)).map (·.text) ++
    [toString summary.skipped.length ++ " skipped, " ++
      toString summary.abandoned.length ++ " abandoned, " ++
      count .note ++ " notes, " ++ count .warning ++ " warnings, " ++ count .error ++ " errors"] ++
    (if a.defective then ["The generated code is defective."] else [])

/-- Access to files. A file that cannot be read has no contents; writing says whether it
succeeded. -/
structure FileAccess (m : Type → Type) where
  read : String → m (Option String)
  write : String → String → m Bool

variable {m : Type → Type} [Monad m]

/-- The configuration of a run. -/
def loadConfig (files : FileAccess m) : Option String → m (Except LoadError Config)
  | none => return .ok Config.default
  | some path => return loadJson Config.ofJson? path (← files.read path)

/-- Do what the settings ask for. The result is what is printed. -/
def generate (files : FileAccess m) (s : Settings) : m (Except Failure String) := do
  match ← loadConfig files s.config with
  | .error _ => return .error (.config (s.config.getD ""))
  | .ok config =>
    match ← RuleSet.load files.read s.rules with
    | .error _ => return .error (.rules s.rules)
    | .ok ruleSet =>
      match ruleSet.generate (s.adjust config) with
      | .error e => return .error (.generation e)
      | .ok artifact =>
        if ← files.write s.output artifact.text then return .ok (report s.output artifact)
        else return .error (.output s.output)

/-- Run the program on its arguments. -/
def run (files : FileAccess m) (words : List String) : m (Except Failure String) :=
  match Settings.parse? words with
  | some settings => generate files settings
  | none => return .error .badArguments

end CommandLine

end Rulewright
