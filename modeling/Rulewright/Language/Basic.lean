import Rulewright.Table

/-!
# Languages

A language is a list of symbols. A symbol may declare the operand counts it takes and the
constructor that builds its nodes in generated code. Symbols are found by name; of several with
one name the first is meant.
-/

namespace Rulewright

/-- The position of a symbol in its language. -/
abbrev SymbolId := Nat

/-- Operand counts by symbol, each list sorted and without repetitions. -/
structure Arities where
  counts : Table SymbolId (List Nat)
  deriving DecidableEq

namespace Arities

def empty : Arities := ⟨Table.empty⟩

/-- Replace the counts of a symbol. -/
def set (a : Arities) (symbol : SymbolId) (counts : List Nat) : Arities :=
  ⟨a.counts.insert symbol (sortedSet counts)⟩

def get? (a : Arities) (symbol : SymbolId) : Option (List Nat) :=
  a.counts.get? symbol

/-- The symbol takes more than one operand count. -/
def isOverloaded (a : Arities) (symbol : SymbolId) : Bool :=
  match a.get? symbol with
  | some counts => 1 < counts.length
  | none => false

end Arities

/-- How the operand counts of an operator are declared. -/
inductive DeclarationState where
  /-- There is one count, so the name of a node tells its number of operands. -/
  | unique
  /-- There are several counts, so matchers check the number of operands too. -/
  | overloaded
  deriving DecidableEq

structure Language where
  names : List String
  arities : Arities
  constructors : Table SymbolId String
  deriving DecidableEq

namespace Language

def empty : Language := ⟨[], Arities.empty, Table.empty⟩

instance : Inhabited Language := ⟨empty⟩

/-- Add a symbol that declares nothing. -/
def addSymbol (l : Language) (name : String) : Language :=
  { l with names := l.names ++ [name] }

/-- Add a symbol with its operand counts and its constructor. No counts is no declaration. -/
def addOperator (l : Language) (name : String) (counts : List Nat) (constructor : Option String) :
    Language :=
  { names := l.names ++ [name]
    arities := if counts.isEmpty then l.arities else l.arities.set l.names.length counts
    constructors :=
      match constructor with
      | some c => l.constructors.insert l.names.length c
      | none => l.constructors }

/-- The name of a symbol. -/
def name? (l : Language) (id : SymbolId) : Option String := l.names[id]?

/-- The name of a symbol, empty for a symbol that is not in the language. -/
def name (l : Language) (id : SymbolId) : String := (l.name? id).getD ""

/-- The first symbol of a name. -/
def id? (l : Language) (name : String) : Option SymbolId := l.names.idxOf? name

/-- The operand counts declared for a name. -/
def arities? (l : Language) (name : String) : Option (List Nat) :=
  (l.id? name).bind l.arities.get?

/-- How a name is declared; nothing for a name without declared counts. -/
def declarationState (l : Language) (name : String) : Option DeclarationState :=
  match l.id? name with
  | none => none
  | some id =>
    match l.arities.get? id with
    | none => none
    | some _ => some (if l.arities.isOverloaded id then .overloaded else .unique)

/-- The operand count of a name that has exactly one. -/
def uniqueArity? (l : Language) (name : String) : Option Nat :=
  match l.arities? name with
  | some [count] => some count
  | _ => none

/-- The constructor declared for a name. -/
def constructor? (l : Language) (name : String) : Option String :=
  (l.id? name).bind l.constructors.get?

/-- The arithmetic operators. -/
def arithmetic : Language :=
  empty
    |>.addOperator "+" [2] (some "_add")
    |>.addOperator "-" [1, 2] (some "_sub")
    |>.addOperator "*" [2] (some "_mul")
    |>.addOperator "/" [2] (some "_div")
    |>.addOperator "sin" [1] (some "_sin")
    |>.addOperator "cos" [1] (some "_cos")

end Language

end Rulewright
