import Rulewright.Decimal.Digits
import Rulewright.Expr.Basic
import Rulewright.Expr.Form

/-!
# Reading terms

A text that is not a form is an error before anything else. The parts of a form are read from left
to right, the items of a list before its head, and the first error is the answer.
-/

namespace Rulewright

/-- Why a list with a special head is not a term. -/
inductive FormFault where
  | compoundOperands
  | optionalOperands
  | anywayOperands
  | groupNumber
  deriving DecidableEq

namespace FormFault

def head : FormFault → String
  | .compoundOperands => "#"
  | .optionalOperands => "?"
  | .anywayOperands | .groupNumber => "~"

def reason : FormFault → String
  | .compoundOperands => "expected exactly one operand"
  | .optionalOperands => "expected a pattern and a default"
  | .anywayOperands => "expected a group id and at least one operand"
  | .groupNumber => "group id must be a non-negative number"

end FormFault

/-- Why a text is not a term. -/
inductive ParseError where
  /-- The text is not a form. -/
  | notAForm
  | unknownOperator (name : String)
  | invalidNumber (text : String)
  | malformed (fault : FormFault)
  deriving DecidableEq

def ParseError.message : ParseError → String
  | .notAForm => "syntax error:"
  | .unknownOperator name => "unknown operator `" ++ name ++ "`"
  | .invalidNumber text => "invalid number `" ++ text ++ "`"
  | .malformed fault => "malformed `" ++ fault.head ++ "` form: " ++ fault.reason

namespace Form

/-- A number without sign. -/
def unsigned? (digits : List Char) : Option Nat :=
  let n := Decimal.ofDigits digits
  if digits.all Char.isDigit && fitsUInt64 n then some n else none

/-- A number with sign. -/
def signed? (text : List Char) : Option Int :=
  let n : Int :=
    match text with
    | '-' :: digits => -(Decimal.ofDigits digits : Int)
    | digits => Decimal.ofDigits digits
  if fitsInt64 n then some n else none

/-- The literal of a word with the shape of one. -/
def literal? (text : List Char) : Option Literal :=
  if text.getLast? == some 'u' then (unsigned? text.dropLast).map .uint
  else (signed? text).map .int

def readAtom (l : Language) : Atom → Except ParseError Expr
  | .metavar digits =>
    match unsigned? digits with
    | some id => .ok (.metavar id)
    | none => .error (.invalidNumber ("$" ++ String.ofList digits))
  | .literal text =>
    match literal? text with
    | some value => .ok (.literal value)
    | none => .error (.invalidNumber (String.ofList text))
  | .name text =>
    match l.id? (String.ofList text) with
    | some id => .ok (.app id [])
    | none => .ok (.var (String.ofList text))

/-- The number of a group: a literal that is not negative and fits 64 bits with sign. -/
def group? : Expr → Option GroupId
  | .literal value =>
    match value.int64? with
    | some (.ofNat n) => some n
    | _ => none
  | _ => none

/-- A list with its items read. -/
def readList (l : Language) (head : String) (items : List Expr) : Except ParseError Expr :=
  if head = "#" then
    match items with
    | [inner] => .ok (.compound inner)
    | _ => .error (.malformed .compoundOperands)
  else if head = "?" then
    match items with
    | [pattern, default] => .ok (.optional pattern default)
    | _ => .error (.malformed .optionalOperands)
  else if head = "~" then
    match items with
    | number :: operand :: rest =>
      match group? number with
      | some group => .ok (.anyway group (operand :: rest))
      | none => .error (.malformed .groupNumber)
    | _ => .error (.malformed .anywayOperands)
  else
    match l.id? head with
    | some id => .ok (.app id items)
    | none => .error (.unknownOperator head)

mutual

/-- The term of a form. -/
def read (l : Language) : Form → Except ParseError Expr
  | .atom a => readAtom l a
  | .list head items =>
    match readAll l items with
    | .ok items => readList l (String.ofList head) items
    | .error e => .error e

def readAll (l : Language) : List Form → Except ParseError (List Expr)
  | [] => .ok []
  | f :: rest =>
    match f.read l with
    | .ok e =>
      match readAll l rest with
      | .ok es => .ok (e :: es)
      | .error err => .error err
    | .error err => .error err

end

end Form

/-- The term of a text in a language. -/
def Language.parse (l : Language) (text : String) : Except ParseError Expr :=
  match Form.ofText? text with
  | some form => form.read l
  | none => .error .notAForm

end Rulewright
