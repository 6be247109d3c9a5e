/-!
# JSON values

A value keeps the fields of an object in the order of the text, repeated names included, and tells
a number written as a plain integer from every other number. What a repeated name means is left to
the reader of the value.

A JSON string is a sequence of 16-bit codes, and not every such sequence is a text. A value that
needs one that is not is `Json.unreadable`: it may stand where nobody looks at it.
-/

namespace Rulewright

/-- A number of a JSON text. -/
inductive JsonNumber where
  /-- Written with digits and at most a sign; minus zero is not written so. -/
  | integer (value : Int)
  /-- Written with a fraction or an exponent, or minus zero. -/
  | real (text : String)
  deriving DecidableEq

inductive Json where
  | null
  | bool (value : Bool)
  | number (value : JsonNumber)
  | string (value : String)
  | array (items : List Json)
  | object (fields : List (String × Json))
  /-- A string with half of a surrogate pair alone, or an object with such a name. -/
  | unreadable

namespace Json

def nat (n : Nat) : Json := .number (.integer n)

def int (n : Int) : Json := .number (.integer n)

/-- The value, or null for a missing one. -/
def ofOption {α : Type} (f : α → Json) : Option α → Json
  | none => .null
  | some a => f a

def ofList {α : Type} (f : α → Json) (l : List α) : Json := .array (l.map f)

/-- The value of the first field of this name. -/
def field? (j : Json) (name : String) : Option Json :=
  match j with
  | .object fields => fields.lookup name
  | _ => none

end Json

end Rulewright
