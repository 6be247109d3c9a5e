import Rulewright.Json.Basic

/-!
# Records in JSON

A record is an object whose fields are found by name, or an array of its fields in the order they
are declared. Fields that are not declared are ignored, a declared field stands at most once, and
an array may leave fields out at its end only. A record and its declared fields have to be readable,
and what is ignored has not. What a missing field means is decided field by field: `required`
refuses it, `withDefault` supplies a value.
-/

namespace Rulewright.Json

/-- The values of the declared fields of a record, `none` for each missing one. -/
def record? (names : List String) : Json → Option (List (Option Json))
  | .object fields =>
    if names.any fun name => 1 < (fields.filter (·.1 == name)).length then none
    else some (names.map fun name => fields.lookup name)
  | .array items =>
    if names.length < items.length then none
    else some (items.map some ++ List.replicate (names.length - items.length) none)
  | _ => none

/-- A field that has to be there. -/
def required {α : Type} (read : Json → Option α) (field : Option Json) : Option α :=
  field.bind read

/-- A field that may be left out. -/
def withDefault {α : Type} (default : α) (read : Json → Option α) : Option Json → Option α
  | none => some default
  | some j => read j

def string? : Json → Option String
  | .string text => some text
  | _ => none

def bool? : Json → Option Bool
  | .bool b => some b
  | _ => none

/-- An integer of 64 bits without sign. -/
def count? : Json → Option Nat
  | .number (.integer (.ofNat n)) => if n < 18446744073709551616 then some n else none
  | _ => none

/-- An integer of 32 bits with sign. -/
def int32? : Json → Option Int
  | .number (.integer n) => if -2147483648 ≤ n ∧ n < 2147483648 then some n else none
  | _ => none

def list? {α : Type} (read : Json → Option α) : Json → Option (List α)
  | .array items => items.mapM read
  | _ => none

/-- The value, or nothing where null stands. -/
def nullable? {α : Type} (read : Json → Option α) : Json → Option (Option α)
  | .null => some none
  | j => (read j).map some

end Rulewright.Json
