import Rulewright.Json.Basic

/-!
# Writing JSON

Values are written without blanks. In strings the quote, the backslash and the controls are
escaped; every other character is written as it is. A value that cannot be read is written as null.
-/

namespace Rulewright.Json

def escapeCode4 (n : Nat) : List Char :=
  let digits := Nat.toDigits 16 n
  ['\\', 'u'] ++ List.replicate (4 - digits.length) '0' ++ digits

def escapeChar (c : Char) : List Char :=
  if c = '\"' then ['\\', '\"']
  else if c = '\\' then ['\\', '\\']
  else if c = '\n' then ['\\', 'n']
  else if c = '\r' then ['\\', 'r']
  else if c = '\t' then ['\\', 't']
  else if c.toNat < 0x20 then escapeCode4 c.toNat
  else [c]

def renderString (text : String) : String :=
  String.ofList ('\"' :: text.toList.flatMap escapeChar ++ ['\"'])

def JsonNumber.render : JsonNumber → String
  | .integer n => toString n
  | .real text => text

mutual

def render : Json → String
  | .null | .unreadable => "null"
  | .bool b => if b then "true" else "false"
  | .number n => JsonNumber.render n
  | .string text => renderString text
  | .array items => "[" ++ ",".intercalate (renderItems items) ++ "]"
  | .object fields => "\x7b" ++ ",".intercalate (renderFields fields) ++ "\x7d"

def renderItems : List Json → List String
  | [] => []
  | j :: rest => j.render :: renderItems rest

def renderFields : List (String × Json) → List String
  | [] => []
  | (name, j) :: rest => (renderString name ++ ":" ++ j.render) :: renderFields rest

end

end Rulewright.Json
