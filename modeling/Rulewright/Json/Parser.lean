import Rulewright.Decimal.Digits
import Rulewright.Json.Basic

/-!
# Reading JSON

The text holds one value and blanks around it. There are no comments and no trailing commas; a
number has no leading zeros; a string has no raw controls. A surrogate written by its code without
its partner makes the string, or the object it names a field of, unreadable.

A reader gives a value and the text after it. The readers of values take a bound on the depth of
their recursion. Two steps never pass without a character being read, so twice the length of the
text is enough for every text.
-/

namespace Rulewright.Json

def isBlank (c : Char) : Bool :=
  c == ' ' || c == '\n' || c == '\t' || c == '\r'

def skipBlanks (s : List Char) : List Char := s.dropWhile isBlank

def hexDigit? (c : Char) : Option Nat :=
  if '0' ≤ c ∧ c ≤ '9' then some (c.toNat - '0'.toNat)
  else if 'a' ≤ c ∧ c ≤ 'f' then some (c.toNat - 'a'.toNat + 10)
  else if 'A' ≤ c ∧ c ≤ 'F' then some (c.toNat - 'A'.toNat + 10)
  else none

def hexCode? (a b c d : Char) : Option Nat := do
  let a ← hexDigit? a
  let b ← hexDigit? b
  let c ← hexDigit? c
  let d ← hexDigit? d
  return ((a * 16 + b) * 16 + c) * 16 + d

/-- The character a backslash and this letter stand for. -/
def letterEscape? : Char → Option Char
  | '\"' => some '\"'
  | '\\' => some '\\'
  | '/' => some '/'
  | 'b' => some '\x08'
  | 'f' => some '\x0c'
  | 'n' => some '\n'
  | 'r' => some '\r'
  | 't' => some '\t'
  | _ => none

/-- The code points of a string up to its closing quote, surrogates not yet joined; `done` holds
those already read, last one first. -/
def readCodes (done : List Nat) : List Char → Option (List Nat × List Char)
  | [] => none
  | '\"' :: rest => some (done.reverse, rest)
  | '\\' :: 'u' :: a :: b :: c :: d :: rest =>
    match hexCode? a b c d with
    | some n => readCodes (n :: done) rest
    | none => none
  | '\\' :: c :: rest =>
    match letterEscape? c with
    | some e => readCodes (e.toNat :: done) rest
    | none => none
  | c :: rest =>
    if c == '\\' || c.toNat < 0x20 then none else readCodes (c.toNat :: done) rest

def isHighSurrogate (n : Nat) : Bool := 0xd800 ≤ n && n < 0xdc00

def isLowSurrogate (n : Nat) : Bool := 0xdc00 ≤ n && n < 0xe000

/-- Join surrogate pairs. A surrogate without its partner has no character. -/
def joinSurrogates : List Nat → Option (List Char)
  | [] => some []
  | high :: low :: rest =>
    if isHighSurrogate high then
      if isLowSurrogate low then
        let n := 0x10000 + (high - 0xd800) * 0x400 + (low - 0xdc00)
        (joinSurrogates rest).map (Char.ofNat n :: ·)
      else none
    else if isLowSurrogate high then none
    else (joinSurrogates (low :: rest)).map (Char.ofNat high :: ·)
  | [n] =>
    if isHighSurrogate n || isLowSurrogate n then none else some [Char.ofNat n]

/-- A string after its opening quote; nothing for one that is no text. -/
def readString (s : List Char) : Option (Option String × List Char) :=
  (readCodes [] s).map fun (codes, rest) => ((joinSurrogates codes).map String.ofList, rest)

def ofText : Option String → Json
  | some text => .string text
  | none => .unreadable

/-- The object with these fields, which can be read if all its names are texts. -/
def ofFields (fields : List (Option String × Json)) : Json :=
  match fields.mapM fun (name, value) => name.map (·, value) with
  | some fields => .object fields
  | none => .unreadable

/-- At least one digit. -/
def readDigits (s : List Char) : Option (List Char × List Char) :=
  match s.span Char.isDigit with
  | ([], _) => none
  | (digits, rest) => some (digits, rest)

/-- The digits of a whole number: zero alone, or no zero in front. -/
def readWhole (s : List Char) : Option (List Char × List Char) :=
  match readDigits s with
  | some ('0' :: _ :: _, _) => none
  | r => r

/-- The digits after a point, with the point. -/
def readFraction (s : List Char) : Option (List Char × List Char) :=
  match s with
  | '.' :: s => (readDigits s).map fun (digits, rest) => ('.' :: digits, rest)
  | s => some ([], s)

def isExponentMark (c : Char) : Bool := c == 'e' || c == 'E'

/-- The exponent with its mark. -/
def readExponent (s : List Char) : Option (List Char × List Char) :=
  match s with
  | mark :: sign :: s =>
    if isExponentMark mark then
      if sign == '+' || sign == '-' then
        (readDigits s).map fun (digits, rest) => (mark :: sign :: digits, rest)
      else (readDigits (sign :: s)).map fun (digits, rest) => (mark :: digits, rest)
    else some ([], mark :: sign :: s)
  | [mark] => if isExponentMark mark then none else some ([], [mark])
  | [] => some ([], [])

/-- A number after its sign. -/
def readUnsigned (negative : Bool) (s : List Char) : Option (JsonNumber × List Char) := do
  let (whole, s) ← readWhole s
  let (fraction, s) ← readFraction s
  let (exponent, s) ← readExponent s
  let n := Decimal.ofDigits whole
  if fraction.isEmpty && exponent.isEmpty && !(negative && n == 0) then
    return (.integer (if negative then -(n : Int) else n), s)
  else
    let sign := if negative then ['-'] else []
    return (.real (String.ofList (sign ++ whole ++ fraction ++ exponent)), s)

def readNumber (s : List Char) : Option (JsonNumber × List Char) :=
  match s with
  | '-' :: s => readUnsigned true s
  | s => readUnsigned false s

mutual

def readValue : Nat → List Char → Option (Json × List Char)
  | 0, _ => none
  | depth + 1, s =>
    match skipBlanks s with
    | 'n' :: 'u' :: 'l' :: 'l' :: rest => some (.null, rest)
    | 't' :: 'r' :: 'u' :: 'e' :: rest => some (.bool true, rest)
    | 'f' :: 'a' :: 'l' :: 's' :: 'e' :: rest => some (.bool false, rest)
    | '\"' :: rest => (readString rest).map fun (text, rest) => (ofText text, rest)
    | '[' :: rest =>
      match skipBlanks rest with
      | ']' :: rest => some (.array [], rest)
      | rest => (readItems depth rest).map fun (items, rest) => (.array items, rest)
    | '\x7b' :: rest =>
      match skipBlanks rest with
      | '\x7d' :: rest => some (.object [], rest)
      | rest => (readFields depth rest).map fun (fields, rest) => (ofFields fields, rest)
    | rest => (readNumber rest).map fun (n, rest) => (.number n, rest)

/-- The items of an array that is not empty, and its closing bracket. -/
def readItems : Nat → List Char → Option (List Json × List Char)
  | 0, _ => none
  | depth + 1, s => do
    let (item, rest) ← readValue depth s
    match skipBlanks rest with
    | ',' :: rest => (readItems depth rest).map fun (items, rest) => (item :: items, rest)
    | ']' :: rest => some ([item], rest)
    | _ => none

/-- The fields of an object that is not empty, and its closing brace. -/
def readFields : Nat → List Char → Option (List (Option String × Json) × List Char)
  | 0, _ => none
  | depth + 1, s => do
    let (name, rest) ← match skipBlanks s with
      | '\"' :: rest => readString rest
      | _ => none
    let (value, rest) ← match skipBlanks rest with
      | ':' :: rest => readValue depth rest
      | _ => none
    match skipBlanks rest with
    | ',' :: rest =>
      (readFields depth rest).map fun (fields, rest) => ((name, value) :: fields, rest)
    | '\x7d' :: rest => some ([(name, value)], rest)
    | _ => none

end

/-- The value of a JSON text. -/
def parse? (text : String) : Option Json := do
  let s := text.toList
  let (value, rest) ← readValue (2 * s.length + 2) s
  if (skipBlanks rest).isEmpty then some value else none

end Rulewright.Json
