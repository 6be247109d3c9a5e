import Rulewright.Text.Mark
import Rulewright.Text.Unprintable

/-!
# Quoted text

A quoted text stands between double quotes. Quote and backslash get a backslash, the common
controls their letter, and a character that is not printed, or that would be drawn into the one
before it, is written by its code point in hexadecimal.
-/

namespace Rulewright.Text

/-- A character by its code point. -/
def escapeCode (c : Char) : List Char :=
  ['\\', 'u', '\x7b'] ++ Nat.toDigits 16 c.toNat ++ ['\x7d']

/-- A character as it stands between double quotes. -/
def escapeChar (c : Char) : List Char :=
  if c = '\x00' then ['\\', '0']
  else if c = '\t' then ['\\', 't']
  else if c = '\r' then ['\\', 'r']
  else if c = '\n' then ['\\', 'n']
  else if c = '\"' then ['\\', '\"']
  else if c = '\\' then ['\\', '\\']
  else if isMark c || !isPrintable c then escapeCode c
  else [c]

/-- The text between double quotes. -/
def quoted (text : String) : String :=
  String.ofList ('\"' :: text.toList.flatMap escapeChar ++ ['\"'])

end Rulewright.Text
