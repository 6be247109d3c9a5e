/-!
# Tokens of the notation

Blanks are space, tab, carriage return and line feed. They end a word and mean nothing else, so
they may be left out where a token ends without them: before and after parentheses, and around a
metavariable.

An opening parenthesis and the head after it are one token. The head goes up to a blank or a
parenthesis; a word elsewhere also ends at `$`, which starts a metavariable. A word is a literal
if it has the shape of one and is not ended by `$`.

The characters are read one at a time; a `Cursor` says what token they are in.
-/

namespace Rulewright

/-- A term that has no parentheses. -/
inductive Atom where
  | metavar (digits : List Char)
  | literal (text : List Char)
  | name (text : List Char)
  deriving DecidableEq

inductive Token where
  | opening (head : List Char)
  | closing
  | atom (a : Atom)
  deriving DecidableEq

namespace Token

def isBlank (c : Char) : Bool :=
  c == ' ' || c == '\t' || c == '\r' || c == '\n'

/-- The character ends a head and every word. -/
def isDelimiter (c : Char) : Bool :=
  isBlank c || c == '(' || c == ')'

/-- At least one digit, and perhaps a `u` at the end. -/
def isUnsignedLiteral : List Char → Bool
  | [] => false
  | [c] => c.isDigit
  | c :: 'u' :: [] => c.isDigit
  | c :: rest => c.isDigit && isUnsignedLiteral rest

/-- The shape of a literal: digits, perhaps a sign before and a `u` after them. -/
def isLiteral : List Char → Bool
  | '-' :: rest => isUnsignedLiteral rest
  | text => isUnsignedLiteral text

/-- A whole word as an atom. -/
def ofWord (text : List Char) : Token :=
  .atom (if isLiteral text then .literal text else .name text)

/-- The token being read, its characters last one first. -/
inductive Cursor where
  | between
  /-- After an opening parenthesis, before its head. -/
  | opened
  | head (chars : List Char)
  | word (chars : List Char)
  /-- After `$`, with the digits so far. -/
  | metavar (digits : List Char)

/-- A character outside of tokens. -/
def start (c : Char) : List Token × Cursor :=
  if isBlank c then ([], .between)
  else if c == '(' then ([], .opened)
  else if c == ')' then ([.closing], .between)
  else if c == '$' then ([], .metavar [])
  else ([], .word [c])

/-- Finish a token and go on with the character after it. -/
def after (t : Token) (c : Char) : List Token × Cursor :=
  let (ts, cursor) := start c
  (t :: ts, cursor)

/-- Read one character: the tokens it finishes and where it leads. -/
def step : Cursor → Char → Option (List Token × Cursor)
  | .between, c => some (start c)
  | .opened, c =>
    if isBlank c then some ([], .opened)
    else if isDelimiter c then none
    else some ([], .head [c])
  | .head chars, c =>
    if isDelimiter c then some (after (.opening chars.reverse) c)
    else some ([], .head (c :: chars))
  | .word chars, c =>
    if isDelimiter c then some (after (ofWord chars.reverse) c)
    else if c == '$' then some (after (.atom (.name chars.reverse)) c)
    else some ([], .word (c :: chars))
  | .metavar digits, c =>
    if c.isDigit then some ([], .metavar (c :: digits))
    else if digits.isEmpty then none
    else some (after (.atom (.metavar digits.reverse)) c)

/-- The last token, at the end of the text. -/
def finish : Cursor → Option (List Token)
  | .between => some []
  | .opened => none
  | .head chars => some [.opening chars.reverse]
  | .word chars => some [ofWord chars.reverse]
  | .metavar digits => if digits.isEmpty then none else some [.atom (.metavar digits.reverse)]

def scanFrom (cursor : Cursor) : List Char → Option (List Token)
  | [] => finish cursor
  | c :: cs =>
    match step cursor c with
    | none => none
    | some (ts, cursor) => (scanFrom cursor cs).map (ts ++ ·)

/-- The tokens of a text. -/
def scan (text : List Char) : Option (List Token) :=
  scanFrom .between text

end Token

end Rulewright
