import Rulewright.Expr.Token

/-!
# Forms

A form is the tree of a text in the notation of terms, before its words get a meaning: atoms, and
lists with a head. A text is well formed if its tokens are those of one form.
-/

namespace Rulewright

inductive Form where
  | atom (a : Atom)
  | list (head : List Char) (items : List Form)

namespace Form

mutual

/-- The tokens of a form. -/
def tokens : Form → List Token
  | .atom a => [.atom a]
  | .list head items => .opening head :: tokensAll items ++ [.closing]

def tokensAll : List Form → List Token
  | [] => []
  | f :: rest => f.tokens ++ tokensAll rest

end

/-- A list whose end is not read yet: its head and its items, last one first. -/
abbrev Frame := List Char × List Form

/-- The form of the tokens, inside of lists that are still open, innermost first. -/
def assemble : List Frame → List Token → Option Form
  | _, [] => none
  | frames, .opening head :: rest => assemble ((head, []) :: frames) rest
  | [], .closing :: _ => none
  | [(head, items)], .closing :: rest =>
    if rest.isEmpty then some (.list head items.reverse) else none
  | (head, items) :: (outer, before) :: frames, .closing :: rest =>
    assemble ((outer, .list head items.reverse :: before) :: frames) rest
  | [], .atom a :: rest => if rest.isEmpty then some (.atom a) else none
  | (head, items) :: frames, .atom a :: rest => assemble ((head, .atom a :: items) :: frames) rest

/-- The form with these tokens. -/
def ofTokens? (tokens : List Token) : Option Form :=
  assemble [] tokens

/-- The form of a text. -/
def ofText? (text : String) : Option Form :=
  (Token.scan text.toList).bind ofTokens?

end Form

end Rulewright
