/-!
# Replacing text, and lines

Occurrences are replaced from left to right and do not overlap; replaced text is not searched
again. Lines end at a line feed, which may follow a carriage return.

* `replaceAll`: every occurrence of a text replaced by another.
* `lines`: the lines of a text, without their ends.
-/

namespace Rulewright.Text

/-- Replace the occurrences of `old`, passing over the first `skip` characters, which belong to
an occurrence already replaced. -/
def replaceFrom (old new : List Char) : Nat → List Char → List Char
  | _, [] => []
  | skip + 1, _ :: cs => replaceFrom old new skip cs
  | 0, c :: cs =>
    if old.isPrefixOf (c :: cs) then new ++ replaceFrom old new (old.length - 1) cs
    else c :: replaceFrom old new 0 cs

/-- Every occurrence of `old` in the text replaced by `new`. -/
def replaceAll (text old new : String) : String :=
  String.ofList (replaceFrom old.toList new.toList 0 text.toList)

/-- Drop the carriage return that stands first, where the line is held backwards. -/
def dropReturn : List Char → List Char
  | '\r' :: cs => cs
  | cs => cs

/-- The lines of a text whose current line has the characters of `line`, last one first. -/
def linesFrom (line : List Char) : List Char → List String
  | [] => if line.isEmpty then [] else [String.ofList line.reverse]
  | '\n' :: cs => String.ofList (dropReturn line).reverse :: linesFrom [] cs
  | c :: cs => linesFrom (c :: line) cs

/-- The lines of a text. A carriage return stays unless it stands right before a line feed, and
the end of the text ends a line only if the line has characters. -/
def lines (text : String) : List String :=
  linesFrom [] text.toList

end Rulewright.Text
