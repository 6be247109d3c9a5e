import Rulewright.Code.Walk

/-!
# The text of code

Bodies are indented by four spaces. Nodes that do nothing are written only if they have a comment.
An `else` without effect is left out.
-/

namespace Rulewright.Code

variable (c : Code)

/-- A line of text at a depth. -/
def line (depth : Nat) (text : String) : String :=
  String.join (List.replicate depth "    ") ++ text ++ "\n"

/-- The text with a comment after it. -/
def withComment (text : String) : Option String → String
  | some comment => text ++ " // " ++ comment
  | none => text

/-- The text of the sequence from a node on, in which paths have at most `n` nodes. -/
def renderFrom (root : String) : Nat → Nat → NodeId → String
  | 0, _, _ => ""
  | n + 1, depth, id =>
    let own := match c.node? id with
      | none => ""
      | some node =>
        let plain :=
          let content := withRoot node.kind.content root
          let content := if node.commentedOut then "// " ++ content else content
          line depth (withComment content node.comment)
        match node.kind with
        | .noop | .placeholder =>
          match node.comment with
          | some comment => line depth ("// " ++ comment)
          | none => ""
        | .branch b =>
          if node.commentedOut then plain
          else
            let elseIf := fun k =>
              match c.branch? k with
              | some inner =>
                line depth ("\x7d else if " ++ withRoot inner.guard.text root ++ " \x7b") ++
                  renderFrom root n (depth + 1) inner.thenBody
              | none => ""
            line depth
                (withComment ("if " ++ withRoot b.guard.text root ++ " \x7b") node.comment) ++
              renderFrom root n (depth + 1) b.thenBody ++
              String.join (b.elseIfs.map elseIf) ++
              (if c.isBlank b.elseBody then ""
                else line depth "\x7d else \x7b" ++ renderFrom root n (depth + 1) b.elseBody) ++
              line depth "\x7d"
        | _ => plain
    own ++ match c.next id with
      | some k => renderFrom root n depth k
      | none => ""

/-- The text of the sequence from a node on, at a depth, with a name for the matched term. -/
def render (id : NodeId) (depth : Nat) (root : String) : String :=
  c.renderFrom root c.size depth id

end Rulewright.Code
