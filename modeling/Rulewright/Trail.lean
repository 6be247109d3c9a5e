import Rulewright.Text.Substitute

/-!
# Trails

A trail is the path from the root of a term down to one of its nodes, a position per step. Matcher
code keeps the node at a trail in a temporary named after the trail. The name of the matched term
itself is left open: texts say `@formula`, and `withRoot` puts a name in its place.
-/

namespace Rulewright

/-- The positions on the way from the root to a node. -/
abbrev Trail := List Nat

namespace Trail

def root : Trail := []

/-- The trail of an operand of the node at `t`. -/
def child (t : Trail) (index : Nat) : Trail := t ++ [index]

/-- The trail of the parent and the position below it. -/
def split? (t : Trail) : Option (Trail × Nat) :=
  t.getLast?.map fun index => (t.dropLast, index)

/-- The trail as the end of a name. -/
def text (t : Trail) : String :=
  String.join (t.map fun index => "_" ++ toString index)

/-- What stands for the matched term in texts. -/
def rootMark : String := "@formula"

/-- The name of the temporary that holds the node at a trail. -/
def temporary (t : Trail) : String := rootMark ++ t.text

/-- The text that reads the node at a trail through the temporary of its parent. -/
def access (t : Trail) : String :=
  match t.split? with
  | none => temporary root
  | some (parent, index) => parent.temporary ++ ".operand(" ++ toString index ++ ")"

end Trail

/-- The text with a name for the matched term. -/
def withRoot (text root : String) : String :=
  Text.replaceAll text Trail.rootMark root

end Rulewright
