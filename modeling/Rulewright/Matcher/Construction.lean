import Rulewright.Error
import Rulewright.Expr.Constant
import Rulewright.Text.Quoted

/-!
# Constructions

A construction is the code that builds a term: calls of the constructors of operators, new values
and variables, and the temporaries of matched nodes. A node with an open operator is built with the
operator of the first node of its group.

A matched node may be used once as it is. Every further use of the same metavariable is a copy, so
that the built term shares no node with itself.
-/

namespace Rulewright

/-- The trails of each metavariable of a pattern, in the order they are met. -/
abbrev MetaTrails := Table MetaId (List Trail)

/-- The trails of each group of a pattern, in the order they are met. -/
abbrev Groups := Table GroupId (List Trail)

/-- Add a trail to the end of those of a key. -/
def Table.pushTrail (t : Table Nat (List Trail)) (key : Nat) (trail : Trail) :
    Table Nat (List Trail) :=
  t.insert key ((t.get? key).getD [] ++ [trail])

/-- The first trail of a key. -/
def Table.firstTrail? (t : Table Nat (List Trail)) (key : Nat) : Option Trail :=
  (t.get? key).bind List.head?

namespace Expr

mutual

/-- The metavariables below a trail with their own trails. An optional operand stands at the trail
of its pattern; its default is not looked into. -/
def metaOccurrences (trail : Trail) : Expr → List (MetaId × Trail)
  | .metavar id => [(id, trail)]
  | .var _ | .literal _ => []
  | .compound inner => inner.metaOccurrences trail
  | .optional pattern _ => pattern.metaOccurrences trail
  | .app _ operands | .anyway _ operands => metaOccurrencesAll trail 0 operands

def metaOccurrencesAll (trail : Trail) (index : Nat) : List Expr → List (MetaId × Trail)
  | [] => []
  | e :: rest =>
    e.metaOccurrences (trail.child index) ++ metaOccurrencesAll trail (index + 1) rest

end

/-- Where each metavariable of a pattern occurs. -/
def metaTrails (e : Expr) : MetaTrails :=
  (e.metaOccurrences Trail.root).foldl (fun t o => t.pushTrail o.1 o.2) Table.empty

end Expr

/-- The pairs of trails that must hold equal terms: the first of a metavariable and each later
one. -/
def MetaTrails.equalities (t : MetaTrails) : List (Trail × Trail) :=
  t.entries.flatMap fun entry =>
    match entry.2 with
    | [] => []
    | first :: later => later.map fun trail => (first, trail)

/-- Code that builds a term. -/
inductive Construction where
  /-- The node at a trail, or a copy of it. -/
  | matched (trail : Trail) (copied : Bool)
  | newVariable (name : String)
  /-- A literal, by its double. -/
  | newValue (double : Int)
  | call (constructor : String) (operands : List Construction)
  /-- An application of the operator of the node at a trail. -/
  | sameOperator (trail : Trail) (operands : List Construction)

namespace Construction

mutual

def text : Construction → String
  | .matched trail copied => trail.temporary ++ if copied then ".deep_copy()" else ""
  | .newVariable name => "_var(" ++ Text.quoted name ++ ")"
  | .newValue double => "_val(" ++ Decimal.intText double ++ ")"
  | .call constructor operands => constructor ++ "(" ++ ", ".intercalate (textAll operands) ++ ")"
  | .sameOperator trail operands =>
    "p.term_factory(" ++ trail.temporary ++ ".op(), vec![" ++
      ", ".intercalate (textAll operands) ++ "])"

def textAll : List Construction → List String
  | [] => []
  | k :: rest => k.text :: textAll rest

end

end Construction

/-- What a construction may refer to. -/
structure Scope where
  language : Language
  metas : MetaTrails
  groups : Groups
  /-- Write a constant part as its value. -/
  foldConstants : Bool

namespace Scope

/-- Writing keeps the metavariables that were used already, also where it fails. -/
abbrev Writer := EStateM CompileError (List MetaId)

def unsupported {α : Type} (reason : Unsupported) : Writer α :=
  throw (.unsupported reason)

/-- The matched node of a metavariable: itself at its first use, then copies. -/
def useMeta (s : Scope) (id : MetaId) : Writer Construction :=
  match s.metas.firstTrail? id with
  | none => unsupported (.unboundMeta id)
  | some trail => do
    let used ← get
    if id ∈ used then return .matched trail true
    else
      set (id :: used)
      return .matched trail false

/-- The value of an application, if constants are folded and it is one. -/
def folded? (s : Scope) (e : Expr) : Option Int :=
  if s.foldConstants && e.isConstant then e.value? s.language else none

mutual

/-- The construction of a term. -/
def write (s : Scope) : Expr → Writer Construction
  | .metavar id => s.useMeta id
  | .var name => return .newVariable name
  | .literal value => return .newValue value.double
  | .compound inner => s.write inner
  | .app symbol operands =>
    match s.folded? (.app symbol operands) with
    | some n => return .newValue (Literal.int n).double
    | none =>
      let name := s.language.name symbol
      match s.language.constructor? name with
      | none => unsupported (.noConstructor name)
      | some constructor => do
        let operands ← s.writeAll operands
        return .call constructor operands
  | .anyway group operands =>
    match s.groups.firstTrail? group with
    | none => unsupported (.unboundGroup group)
    | some trail => do
      let operands ← s.writeAll operands
      return .sameOperator trail operands
  | .optional _ _ => unsupported .optionalReplacement

def writeAll (s : Scope) : List Expr → Writer (List Construction)
  | [] => return []
  | e :: rest => do
    let first ← s.write e
    let others ← s.writeAll rest
    return first :: others

end

/-- The code of a term, given the metavariables used before it. -/
def code (s : Scope) (e : Expr) (used : List MetaId) : Except CompileError String × List MetaId :=
  match (s.write e).run used with
  | .ok construction used => (.ok construction.text, used)
  | .error error used => (.error error, used)

/-- Nothing is bound. -/
def ground (l : Language) : Scope :=
  { language := l, metas := Table.empty, groups := Table.empty, foldConstants := false }

end Scope

/-- The code of a term without metavariables. -/
def Expr.groundCode (l : Language) (e : Expr) : Except CompileError String :=
  ((Scope.ground l).code e []).1

end Rulewright
