import Rulewright.Expr.Literal
import Rulewright.Language.Basic
import Rulewright.Trail

/-!
# Terms and patterns

Terms and the patterns of rules share one type. A ground term has variables, literals and
applications only. A pattern may also have metavariables, which stand for any term; operands that
may be missing, with the term to use then; and applications of an operator that is left open, all
those of one group having the same one. A compound wrapper means what it wraps.
-/

namespace Rulewright

/-- The number of a metavariable. -/
abbrev MetaId := Nat

/-- The number of a group of applications that share their operator. -/
abbrev GroupId := Nat

inductive Expr where
  | metavar (id : MetaId)
  | var (name : String)
  | literal (value : Literal)
  | app (symbol : SymbolId) (operands : List Expr)
  | compound (inner : Expr)
  | optional (pattern default : Expr)
  | anyway (group : GroupId) (operands : List Expr)

namespace Expr

instance : Inhabited Expr := ⟨.metavar 0⟩

mutual

def decEq : (a b : Expr) → Decidable (a = b)
  | .metavar i, .metavar j => decidable_of_iff (i = j) (by simp)
  | .var x, .var y => decidable_of_iff (x = y) (by simp)
  | .literal x, .literal y => decidable_of_iff (x = y) (by simp)
  | .app f xs, .app g ys =>
    have := decEqList xs ys
    decidable_of_iff (f = g ∧ xs = ys) (by simp)
  | .compound a, .compound b =>
    have := decEq a b
    decidable_of_iff (a = b) (by simp)
  | .optional p d, .optional p' d' =>
    have := decEq p p'
    have := decEq d d'
    decidable_of_iff (p = p' ∧ d = d') (by simp)
  | .anyway g xs, .anyway h ys =>
    have := decEqList xs ys
    decidable_of_iff (g = h ∧ xs = ys) (by simp)
  | .metavar _, .var _ | .metavar _, .literal _ | .metavar _, .app _ _
  | .metavar _, .compound _ | .metavar _, .optional _ _ | .metavar _, .anyway _ _
  | .var _, .metavar _ | .var _, .literal _ | .var _, .app _ _
  | .var _, .compound _ | .var _, .optional _ _ | .var _, .anyway _ _
  | .literal _, .metavar _ | .literal _, .var _ | .literal _, .app _ _
  | .literal _, .compound _ | .literal _, .optional _ _ | .literal _, .anyway _ _
  | .app _ _, .metavar _ | .app _ _, .var _ | .app _ _, .literal _
  | .app _ _, .compound _ | .app _ _, .optional _ _ | .app _ _, .anyway _ _
  | .compound _, .metavar _ | .compound _, .var _ | .compound _, .literal _
  | .compound _, .app _ _ | .compound _, .optional _ _ | .compound _, .anyway _ _
  | .optional _ _, .metavar _ | .optional _ _, .var _ | .optional _ _, .literal _
  | .optional _ _, .app _ _ | .optional _ _, .compound _ | .optional _ _, .anyway _ _
  | .anyway _ _, .metavar _ | .anyway _ _, .var _ | .anyway _ _, .literal _
  | .anyway _ _, .app _ _ | .anyway _ _, .compound _ | .anyway _ _, .optional _ _ =>
    isFalse (by simp)

def decEqList : (a b : List Expr) → Decidable (a = b)
  | [], [] => isTrue rfl
  | x :: xs, y :: ys =>
    have := decEq x y
    have := decEqList xs ys
    decidable_of_iff (x = y ∧ xs = ys) (by simp)
  | [], _ :: _ | _ :: _, [] => isFalse (by simp)

end

instance : DecidableEq Expr := decEq

/-- The operands of an application. -/
def operands : Expr → List Expr
  | .app _ operands | .anyway _ operands => operands
  | _ => []

mutual

/-- How many terms are reached from a term through operands, itself included. -/
def reach : Expr → Nat
  | .app _ operands | .anyway _ operands => 1 + reachAll operands
  | _ => 1

/-- The sum over a list of terms. -/
def reachAll : List Expr → Nat
  | [] => 0
  | e :: rest => e.reach + reachAll rest

end

/-- All direct parts of a term. -/
def children : Expr → List Expr
  | .compound inner => [inner]
  | .optional pattern default => [pattern, default]
  | .app _ operands | .anyway _ operands => operands
  | _ => []

/-- The term under its compound wrappers. -/
def unwrap : Expr → Expr
  | .compound inner => inner.unwrap
  | e => e

def isOptional : Expr → Bool
  | .optional _ _ => true
  | _ => false

/-- The part at a trail. Wrappers do not count as steps. -/
def sub? (e : Expr) : Trail → Option Expr
  | [] => some e
  | index :: rest =>
    match e.unwrap.operands[index]? with
    | some operand => operand.sub? rest
    | none => none

mutual

/-- The metavariables of a term, in the order they occur. -/
def metaList : Expr → List MetaId
  | .metavar id => [id]
  | .var _ | .literal _ => []
  | .app _ operands | .anyway _ operands => metaListAll operands
  | .compound inner => inner.metaList
  | .optional pattern default => pattern.metaList ++ default.metaList

def metaListAll : List Expr → List MetaId
  | [] => []
  | e :: rest => e.metaList ++ metaListAll rest

end

/-- The metavariables of a term, ascending. -/
def metas (e : Expr) : List MetaId := sortedSet e.metaList

/-- The name of the root: that of its symbol or variable. -/
def operator? (l : Language) (e : Expr) : Option String :=
  match e.unwrap with
  | .app symbol _ => some (l.name symbol)
  | .var name => some name
  | _ => none

mutual

/-- The names of the symbols of a term, in the order they occur. -/
def operatorList (l : Language) : Expr → List String
  | .metavar _ | .var _ | .literal _ => []
  | .app symbol operands => l.name symbol :: operatorListAll l operands
  | .anyway _ operands => operatorListAll l operands
  | .compound inner => inner.operatorList l
  | .optional pattern default => pattern.operatorList l ++ default.operatorList l

def operatorListAll (l : Language) : List Expr → List String
  | [] => []
  | e :: rest => e.operatorList l ++ operatorListAll l rest

end

/-- The names of the symbols of a term, sorted. -/
def operators (l : Language) (e : Expr) : List String := sortedSet (e.operatorList l)

end Expr

end Rulewright
