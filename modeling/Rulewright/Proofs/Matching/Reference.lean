import Rulewright.Proofs.Chain.Rule
import Rulewright.Rule.Definition

/-!
# What a rule matches

The meaning of patterns, without code. A pattern is compared with a term from the root down, operand
by operand, and what its metavariables stand for is captured, as is the operator of the first node
of each group.

* `Expr.capture?`: the comparison of a pattern with a term.
* `Rule.accepts`: the rule applies to a term. The captured terms of each metavariable are equal, and
  the conditions are granted.
* `Expr.UsesCounts`: operators have the operand counts that the language declares for them.
* `Expr.IsRead`: what terms have in common that were read from a text.
-/

namespace Rulewright

/-- What a comparison has captured: the terms of metavariables in the order they were met, and the
operators of the first nodes of groups. -/
structure Captures where
  metas : List (MetaId × Expr)
  heads : List (GroupId × Option String)

namespace Captures

def empty : Captures := ⟨[], []⟩

/-- A metavariable stands for a term. -/
def take (c : Captures) (id : MetaId) (e : Expr) : Captures :=
  { c with metas := c.metas ++ [(id, e)] }

/-- A node of a group has an operator. That of the first node counts. -/
def enter (c : Captures) (group : GroupId) (operator : Option String) : Captures :=
  { c with heads := c.heads ++ [(group, operator)] }

/-- The node may belong to the group: it is the first one or has the operator of the first one. -/
def agrees (c : Captures) (group : GroupId) (operator : Option String) : Bool :=
  match c.heads.lookup group with
  | none => true
  | some first => first.isSome && first == operator

/-- The terms of each metavariable are equal. -/
def consistent (c : Captures) : Bool :=
  c.metas.all fun p => c.metas.all fun q => p.1 != q.1 || p.2 == q.2

end Captures

namespace Expr

/-- The default of an operand that may be missing. -/
def default? (e : Expr) : Option Expr :=
  match e.unwrap with
  | .optional _ default => some default.unwrap
  | _ => none

theorem default?_eq_none {e : Expr} (h : ∀ pattern default, e.unwrap ≠ .optional pattern default) :
    e.default? = none := by
  unfold default?
  split
  · rename_i pattern default he
    exact absurd he (h pattern default)
  · rfl

/-- The node has this operator. -/
def hasOperator (l : Language) (name : String) : Expr → Bool
  | .app symbol _ => l.name symbol == name
  | _ => false

/-- The terms that two operands are compared with, one of which may be missing, `complete` adding
its default to the other one. Below the root the whole node may be missing, and the term is the
other operand. -/
def forms (root fits : Bool) (e : Expr) (complete : Expr → List Expr) : Option (List Expr) :=
  match fits, e.operands with
  | true, [x, y] => some [x, y]
  | true, [x] => some (complete x)
  | _, _ => if root then none else some (complete e)

/-- The terms that the operands of a pattern node are compared with. `fits` says that the operator
is right. -/
def operandTerms? (root fits : Bool) (patterns : List Expr) (e : Expr) : Option (List Expr) :=
  let plain := if fits && e.operands.length == patterns.length then some e.operands else none
  match patterns with
  | [a, b] =>
    match a.default?, b.default? with
    | some d, _ => forms root fits e fun x => [d, x]
    | none, some d => forms root fits e fun x => [x, d]
    | none, none => plain
  | _ => plain

mutual

/-- Compare a pattern with a term. -/
def capture? (l : Language) : Expr → Bool → Expr → Captures → Option Captures
  | .metavar id, _, e, c => some (c.take id e)
  | .var name, _, e, c => if e = .var name then some c else none
  | .literal value, _, e, c =>
    match e.literal? with
    | some v => if v.double = value.double then some c else none
    | none => none
  | .compound p, root, e, c | .optional p _, root, e, c => capture? l p root e c
  | .app symbol ps, root, e, c =>
    (operandTerms? root (e.hasOperator l (l.name symbol)) ps e).bind fun es => captureAll? l ps es c
  | .anyway group ps, root, e, c =>
    (operandTerms? root (c.agrees group (e.operator? l)) ps e).bind fun es =>
      captureAll? l ps es (c.enter group (e.operator? l))

/-- Compare patterns with terms, in order. -/
def captureAll? (l : Language) : List Expr → List Expr → Captures → Option Captures
  | [], [], c => some c
  | p :: ps, e :: es, c => (capture? l p false e c).bind fun c => captureAll? l ps es c
  | _, _, _ => none

end

mutual

/-- The groups below a trail with the trails of their nodes. -/
def groupOccurrences (trail : Trail) : Expr → List (GroupId × Trail)
  | .metavar _ | .var _ | .literal _ => []
  | .compound p | .optional p _ => p.groupOccurrences trail
  | .app _ ps => groupOccurrencesAll trail 0 ps
  | .anyway group ps => (group, trail) :: groupOccurrencesAll trail 0 ps

def groupOccurrencesAll (trail : Trail) (index : Nat) : List Expr → List (GroupId × Trail)
  | [] => []
  | p :: ps => p.groupOccurrences (trail.child index) ++ groupOccurrencesAll trail (index + 1) ps

end

/-- Where the nodes of each group of a pattern stand. -/
def groupTrails (e : Expr) : Groups :=
  (e.groupOccurrences Trail.root).foldl (fun t o => t.pushTrail o.1 o.2) Table.empty

end Expr

namespace Rule

/-- The conditions of a rule are granted: there are none, or the predicate holds of their text. -/
def grants (l : Language) (free : String → Bool) (r : Rule) : Bool :=
  let scope : Scope :=
    { language := l, metas := r.pattern.metaTrails, groups := r.pattern.groupTrails,
      foldConstants := false }
  match Matcher.conditionCodes scope r with
  | .ok texts => texts.isEmpty || free (withRoot (" && ".intercalate texts) "formula")
  | .error _ => false

/-- The rule applies to a term. -/
def accepts (l : Language) (free : String → Bool) (r : Rule) (e : Expr) : Bool :=
  (r.pattern.capture? l true e Captures.empty).any Captures.consistent && r.grants l free

end Rule

/-! ### Conditions on patterns and terms -/

namespace Expr

mutual

/-- The term is made of variables, literals and applications. -/
def isGround : Expr → Bool
  | .var _ | .literal _ => true
  | .app _ operands => allGround operands
  | _ => false

def allGround : List Expr → Bool
  | [] => true
  | e :: rest => e.isGround && allGround rest

end

/-- The operator takes this many operands: the language declares the count, or it declares none and
the count is the one chosen for the operator. -/
def takes (l : Language) (count : String → Nat) (name : String) (n : Nat) : Prop :=
  match l.arities? name with
  | some counts => n ∈ counts
  | none => n = count name

mutual

/-- Operators are used with the counts they take, nodes with an optional operand apart. -/
def UsesCounts (l : Language) (count : String → Nat) : Expr → Prop
  | .metavar _ | .var _ | .literal _ => True
  | .compound p | .optional p _ => p.UsesCounts l count
  | .app symbol ps =>
    ((∃ p ∈ ps, p.default?.isSome) ∨ takes l count (l.name symbol) ps.length) ∧
    AllUseCounts l count ps
  | .anyway _ ps => AllUseCounts l count ps

def AllUseCounts (l : Language) (count : String → Nat) : List Expr → Prop
  | [] => True
  | p :: ps => p.UsesCounts l count ∧ AllUseCounts l count ps

end

mutual

/-- Names are read as the language has them: symbols under their own names, and no variable under
the name of a symbol. -/
def IsRead (l : Language) : Expr → Prop
  | .metavar _ | .literal _ => True
  | .var name => l.id? name = none
  | .app symbol operands => l.id? (l.name symbol) = some symbol ∧ AllRead l operands
  | .compound inner => inner.IsRead l
  | .optional pattern default => pattern.IsRead l ∧ default.IsRead l
  | .anyway _ operands => AllRead l operands

def AllRead (l : Language) : List Expr → Prop
  | [] => True
  | e :: rest => e.IsRead l ∧ AllRead l rest

end

/-- A term that patterns are compared with. -/
structure IsTerm (l : Language) (count : String → Nat) (e : Expr) : Prop where
  ground : e.isGround = true
  read : e.IsRead l
  counts : e.UsesCounts l count

theorem mem_allGround {es : List Expr} (h : allGround es = true) {x : Expr} (hx : x ∈ es) :
    x.isGround = true := by
  induction es with
  | nil => cases hx
  | cons e rest ih =>
    rw [allGround, Bool.and_eq_true] at h
    rcases List.mem_cons.1 hx with rfl | hx
    · exact h.1
    · exact ih h.2 hx

theorem mem_allRead {l : Language} {es : List Expr} (h : AllRead l es) {x : Expr} (hx : x ∈ es) :
    x.IsRead l := by
  induction es with
  | nil => cases hx
  | cons e rest ih =>
    rcases List.mem_cons.1 hx with rfl | hx
    · exact h.1
    · exact ih h.2 hx

theorem mem_allUseCounts {l : Language} {count : String → Nat} {es : List Expr}
    (h : AllUseCounts l count es) {x : Expr} (hx : x ∈ es) : x.UsesCounts l count := by
  induction es with
  | nil => cases hx
  | cons e rest ih =>
    rcases List.mem_cons.1 hx with rfl | hx
    · exact h.1
    · exact ih h.2 hx

theorem default?_of_ground {e : Expr} (h : e.isGround = true) : e.default? = none := by
  cases e with
  | var name => rfl
  | literal value => rfl
  | app symbol operands => rfl
  | _ => cases h

namespace IsTerm

variable {l : Language} {count : String → Nat} {e : Expr}

theorem operand (h : e.IsTerm l count) {x : Expr} (hx : x ∈ e.operands) : x.IsTerm l count := by
  cases e with
  | app symbol operands =>
    exact ⟨mem_allGround h.ground hx, mem_allRead h.read.2 hx, mem_allUseCounts h.counts.2 hx⟩
  | anyway group operands => cases h.ground
  | _ => cases hx

/-- The operator of a term is a symbol of the language or a variable of another name. -/
theorem operator?_eq_some (h : e.IsTerm l count) {name : String} :
    e.operator? l = some name ↔
    (∃ symbol operands, e = .app symbol operands ∧ l.name symbol = name) ∨ e = .var name := by
  cases e with
  | app symbol operands => simp [operator?, unwrap]
  | var x => simp [operator?, unwrap]
  | literal value => simp [operator?, unwrap]
  | _ => cases h.ground

theorem takes (h : e.IsTerm l count) {name : String} (hid : (l.id? name).isSome)
    (hop : e.operator? l = some name) : Expr.takes l count name e.operands.length := by
  rcases h.operator?_eq_some.1 hop with ⟨symbol, operands, rfl, rfl⟩ | rfl
  · rcases h.counts.1 with ⟨p, hp, hd⟩ | ht
    · rw [default?_of_ground (mem_allGround h.ground hp)] at hd
      cases hd
    · exact ht
  · rw [show l.id? name = none from h.read] at hid
    cases hid

theorem hasOperator_eq (h : e.IsTerm l count) {name : String} (hid : (l.id? name).isSome) :
    e.hasOperator l name = (e.operator? l == some name) := by
  cases e with
  | app symbol operands => simp [hasOperator, operator?, unwrap]
  | var x =>
    have : x ≠ name := by
      rintro rfl
      rw [show l.id? x = none from h.read] at hid
      cases hid
    simp [hasOperator, operator?, unwrap, this]
  | literal value => rfl
  | _ => cases h.ground

theorem eq_var_iff (h : e.IsTerm l count) {name : String} (hid : l.id? name = none) :
    e = .var name ↔ e.operator? l = some name := by
  rw [h.operator?_eq_some]
  refine ⟨Or.inr, fun hor => hor.resolve_left ?_⟩
  rintro ⟨symbol, operands, rfl, rfl⟩
  rw [show l.id? (l.name symbol) = some symbol from h.read.1] at hid
  cases hid

end IsTerm

end Expr

end Rulewright
