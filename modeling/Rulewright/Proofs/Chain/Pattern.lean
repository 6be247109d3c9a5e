import Rulewright.Matcher.Rule
import Rulewright.Proofs.Chain.Basic

/-!
# The chain of a pattern

What the matcher of a pattern is, said without a store of nodes: `patternChain` goes through the
pattern and plugs the chain of each operand into the chain so far. A metavariable has no chain.

* `Chain.attach`: the chain of an operand is plugged in, its first comparison joined with a count of
  operands if there is one to join it with.
* `patternChain_tidy`: chains have the form that the search for placeholders and for first branches
  relies on.
-/

namespace Rulewright

/-- Induction over patterns, a pattern and a list of operands at a time. -/
theorem Expr.induct {P : Expr → Prop} {Q : List Expr → Prop} (metavar : ∀ id, P (.metavar id))
    (var : ∀ name, P (.var name)) (literal : ∀ value, P (.literal value))
    (app : ∀ symbol operands, Q operands → P (.app symbol operands))
    (compound : ∀ inner, P inner → P (.compound inner))
    (optional : ∀ pattern default, P pattern → P default → P (.optional pattern default))
    (anyway : ∀ group operands, Q operands → P (.anyway group operands)) (nil : Q [])
    (cons : ∀ e rest, P e → Q rest → Q (e :: rest)) : (∀ e, P e) ∧ ∀ es, Q es :=
  ⟨fun e => Expr.rec metavar var literal app compound optional anyway nil cons e,
    fun es => Expr.rec_1 metavar var literal app compound optional anyway nil cons es⟩

namespace Matcher

/-- The pattern is a node of this shape over these operands. Variables and literals have none. -/
inductive IsNode (l : Language) : Expr → Shape → List Expr → Prop
  | var (name : String) : IsNode l (.var name) (.var name) []
  | literal (value : Literal) : IsNode l (.literal value) (.literal value) []
  | app (symbol : SymbolId) (operands : List Expr) :
      IsNode l (.app symbol operands) (.symbol (l.name symbol)) operands
  | anyway (group : GroupId) (operands : List Expr) :
      IsNode l (.anyway group operands) (.anyway group) operands

/-- Induction over patterns whose nodes are treated alike, whatever their shape. -/
theorem pattern_induct (l : Language) {P : Expr → Prop} {Q : List Expr → Prop}
    (metavar : ∀ id, P (.metavar id)) (compound : ∀ inner, P inner → P (.compound inner))
    (optional : ∀ pattern default, P pattern → P default → P (.optional pattern default))
    (node : ∀ e shape operands, IsNode l e shape operands → Q operands → P e) (nil : Q [])
    (cons : ∀ e rest, P e → Q rest → Q (e :: rest)) : (∀ e, P e) ∧ ∀ es, Q es := by
  apply Expr.induct metavar
  case var => exact fun name => node _ _ _ (.var name) nil
  case literal => exact fun value => node _ _ _ (.literal value) nil
  case app => exact fun symbol operands => node _ _ _ (.app symbol operands)
  case compound => exact compound
  case optional => exact optional
  case anyway => exact fun group operands => node _ _ _ (.anyway group operands)
  case nil => exact nil
  case cons => exact cons

/-- The matcher of a node. -/
def matchNode (o : Options) (l : Language) (shape : Shape) (trail : Trail) (operands : List Expr) :
    Build NodeId := do
  let line ← alloc .noop
  let (target, skipped) ← enter o l shape trail operands line
  matchOperands o l line target skipped trail 0 operands
  leavePlaceholder target
  return line

theorem IsNode.matchPattern_eq {o : Options} {l : Language} {e : Expr} {shape : Shape}
    {operands : List Expr} (h : IsNode l e shape operands) (trail : Trail) :
    matchPattern o l e trail = matchNode o l shape trail operands := by
  cases h <;> simp only [matchPattern, matchNode, matchOperands, pure_bind]

end Matcher

namespace Chain

open Stmt

variable {ι : Type}

/-- The outermost branch of a chain. -/
structure Front (ι : Type) where
  check : ι
  guard : Guard
  inner : Chain ι
  otherwise : ι

/-- The outermost branch of a chain that does nothing before it. -/
def front? : Chain ι → Option (Front ι)
  | .hole _ _ _ => none
  | .under before check guard inner otherwise _ =>
    if before.any isMeaningful then none else some ⟨check, guard, inner, otherwise⟩

/-- The guard of the outermost branch replaced. -/
def setGuard (guard : Guard) : Chain ι → Chain ι
  | .hole before mark after => .hole before mark after
  | .under before check _ inner otherwise after => .under before check guard inner otherwise after

/-- The chain under the outermost branch. -/
def body : Chain ι → Chain ι
  | .hole before mark after => .hole before mark after
  | .under _ _ _ inner _ _ => inner

/-- The guard that joins a count of operands at the start of one chain with a comparison of
operators at the start of another. -/
def joinGuard? (k r : Chain ι) : Option Guard :=
  match k.front?.bind (·.guard.operandCountCheck?), r.front?.bind (·.guard.operatorPairing?) with
  | some (countAt, count), some (first, second) =>
    (Guard.anyway? countAt first second count).toOption
  | _, _ => none

/-- The chain of an operand at the innermost point of the chain so far. A comparison that can be
joined with a count of operands loses its branch. -/
def attach (joins : Bool) (new : ι) (k r : Chain ι) : Chain ι :=
  match if joins then joinGuard? k r else none with
  | some guard => (k.setGuard guard).plug (r.body.surround [noop new] [])
  | none => k.plug r

variable {k r : Chain ι}

theorem eq_under_of_front? {x : Front ι} (h : k.front? = some x) :
    ∃ before after, k = .under before x.check x.guard x.inner x.otherwise after := by
  cases k with
  | hole before mark after => cases h
  | under before check guard inner otherwise after =>
    rw [front?] at h
    split_ifs at h
    cases h
    exact ⟨before, after, rfl⟩

@[simp] theorem mark?_setGuard (guard : Guard) (k : Chain ι) :
    (k.setGuard guard).mark? = k.mark? := by
  cases k <;> rfl

@[simp] theorem mark?_body (k : Chain ι) : k.body.mark? = k.mark? := by
  cases k <;> rfl

@[simp] theorem mark?_attach (joins : Bool) (new : ι) (k r : Chain ι) :
    (k.attach joins new r).mark? = r.mark? := by
  unfold attach
  split <;> simp

theorem Tidy.setGuard (h : k.Tidy) (guard : Guard) : (k.setGuard guard).Tidy := by
  cases k <;> exact h

theorem Tidy.body (h : k.Tidy) : k.body.Tidy := by
  cases k with
  | hole before mark after => exact h
  | under before check guard inner otherwise after => exact h.2

theorem Tidy.attach (hk : k.Tidy) (hr : r.Tidy) (joins : Bool) (new : ι) :
    (k.attach joins new r).Tidy := by
  unfold Chain.attach
  split
  · exact (hk.setGuard _).plug (hr.body.surround (tidyLine_noop new) [])
  · exact hk.plug hr

theorem Busy.attach (hk : k.Busy) (joins : Bool) (new : ι) (r : Chain ι) :
    (k.attach joins new r).Busy := by
  have hset : ∀ guard, (k.setGuard guard).Busy := fun guard => by cases k <;> exact hk
  unfold Chain.attach
  split
  · exact (hset _).plug _
  · exact hk.plug r

end Chain

namespace Matcher

open Stmt

variable {o : Options} {l : Language} {shape : Shape} {e : Entry} {operands : List Expr}

/-- The trail of the earlier node of the group of a node. -/
def Shape.pending? (groups : Groups) : Shape → Option Trail
  | .anyway group => groups.firstTrail? group
  | _ => none

/-- The groups with the node at a trail in its own one. -/
def Shape.joinGroup (groups : Groups) (trail : Trail) : Shape → Groups
  | .anyway group => groups.pushTrail group trail
  | _ => groups

/-- The definitions of operands, the first one being number `index`. -/
def operandLines (trail : Trail) (index : Nat) : Nat → List (Stmt Unit)
  | 0 => []
  | count + 1 =>
    fresh () (.definition (trail.child index) (.operand trail index) true) ::
      operandLines trail (index + 1) count

/-- A chain and the number of branches above the sequence that the matchers of the operands go to.
-/
abbrev Entry := Chain Unit × Nat

/-- A branch around a chain. -/
def guarded (guard : Guard) (inner : Chain Unit) : Chain Unit :=
  .under [noop ()] () guard inner () []

def impliedStmt (guard : Guard) : Stmt Unit :=
  fresh () (.custom ("// implied by dispatch: " ++ guard.text))

/-- The check of a node and its operands. -/
def plainEntry (o : Options) (trail : Trail) (guard : Guard) (pending : Option Trail)
    (count : Nat) : Entry :=
  if o.skipRootGuard && trail.isEmpty && pending.isNone then
    (.hole (noop () :: impliedStmt guard :: operandLines trail 0 count) none [], 0)
  else
    let inner : Chain Unit := .hole (noop () :: operandLines trail 0 count) none []
    match pending with
    | none => (guarded guard inner, 1)
    | some first => (guarded (.sameOperator first trail) (guarded guard inner), 2)

/-- Assignments to two temporaries. -/
def assignments (first second : Trail × Binding) : List (Stmt Unit) :=
  [noop (), fresh () (.definition first.1 first.2 false),
    fresh () (.definition second.1 second.2 false)]

def declarations (trail : Trail) : List (Stmt Unit) :=
  [fresh () (.declaration (trail.child 0)), fresh () (.declaration (trail.child 1))]

/-- Both operands of a root, the two forms being `full` and `short`. -/
def optionalRootEntry (o : Options) (l : Language) (shape : Shape) (trail : Trail)
    (full short : List (Stmt Unit)) : Option Entry :=
  match shape with
  | .symbol name =>
    if takesOneOrTwo l name then
      let choice : Stmt Unit := .branch () (.operandCountIs trail 2) full short []
      if o.skipRootGuard then
        some (.hole (noop () :: impliedStmt (.operatorIs trail name) :: declarations trail ++
          [choice]) none [], 0)
      else
        some (guarded (.operatorIs trail name)
          (.hole (noop () :: declarations trail ++ [choice]) none []), 1)
    else none
  | _ => none

/-- Both operands of a node of which the one at `position` is optional. -/
def optionalEntry (o : Options) (l : Language) (shape : Shape) (trail : Trail) (position : Nat)
    (pattern default : Expr) (pending : Option Trail) : Option Entry :=
  match pattern.unwrap, default.unwrap.groundCode l, shape.countGuard trail pending 2,
    shape.countGuard trail pending 1 with
  | .metavar _, .ok code, .ok fullGuard, .ok shortGuard =>
    let missing := trail.child position
    let other := trail.child (1 - position)
    let constructed := Binding.constructed code default.unwrap
    let full := assignments (trail.child 0, .operand trail 0) (trail.child 1, .operand trail 1)
    let short := assignments (missing, constructed) (other, .operand trail 0)
    let absent := assignments (missing, constructed) (other, .same trail)
    if trail.isEmpty then optionalRootEntry o l shape trail full short
    else
      let choice : Stmt Unit :=
        .branch () fullGuard full absent [.branch () shortGuard short [noop ()] []]
      some (.hole (noop () :: declarations trail ++ [choice]) none [], 0)
  | _, _, _, _ => none

/-- The check of a node and its operands, and the position of an operand without a matcher. -/
def entry (o : Options) (l : Language) (shape : Shape) (trail : Trail) (operands : List Expr)
    (groups : Groups) : Option (Entry × Option Nat) :=
  match optionalOperand? operands with
  | some (position, pattern, default) =>
    (optionalEntry o l shape trail position pattern default (shape.pending? groups)).map
      (·, some position)
  | none =>
    let count := operands.length
    some (plainEntry o trail (shape.guard l trail count) (shape.pending? groups) count, none)

/-- What the entry of a node is whose operand at a position is optional: a choice between the forms
of the node, in which a missing operand is bound as given. At the root there are two forms, behind
the check of the operator unless that is implied. Below it there are three. -/
inductive IsOptionalEntry (o : Options) (l : Language) (t : Trail) (position : Nat)
    (missing : Binding) (pending : Option Trail) : Shape → Entry → Prop
  | implied {name : String} (hroot : t.isEmpty = true) (ho : o.skipRootGuard = true)
      (htakes : takesOneOrTwo l name = true) :
      IsOptionalEntry o l t position missing pending (.symbol name)
        (.hole (noop () :: impliedStmt (.operatorIs t name) :: declarations t ++
          [.branch () (.operandCountIs t 2)
            (assignments (t.child 0, .operand t 0) (t.child 1, .operand t 1))
            (assignments (t.child position, missing) (t.child (1 - position), .operand t 0))
            []]) none [], 0)
  | root {name : String} (hroot : t.isEmpty = true) (ho : o.skipRootGuard = false)
      (htakes : takesOneOrTwo l name = true) :
      IsOptionalEntry o l t position missing pending (.symbol name)
        (guarded (.operatorIs t name) (.hole (noop () :: declarations t ++
          [.branch () (.operandCountIs t 2)
            (assignments (t.child 0, .operand t 0) (t.child 1, .operand t 1))
            (assignments (t.child position, missing) (t.child (1 - position), .operand t 0))
            []]) none []), 1)
  | below {shape : Shape} {full short : Guard} (hroot : t.isEmpty = false)
      (hfull : shape.countGuard t pending 2 = .ok full)
      (hshort : shape.countGuard t pending 1 = .ok short) :
      IsOptionalEntry o l t position missing pending shape
        (.hole (noop () :: declarations t ++
          [.branch () full
            (assignments (t.child 0, .operand t 0) (t.child 1, .operand t 1))
            (assignments (t.child position, missing) (t.child (1 - position), .same t))
            [.branch () short
              (assignments (t.child position, missing) (t.child (1 - position), .operand t 0))
              [noop ()] []]]) none [], 0)

theorem exists_of_optionalEntry {t : Trail} {position : Nat} {pattern default : Expr}
    {pending : Option Trail}
    (h : optionalEntry o l shape t position pattern default pending = some e) :
    ∃ id code, pattern.unwrap = .metavar id ∧ default.unwrap.groundCode l = .ok code ∧
      IsOptionalEntry o l t position (.constructed code default.unwrap) pending shape e := by
  unfold optionalEntry at h
  split at h
  · rename_i id code full short hid hcode hfull hshort
    refine ⟨id, code, hid, hcode, ?_⟩
    dsimp only at h
    split_ifs at h with hroot
    · cases shape with
      | symbol name =>
        simp only [optionalRootEntry] at h
        split_ifs at h with htakes ho
        · cases h
          exact .implied hroot ho htakes
        · cases h
          exact .root hroot (Bool.eq_false_iff.2 ho) htakes
      | _ => cases h
    · cases h
      exact .below (Bool.eq_false_iff.2 hroot) hfull hshort
  · cases h

/-- **The entry of a node** is the plain one, or one for an optional operand. -/
theorem cases_of_entry {t : Trail} {groups : Groups} {skipped : Option Nat}
    (h : entry o l shape t operands groups = some (e, skipped)) :
    (optionalOperand? operands = none ∧ skipped = none ∧
      e =
        plainEntry o t (shape.guard l t operands.length) (shape.pending? groups) operands.length) ∨
    ∃ position pattern default id code,
      optionalOperand? operands = some (position, pattern, default) ∧ skipped = some position ∧
      pattern.unwrap = .metavar id ∧ default.unwrap.groundCode l = .ok code ∧
      IsOptionalEntry o l t position (.constructed code default.unwrap) (shape.pending? groups)
        shape e := by
  unfold entry at h
  split at h
  · rename_i position pattern default hop
    obtain ⟨e', he, heq⟩ := Option.map_eq_some_iff.1 h
    cases heq
    obtain ⟨id, code, hid, hcode, hentry⟩ := exists_of_optionalEntry he
    exact Or.inr ⟨position, pattern, default, id, code, hop, rfl, hid, hcode, hentry⟩
  · rename_i hop
    cases h
    exact Or.inl ⟨hop, rfl, rfl⟩

theorem eq_plainEntry {t : Trail} {groups : Groups} {skipped : Option Nat}
    (h : entry o l shape t operands groups = some (e, skipped))
    (hnone : optionalOperand? operands = none) :
    e =
      plainEntry o t (shape.guard l t operands.length) (shape.pending? groups) operands.length := by
  rcases cases_of_entry h with ⟨-, -, he⟩ | ⟨_, _, _, _, _, hop, -⟩
  · exact he
  · cases hnone.symm.trans hop

/-- An optional operand is one of two. -/
theorem cases_of_optionalOperand? {position : Nat} {pattern default : Expr}
    (h : optionalOperand? operands = some (position, pattern, default)) :
    ∃ a b, operands = [a, b] ∧
      (position = 0 ∧ a.unwrap = .optional pattern default ∨
        position = 1 ∧ b.unwrap = .optional pattern default ∧
          ∀ pattern default, a.unwrap ≠ .optional pattern default) := by
  unfold optionalOperand? at h
  split at h
  · rename_i a b
    split at h
    · rename_i ha
      cases h
      exact ⟨a, b, rfl, Or.inl ⟨rfl, ha⟩⟩
    · rename_i hb ha
      cases h
      exact ⟨a, b, rfl, Or.inr ⟨rfl, hb, ha⟩⟩
    · cases h
  · cases h

theorem position_of_optionalOperand? {position : Nat} {pattern default : Expr}
    (h : optionalOperand? operands = some (position, pattern, default)) :
    position = 0 ∨ position = 1 := by
  obtain ⟨a, b, -, ⟨hposition, -⟩ | ⟨hposition, -⟩⟩ := cases_of_optionalOperand? h
  · exact Or.inl hposition
  · exact Or.inr hposition

theorem length_of_optionalOperand? {x : Nat × Expr × Expr}
    (h : optionalOperand? operands = some x) : operands.length = 2 := by
  obtain ⟨a, b, rfl, -⟩ := cases_of_optionalOperand? h
  rfl

/-- The guard that counts operands names the node, compares it with the first one of its group, or
only counts. -/
theorem cases_of_countGuard {t : Trail} {pending : Option Trail} {count : Nat} {guard : Guard}
    (h : shape.countGuard t pending count = .ok guard) :
    (∃ name, guard = .overloaded t name count) ∨
    (∃ first, pending = some first ∧ guard = .anyway ⟨t, first, t, count, Or.inr rfl⟩) ∨
    guard = .operandCountIs t count := by
  unfold Shape.countGuard at h
  split at h
  · exact Or.inl ⟨_, (Except.ok.inj h).symm⟩
  · rename_i first _
    rw [Guard.anyway?, dif_pos (Or.inr rfl)] at h
    exact Or.inr (Or.inl ⟨first, rfl, (Except.ok.inj h).symm⟩)
  · exact Or.inr (Or.inr (Except.ok.inj h).symm)

mutual

/-- The chain of a pattern at a trail, nothing for a metavariable, and the groups after it. -/
def patternChain (o : Options) (l : Language) :
    Expr → Trail → Groups → Option (Option (Chain Unit) × Groups)
  | .compound inner, trail, groups => patternChain o l inner trail groups
  | .metavar _, _, groups => some (none, groups)
  | .optional _ _, _, _ => none
  | .literal value, trail, groups => do
    let ((chain, depth), _) ← entry o l (.literal value) trail [] groups
    return (some (chain.leave () depth), groups)
  | .var name, trail, groups => do
    let ((chain, depth), _) ← entry o l (.var name) trail [] groups
    return (some (chain.leave () depth), groups)
  | .app symbol operands, trail, groups => do
    let ((chain, depth), skipped) ← entry o l (.symbol (l.name symbol)) trail operands groups
    let (chain, wanted, groups) ← operandsChain o l skipped trail 0 operands chain true groups
    return (some (if wanted then chain.leave () depth else chain), groups)
  | .anyway group operands, trail, groups => do
    let ((chain, depth), skipped) ← entry o l (.anyway group) trail operands groups
    let (chain, wanted, groups) ←
      operandsChain o l skipped trail 0 operands chain true (groups.pushTrail group trail)
    return (some (if wanted then chain.leave () depth else chain), groups)

/-- The chain with those of the operands from number `index` on, and whether a placeholder is wanted
after it. -/
def operandsChain (o : Options) (l : Language) (skipped : Option Nat) (trail : Trail)
    (index : Nat) : List Expr → Chain Unit → Bool → Groups → Option (Chain Unit × Bool × Groups)
  | [], chain, wanted, groups => some (chain, wanted, groups)
  | operand :: rest, chain, wanted, groups =>
    if skipped = some index then
      operandsChain o l skipped trail (index + 1) rest chain wanted groups
    else do
      match ← patternChain o l operand (trail.child index) groups with
      | (none, groups) => operandsChain o l skipped trail (index + 1) rest chain true groups
      | (some r, groups) =>
        operandsChain o l skipped trail (index + 1) rest (chain.attach o.joinComparisons () r) false
          groups

end

section Nodes

variable {o : Options} {l : Language} {e : Expr} {shape : Shape} {operands rest : List Expr}
  {t : Trail} {groups groups' : Groups} {skipped : Option Nat}

theorem IsNode.patternChain_eq (h : IsNode l e shape operands) (t : Trail) (groups : Groups) :
    patternChain o l e t groups = (entry o l shape t operands groups).bind fun x =>
      (operandsChain o l x.2 t 0 operands x.1.1 true (shape.joinGroup groups t)).bind fun y =>
        some (some (if y.2.1 then y.1.leave () x.1.2 else y.1), y.2.2) := by
  cases h <;> rfl

/-- The chain of a node is its entry, with the chains of the operands plugged in. -/
theorem IsNode.exists_of_patternChain (h : IsNode l e shape operands) {x : Option (Chain Unit)}
    (hx : patternChain o l e t groups = some (x, groups')) :
    ∃ e0 skipped k wanted, entry o l shape t operands groups = some (e0, skipped) ∧
      operandsChain o l skipped t 0 operands e0.1 true (shape.joinGroup groups t) =
        some (k, wanted, groups') ∧
      x = some (if wanted then k.leave () e0.2 else k) := by
  rw [h.patternChain_eq] at hx
  obtain ⟨⟨e0, skipped⟩, he, hx⟩ := Option.bind_eq_some_iff.1 hx
  obtain ⟨⟨k, wanted, groups1⟩, hk, hx⟩ := Option.bind_eq_some_iff.1 hx
  cases hx
  exact ⟨e0, skipped, k, wanted, he, hk, rfl⟩

theorem IsNode.patternChain_of_entry (h : IsNode l e shape operands) {e0 : Entry} {k : Chain Unit}
    {wanted : Bool} (he : entry o l shape t operands groups = some (e0, skipped))
    (hk : operandsChain o l skipped t 0 operands e0.1 true (shape.joinGroup groups t) =
      some (k, wanted, groups')) :
    patternChain o l e t groups = some (some (if wanted then k.leave () e0.2 else k), groups') := by
  rw [h.patternChain_eq, he, Option.bind_some, hk]
  rfl

theorem operandsChain_cons {index : Nat} (hs : skipped ≠ some index) (k : Chain Unit)
    (wanted : Bool) :
    operandsChain o l skipped t index (e :: rest) k wanted groups =
      (patternChain o l e (t.child index) groups).bind fun x =>
        operandsChain o l skipped t (index + 1) rest (x.1.elim k (k.attach o.joinComparisons ()))
          x.1.isNone x.2 := by
  rw [operandsChain, if_neg hs]
  refine congrArg _ (funext fun x => ?_)
  obtain ⟨_ | r, groups1⟩ := x <;> rfl

/-- An operand is passed over, or its chain is plugged in if it has one. -/
theorem cases_of_operandsChain {index : Nat} {k k' : Chain Unit} {wanted wanted' : Bool}
    (h : operandsChain o l skipped t index (e :: rest) k wanted groups =
      some (k', wanted', groups')) :
    (skipped = some index ∧
      operandsChain o l skipped t (index + 1) rest k wanted groups = some (k', wanted', groups')) ∨
    (skipped ≠ some index ∧
      ∃ x groups1, patternChain o l e (t.child index) groups = some (x, groups1) ∧
        operandsChain o l skipped t (index + 1) rest (x.elim k (k.attach o.joinComparisons ()))
          x.isNone groups1 = some (k', wanted', groups')) := by
  by_cases hs : skipped = some index
  · rw [operandsChain, if_pos hs] at h
    exact Or.inl ⟨hs, h⟩
  · rw [operandsChain_cons hs] at h
    obtain ⟨⟨x, groups1⟩, hx, h⟩ := Option.bind_eq_some_iff.1 h
    exact Or.inr ⟨hs, x, groups1, hx, h⟩

/-- What plugging in the chains of operands keeps holds of the chain with all of them. -/
theorem operandsChain_invariant {I : Chain Unit → Prop}
    (attach : ∀ {e index k r groups groups'},
      patternChain o l e (t.child index) groups = some (some r, groups') → I k →
      I (k.attach o.joinComparisons () r))
    {index : Nat} {k k' : Chain Unit} {wanted wanted' : Bool}
    (h : operandsChain o l skipped t index operands k wanted groups = some (k', wanted', groups'))
    (hk : I k) : I k' := by
  induction operands generalizing index k wanted groups with
  | nil =>
    cases h
    exact hk
  | cons e rest ih =>
    rcases cases_of_operandsChain h with ⟨-, h⟩ | ⟨-, x, groups1, hx, h⟩
    · exact ih h hk
    · cases x with
      | none => exact ih h hk
      | some r => exact ih h (attach hx hk)

end Nodes

/-! ### The form of chains -/

theorem tidyLine_cons {ι : Type} {id : ι} {x : Line} (hx : x ≠ .placeholder) (hq : x.isQuiet = true)
    {ts : List (Stmt ι)} (h : ts = [] ∨ Chain.TidyLine ts) : Chain.TidyLine (fresh id x :: ts) := by
  have hsingle : Chain.TidyLine [fresh id x] := by
    refine ⟨by simp, ⟨trivial, trivial⟩, ?_, ?_, ?_⟩
    · simp [holeAll?, hole?, fresh, hx]
    · intro s hs
      rw [List.mem_singleton.1 (List.mem_of_find?_eq_some hs)]
      rfl
    · simp [isQuietAll, Stmt.isQuiet, fresh, hq]
  rcases h with rfl | h
  · exact hsingle
  · exact hsingle.append h

theorem tidyLine_operandLines (trail : Trail) (index count : Nat) :
    operandLines trail index count = [] ∨ Chain.TidyLine (operandLines trail index count) := by
  induction count generalizing index with
  | zero => exact Or.inl rfl
  | succ count ih => exact Or.inr (tidyLine_cons (by simp) rfl (ih (index + 1)))

theorem isCommentLine_implied (guard : Guard) :
    Code.isCommentLine ("// implied by dispatch: " ++ guard.text) = true := by
  rw [Code.isCommentLine, String.toList_append]; rfl

theorem tidyLine_implied (guard : Guard) {ts : List (Stmt Unit)} (h : ts = [] ∨ Chain.TidyLine ts) :
    Chain.TidyLine (noop () :: impliedStmt guard :: ts) :=
  tidyLine_cons (by simp) rfl
    (Or.inr (tidyLine_cons (x := .custom _) (by simp) (isCommentLine_implied guard) h))

/-- A choice between bindings may stand at the end of a sequence that does something before it. -/
theorem tidyLine_concat {xs : List (Stmt Unit)} (h : Chain.TidyLine xs)
    (hb : xs.any isMeaningful = true) {s : Stmt Unit} (hs : s.Solid) (hh : s.hole? = none)
    (hq : s.isQuiet = true) : Chain.TidyLine (xs ++ [s]) where
  ne_nil := by simp
  solid := (solidAll_append xs [s]).2 ⟨h.solid, hs, trivial⟩
  no_hole := by simp [holeAll?_append, h.no_hole, holeAll?, hh]
  first := by
    intro s' hs'
    obtain ⟨x, hx, hm⟩ := List.any_eq_true.1 hb
    obtain ⟨y, hy⟩ := Option.isSome_iff_exists.1 (List.find?_isSome.2 ⟨x, hx, hm⟩)
    rw [List.find?_append, hy, Option.some_or, Option.some.injEq] at hs'
    exact hs' ▸ h.first y hy
  quiet := by simp [Chain.isQuietAll_append, h.quiet, isQuietAll, hq]

theorem tidyLine_declarations (trail : Trail) : Chain.TidyLine (declarations trail) :=
  tidyLine_cons (by simp) rfl (Or.inr (tidyLine_cons (by simp) rfl (Or.inl rfl)))

theorem solidAll_assignments (first second : Trail × Binding) :
    SolidAll (assignments first second) :=
  ⟨trivial, trivial, trivial, trivial⟩

theorem tidy_guarded {guard : Guard} {inner : Chain Unit} (h : inner.Tidy) :
    (guarded guard inner).Tidy :=
  ⟨Chain.tidyLine_noop (), h⟩

/-- The chain at the entry of a node is tidy and waits for the matchers of the operands. -/
def IsEntry (e : Entry) : Prop := e.1.Tidy ∧ e.1.Busy ∧ e.1.IsOpen e.2

theorem isEntry_plain (o : Options) (trail : Trail) (guard : Guard) (pending : Option Trail)
    (count : Nat) : IsEntry (plainEntry o trail guard pending count) := by
  have hinner : Chain.TidyLine (noop () :: operandLines trail 0 count) :=
    tidyLine_cons (by simp) rfl (tidyLine_operandLines trail 0 count)
  unfold plainEntry
  split_ifs with h
  · exact ⟨tidyLine_implied guard (tidyLine_operandLines trail 0 count), rfl, trivial⟩
  · cases pending with
    | none => exact ⟨tidy_guarded hinner, trivial, trivial⟩
    | some first => exact ⟨tidy_guarded (tidy_guarded hinner), trivial, trivial⟩

theorem isEntry_optional {t : Trail} {position : Nat} {missing : Binding} {pending : Option Trail}
    (h : IsOptionalEntry o l t position missing pending shape e) : IsEntry e := by
  have hchoice : ∀ {guard : Guard} {a b c d : Trail × Binding} {elseIfs : List (Stmt Unit)},
      SolidAll elseIfs → (Stmt.branch () guard (assignments a b) (assignments c d) elseIfs).Solid :=
    fun helse =>
      ⟨by simp [assignments], by simp [assignments], solidAll_assignments _ _,
        solidAll_assignments _ _, helse⟩
  have hline : Chain.TidyLine (noop () :: declarations t) :=
    tidyLine_cons (by simp) rfl (Or.inr (tidyLine_declarations t))
  cases h with
  | implied hroot ho htakes =>
    refine ⟨?_, rfl, trivial⟩
    exact tidyLine_concat (tidyLine_implied _ (Or.inr (tidyLine_declarations t))) rfl
      (hchoice trivial) rfl rfl
  | root hroot ho htakes =>
    refine ⟨tidy_guarded ?_, trivial, trivial⟩
    exact tidyLine_concat hline rfl (hchoice trivial) rfl rfl
  | below hroot hfull hshort =>
    refine ⟨tidyLine_concat hline rfl (hchoice ⟨?_, trivial⟩) rfl rfl, rfl, trivial⟩
    exact ⟨by simp [assignments], by simp, solidAll_assignments _ _, ⟨trivial, trivial⟩, trivial⟩

theorem isEntry_entry {trail : Trail} {groups : Groups} {skipped : Option Nat}
    (h : entry o l shape trail operands groups = some (e, skipped)) : IsEntry e := by
  rcases cases_of_entry h with ⟨-, -, rfl⟩ | ⟨_, _, _, _, _, -, -, -, -, hentry⟩
  · exact isEntry_plain o trail _ _ _
  · exact isEntry_optional hentry

/-- The chain is tidy, does something and has a mark. -/
def IsFit (k : Chain Unit) : Prop := k.Tidy ∧ k.Busy ∧ k.mark?.isSome

theorem isFit_leave (he : IsEntry e) {k : Chain Unit} (ht : k.Tidy) (hb : k.Busy) {w : Bool}
    (h : k.mark?.isSome ∨ k = e.1 ∧ w = true) : IsFit (if w then k.leave () e.2 else k) := by
  cases w with
  | true =>
    refine ⟨ht.leave () e.2, hb.leave () e.2, ?_⟩
    rcases h with h | ⟨rfl, -⟩
    · exact Chain.mark?_leave_isSome h () e.2
    · simp [he.2.2.mark?_leave]
  | false => exact ⟨ht, hb, h.resolve_right (by simp)⟩

theorem patternChain_fit_all (o : Options) (l : Language) :
    (∀ e : Expr, ∀ trail groups k groups',
      patternChain o l e trail groups = some (some k, groups') → IsFit k) ∧
    ∀ es : List Expr, ∀ skipped trail index k wanted groups k' wanted' groups',
      operandsChain o l skipped trail index es k wanted groups = some (k', wanted', groups') →
      k.Tidy → k.Busy →
      k'.Tidy ∧ k'.Busy ∧ (k'.mark?.isSome ∨ k' = k ∧ (wanted = true → wanted' = true)) := by
  apply pattern_induct l
  case metavar =>
    intro id trail groups k groups' h
    simp [patternChain] at h
  case compound => exact fun inner ih trail groups k groups' h => ih trail groups k groups' h
  case optional =>
    intro pattern default _ _ trail groups k groups' h
    simp [patternChain] at h
  case node =>
    intro e shape operands hnode ih trail groups k groups' h
    obtain ⟨e0, skipped, k', wanted, he, hk, hx⟩ := hnode.exists_of_patternChain h
    cases hx
    have hentry := isEntry_entry he
    obtain ⟨ht, hb, hm⟩ := ih _ _ _ _ _ _ _ _ _ hk hentry.1 hentry.2.1
    exact isFit_leave hentry ht hb (hm.imp_right fun h => ⟨h.1, h.2 rfl⟩)
  case nil =>
    intro skipped trail index k wanted groups k' wanted' groups' h ht hb
    cases h
    exact ⟨ht, hb, Or.inr ⟨rfl, fun h => h⟩⟩
  case cons =>
    intro e rest hp hq skipped trail index k wanted groups k' wanted' groups' h ht hb
    rcases cases_of_operandsChain h with ⟨-, h⟩ | ⟨-, x, groups1, hx, h⟩
    · exact hq _ _ _ _ _ _ _ _ _ h ht hb
    · cases x with
      | none =>
        obtain ⟨ht', hb', hm⟩ := hq _ _ _ _ _ _ _ _ _ h ht hb
        exact ⟨ht', hb', hm.imp_right fun h => ⟨h.1, fun _ => h.2 rfl⟩⟩
      | some r =>
        -- the mark of the operand is the mark of the chain, until the next operand brings its own
        have hf := hp _ _ _ _ hx
        obtain ⟨ht', hb', hm⟩ := hq _ _ _ _ _ _ _ _ _ h (ht.attach hf.1 _ ()) (hb.attach _ () r)
        refine ⟨ht', hb', Or.inl (hm.elim id fun h => ?_)⟩
        rw [h.1, Option.elim_some, Chain.mark?_attach]
        exact hf.2.2

/-- **Chains of patterns** are tidy, do something and have a mark. -/
theorem patternChain_fit {e : Expr} {trail : Trail} {groups groups' : Groups} {k : Chain Unit}
    (h : patternChain o l e trail groups = some (some k, groups')) : IsFit k :=
  (patternChain_fit_all o l).1 e trail groups k groups' h

end Matcher

end Rulewright
