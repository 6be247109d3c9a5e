import Rulewright.Proofs.Chain.Conditions
import Rulewright.Proofs.Chain.Pattern

/-!
# Failure

A rule that cannot be compiled asks for something that matchers cannot do. The operators that a
matcher compares are always those of a node it has counted, so that cannot go wrong, and an operator
that a failure names is one of the rule.

* `CompileError.Names`: the error leaves a rule out and names one of these operators, or none.
* `Scope.code_names`, `conditionCodes_names`: what the texts of a rule fail with.
* `countGuard_ok`: counts and comparisons can always be joined.
-/

namespace Rulewright

/-- The operator that the reason names. -/
def Unsupported.operator? : Unsupported → Option String
  | .optionalRootArity operator | .noConstructor operator => some operator
  | _ => none

/-- The error leaves a rule out, and an operator that it names is one of these. -/
def CompileError.Names (W : String → Prop) : CompileError → Prop
  | .unsupported reason => ∀ name ∈ reason.operator?, W name
  | _ => False

theorem CompileError.Names.not_fatal {W : String → Prop} {error : CompileError}
    (h : error.Names W) : error.isFatal = false := by
  cases error with
  | unsupported reason => rfl
  | _ => cases h

/-- A reason that names no operator. -/
theorem CompileError.names_of_none {W : String → Prop} {reason : Unsupported}
    (h : reason.operator? = none) : (CompileError.unsupported reason).Names W := by
  intro name hname
  rw [h] at hname
  cases hname

theorem Expr.operatorList_unwrap (l : Language) (e : Expr) :
    e.unwrap.operatorList l = e.operatorList l := by
  fun_induction Expr.unwrap e with
  | case1 inner ih => rw [ih, operatorList]
  | case2 e => rfl

variable {W : String → Prop}

namespace Scope

/-- The writer fails for want of something to write only. -/
def Writer.Fails (W : String → Prop) {α : Type} (x : Writer α) : Prop :=
  ∀ used error used', x used = .error error used' → error.Names W

namespace Writer.Fails

variable {α β : Type}

theorem pure (a : α) : Fails W (pure a : Writer α) := by
  intro used error used' h
  cases h

theorem unsupported {reason : Unsupported} (h : (CompileError.unsupported reason).Names W) :
    Fails W (Scope.unsupported reason : Writer α) := by
  intro used error used' hfails
  cases hfails
  exact h

theorem bind {x : Writer α} {f : α → Writer β} (hx : Fails W x) (hf : ∀ a, Fails W (f a)) :
    Fails W (x >>= f) := by
  intro used error used' h
  change EStateM.bind x f used = _ at h
  unfold EStateM.bind at h
  split at h
  · exact hf _ _ _ _ h
  · rename_i hfails
    cases h
    exact hx _ _ _ hfails

end Writer.Fails

open Writer

theorem write_fails_all (s : Scope) (W : String → Prop) :
    (∀ e : Expr, (∀ name ∈ e.operatorList s.language, W name) → Fails W (s.write e)) ∧
    ∀ es : List Expr, (∀ name ∈ Expr.operatorListAll s.language es, W name) →
      Fails W (s.writeAll es) := by
  apply Expr.induct
  case metavar =>
    intro id _
    rw [write, useMeta]
    cases s.metas.firstTrail? id with
    | none => exact .unsupported (CompileError.names_of_none rfl)
    | some trail =>
      intro used error used' h
      change (if id ∈ used then pure _ else set _ >>= fun _ => pure _ : Writer Construction) used =
        _ at h
      split_ifs at h <;> cases h
  case var => exact fun name _ => .pure _
  case literal => exact fun value _ => .pure _
  case app =>
    intro symbol es ih hW
    obtain ⟨hsymbol, hes⟩ := List.forall_mem_cons.1 hW
    rw [write]
    cases s.folded? (.app symbol es) with
    | some n => exact .pure _
    | none =>
      dsimp only
      cases s.language.constructor? (s.language.name symbol) with
      | none => exact .unsupported fun name hname => Option.some.inj hname ▸ hsymbol
      | some constructor => exact (ih hes).bind fun _ => .pure _
  case compound =>
    intro inner ih hW
    rw [write]
    exact ih hW
  case optional =>
    intro pattern default _ _ _
    rw [write]
    exact .unsupported (CompileError.names_of_none rfl)
  case anyway =>
    intro group es ih hW
    rw [write]
    cases s.groups.firstTrail? group with
    | none => exact .unsupported (CompileError.names_of_none rfl)
    | some trail => exact (ih hW).bind fun _ => .pure _
  case nil => exact fun _ => .pure _
  case cons =>
    intro e rest he hrest hW
    rw [Expr.operatorListAll, List.forall_mem_append] at hW
    rw [writeAll]
    exact (he hW.1).bind fun _ => (hrest hW.2).bind fun _ => .pure _

end Scope

theorem Scope.code_names {s : Scope} {e : Expr} (hW : ∀ name ∈ e.operatorList s.language, W name)
    {used : List MetaId} {error : CompileError} (h : (s.code e used).1 = .error error) :
    error.Names W := by
  unfold Scope.code at h
  split at h
  · cases h
  · rename_i hwrite
    cases h
    exact (s.write_fails_all W).1 e hW _ _ _ hwrite

namespace Matcher

theorem conditionCode_names {s : Scope} {k : Condition}
    (hW : ∀ name ∈ k.subject.operatorList s.language, W name) {error : CompileError}
    (h : conditionCode s k = .error error) : error.Names W := by
  unfold conditionCode at h
  split_ifs at h
  split at h
  · cases h
  · rename_i hcode
    cases h
    exact Scope.code_names hW hcode

theorem conditionCodes_names {s : Scope} {r : Rule}
    (hW : ∀ k ∈ r.conditions, ∀ name ∈ k.subject.operatorList s.language, W name)
    {error : CompileError} (h : conditionCodes s r = .error error) : error.Names W := by
  obtain ⟨k, hk, hfails⟩ := exists_of_conditionCodes_error h
  exact conditionCode_names (hW k hk) hfails

/-- An optional node is compared at its own trail, so the count is in its place. -/
theorem countGuard_ok (trail : Trail) (pending : Option Trail) (count : Nat) (shape : Shape) :
    ∃ guard, shape.countGuard trail pending count = .ok guard := by
  have haligned : ∀ first, ∃ guard, Guard.anyway? trail first trail count = .ok guard :=
    fun first => ⟨_, dif_pos (Or.inr rfl)⟩
  cases shape <;> cases pending <;> first | exact ⟨_, rfl⟩ | exact haligned _

/-- A symbol that is checked at a node is one of these. -/
def Shape.Names (W : String → Prop) : Shape → Prop
  | .symbol name => W name
  | _ => True

variable {l : Language} {shape : Shape}

/-- The default of an optional operand is part of the operands. -/
theorem operatorList_optionalOperand? (l : Language) {operands : List Expr} {position : Nat}
    {pattern default : Expr} (h : optionalOperand? operands = some (position, pattern, default)) :
    default.operatorList l ⊆ Expr.operatorListAll l operands := by
  have hoptional : ∀ e : Expr, e.unwrap = .optional pattern default →
      default.operatorList l ⊆ e.operatorList l := by
    intro e he
    rw [← Expr.operatorList_unwrap l e, he]
    exact List.subset_append_right _ _
  obtain ⟨a, b, rfl, ⟨-, ha⟩ | ⟨-, hb, -⟩⟩ := cases_of_optionalOperand? h
  · exact List.Subset.trans (hoptional a ha) (List.subset_append_left _ _)
  · refine List.Subset.trans (hoptional b hb) ?_
    rw [Expr.operatorListAll, Expr.operatorListAll, Expr.operatorListAll, List.append_nil]
    exact List.subset_append_right _ _

/-- The names of a node are that of its shape and those of the operands. -/
theorem IsNode.names {e : Expr} {operands : List Expr} (hnode : IsNode l e shape operands)
    (hW : ∀ name ∈ e.operatorList l, W name) :
    shape.Names W ∧ ∀ name ∈ Expr.operatorListAll l operands, W name := by
  cases hnode with
  | var name => exact ⟨trivial, hW⟩
  | literal value => exact ⟨trivial, hW⟩
  | app symbol operands => exact List.forall_mem_cons.1 hW
  | anyway group operands => exact ⟨trivial, hW⟩

end Matcher

/-- The operators of all terms of a rule. -/
def Rule.operatorNames (l : Language) (r : Rule) : List String :=
  r.pattern.operatorList l ++ r.replacement.operatorList l ++
    r.conditions.flatMap fun k => k.subject.operatorList l

end Rulewright
