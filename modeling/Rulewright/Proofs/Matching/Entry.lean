import Rulewright.Proofs.Matching.Bindings

/-!
# The entry of a pattern node

The code at the entry of a node checks the term there and binds its operands. It goes on with the
terms of `Expr.operandTerms?`, bound to the trails of the operands, or stops where there are none.

* `Opened`: the operands of a node are bound to these terms, and nothing else has changed.
* `Answers`: the guards of a node say whether a term has the right operator and number of operands.
* `entry_pass`: what the entry of a node does.
* `answers_symbol`, `answers_anyway`: the guards of both kinds of nodes give the answers they
  should.
-/

namespace Rulewright

open Stmt

/-- The operands of the node at a trail are bound to the terms, and nothing else has changed. -/
structure Opened (b b' : Bindings) (t : Trail) (es : List Expr) : Prop where
  operand : ∀ j x, es[j]? = some x → b'.get? (t.child j) = some x
  frame : ∀ t', (∀ j < es.length, t' ≠ t.child j) → b'.get? t' = b.get? t'

namespace Matcher

variable {l : Language} {free : String → Bool} {b : Bindings} {t : Trail} {e : Expr}
  {patterns : List Expr}

/-! ### Nodes without an optional operand -/

theorem opened_operandLines (h : b.get? t = some e) :
    Opened b (settle l free (noop () :: operandLines t 0 e.operands.length) b) t e.operands := by
  obtain ⟨h1, h2⟩ :=
    settle_operandLines l free h (by omega : 0 + e.operands.length ≤ e.operands.length)
  refine ⟨fun j x hx => ?_, fun t' ht' => h2 t' fun j _ hj => ht' j (by omega)⟩
  obtain ⟨hj, -⟩ := List.getElem?_eq_some_iff.1 hx
  exact h1 j x (Nat.zero_le j) (by omega) hx

theorem pass_plainEntry {o : Options} (ho : o.skipRootGuard = false) (guard : Guard)
    (pending : Option Trail) (n : Nat) :
    (plainEntry o t guard pending n).1.pass l free b =
      if (pending.all fun first => (Guard.sameOperator first t).holds l free b) &&
          guard.holds l free b then some (settle l free (noop () :: operandLines t 0 n) b)
      else none := by
  have hnoop : settle l free [noop ()] b = b := rfl
  cases pending with
  | none => simp [plainEntry, ho, guarded, Chain.pass, hnoop]
  | some first =>
    by_cases h : (Guard.sameOperator first t).holds l free b = true <;>
      simp [plainEntry, ho, guarded, Chain.pass, hnoop, h]

/-! ### Nodes with an optional operand -/

theorem settle_assignments (first second : Trail × Binding) (b : Bindings) :
    settle l free (assignments first second) b =
      (b.assign first.1 first.2).assign second.1 second.2 := rfl

/-- Two assignments open a node, in one order or the other. -/
theorem opened_assignments {i j : Nat} (hij : i = 0 ∧ j = 1 ∨ i = 1 ∧ j = 0) {β γ : Binding}
    {x y : Expr} (hx : b.bind β = some x) (hy : (b.assign (t.child i) β).bind γ = some y) :
    Opened b (settle l free (assignments (t.child i, β) (t.child j, γ)) b) t
      (if i = 0 then [x, y] else [y, x]) := by
  have hne : i ≠ j := by omega
  rw [settle_assignments]
  have hi : ((b.assign (t.child i) β).assign (t.child j) γ).get? (t.child i) = some x := by
    rw [Bindings.get?_assign_of_ne _ fun h => hne (Trail.child_injective h).symm,
      Bindings.get?_assign_self hx]
  have hj : ((b.assign (t.child i) β).assign (t.child j) γ).get? (t.child j) = some y :=
    Bindings.get?_assign_self hy
  refine ⟨fun k z hz => ?_, fun t' ht' => ?_⟩
  · rcases hij with ⟨rfl, rfl⟩ | ⟨rfl, rfl⟩ <;> rcases k with _ | _ | k <;> simp at hz <;>
      subst hz <;> assumption
  · have hlen : (if i = 0 then [x, y] else [y, x]).length = 2 := by split_ifs <;> rfl
    rw [Bindings.get?_assign_of_ne _ (Ne.symm (ht' j (by omega))),
      Bindings.get?_assign_of_ne _ (Ne.symm (ht' i (by omega)))]

theorem settle_choice (guard : Guard) (full short : List (Stmt Unit)) (hf : isQuietAll full = true)
    (hs : isQuietAll short = true) (b : Bindings) :
    settle l free [.branch () guard full short []] b =
      if guard.holds l free b then settle l free full b else settle l free short b := by
  rw [settle, execAll, exec]
  split_ifs with hg
  · rw [execAll_quiet l free hf]; rfl
  · rw [execElseIfs, execAll_quiet l free hs]; rfl

theorem settle_threeWay (first second : Guard) (full short absent : List (Stmt Unit))
    (hf : isQuietAll full = true) (hs : isQuietAll short = true) (ha : isQuietAll absent = true)
    (b : Bindings) :
    settle l free [.branch () first full absent [.branch () second short [noop ()] []]] b =
      if first.holds l free b then settle l free full b
      else if second.holds l free b then settle l free short b else settle l free absent b := by
  rw [settle, execAll, exec]
  split_ifs with h1 h2
  · rw [execAll_quiet l free hf]; rfl
  · rw [execElseIfs, if_pos h2, execAll_quiet l free hs]; rfl
  · rw [execElseIfs, if_neg h2, execElseIfs, execAll_quiet l free ha]; rfl

theorem isQuietAll_assignments (first second : Trail × Binding) :
    isQuietAll (assignments first second) = true := rfl

/-- The entry of a node goes on with these terms as operands, or stops if there are none. -/
def Opens (b : Bindings) (t : Trail) (terms : Option (List Expr)) (r : Option Bindings) : Prop :=
  match terms with
  | none => r = none
  | some es => ∃ b', r = some b' ∧ Opened b b' t es

/-- Two operands of which the one at a position is the default. -/
def complete (position : Nat) (default x : Expr) : List Expr :=
  if position = 0 then [default, x] else [x, default]

/-- The guards of a node say whether the term has the right operator and number of operands. -/
structure Answers (l : Language) (free : String → Bool) (b : Bindings) (t : Trail) (e : Expr)
    (shape : Shape) (pending : Option Trail) (patterns : List Expr) (fits : Bool) : Prop where
  plain : optionalOperand? patterns = none →
      ((pending.all fun first => (Guard.sameOperator first t).holds l free b) &&
        (shape.guard l t patterns.length).holds l free b) =
        (fits && e.operands.length == patterns.length)
  choice : ∀ n guard, shape.countGuard t pending n = .ok guard →
    guard.holds l free b = (fits && e.operands.length == n)
  root : ∀ name, shape = .symbol name → takesOneOrTwo l name = true →
    (Guard.operatorIs t name).holds l free b = fits ∧
      (fits = true → e.operands.length = 1 ∨ e.operands.length = 2)

section Optional

variable {position : Nat} (hpos : position = 0 ∨ position = 1) (code : String) (default : Expr)
  (hb : b.get? t = some e)
include hb

theorem opened_full {x y : Expr} (he : e.operands = [x, y]) :
    Opened b (settle l free (assignments (t.child 0, .operand t 0) (t.child 1, .operand t 1)) b) t
      [x, y] := by
  have hb' : (b.assign (t.child 0) (.operand t 0)).get? t = some e := by
    rw [Bindings.get?_assign_of_ne _ (Trail.child_ne t 0), hb]
  exact opened_assignments (i := 0) (Or.inl ⟨rfl, rfl⟩) (by rw [Bindings.bind_operand hb, he]; rfl)
    (by rw [Bindings.bind_operand hb', he]; rfl)

include hpos

/-- The default is assigned first, then the other operand. -/
theorem opened_complete {γ : Binding} {x : Expr}
    (hx : ∀ b' : Bindings, b'.get? t = some e → b'.bind γ = some x) :
    Opened b (settle l free
      (assignments (t.child position, .constructed code default) (t.child (1 - position), γ)) b) t
      (complete position default x) :=
  opened_assignments (i := position) (by omega) rfl
    (hx _ (by rw [Bindings.get?_assign_of_ne _ (Trail.child_ne t position), hb]))

theorem opened_short {x : Expr} (he : e.operands = [x]) :
    Opened b (settle l free (assignments (t.child position, .constructed code default)
      (t.child (1 - position), .operand t 0)) b) t (complete position default x) :=
  opened_complete hpos code default hb fun _ h => by rw [Bindings.bind_operand h, he]; rfl

theorem opened_absent :
    Opened b (settle l free (assignments (t.child position, .constructed code default)
      (t.child (1 - position), .same t)) b) t (complete position default e) :=
  opened_complete hpos code default hb fun _ h => Bindings.nodeAt_of_get? h

/-- The choice between the three forms of a node below the root. -/
theorem opens_forms (fits : Bool) :
    Opens b t (Expr.forms false fits e (complete position default)) (some (if fits &&
          e.operands.length == 2 then
        settle l free (assignments (t.child 0, .operand t 0) (t.child 1, .operand t 1)) b
      else if fits && e.operands.length == 1 then
          settle l free (assignments (t.child position, .constructed code default)
            (t.child (1 - position), .operand t 0)) b
        else settle l free (assignments (t.child position, .constructed code default)
            (t.child (1 - position), .same t)) b)) := by
  have habsent := @opened_absent l free _ _ _ _ hpos code default hb
  cases fits with
  | false => exact ⟨_, rfl, habsent⟩
  | true =>
    unfold Expr.forms
    rcases hops : e.operands with _ | ⟨x, _ | ⟨y, _ | ⟨z, rest⟩⟩⟩
    · exact ⟨_, rfl, habsent⟩
    · exact ⟨_, rfl, opened_short hpos code default hb hops⟩
    · exact ⟨_, rfl, opened_full hb hops⟩
    · exact ⟨_, rfl, by simpa using habsent⟩

/-- The choice between the two forms of a root. -/
theorem opens_forms_root (fits : Bool)
    (hcount : fits = true → e.operands.length = 1 ∨ e.operands.length = 2) :
    Opens b t (Expr.forms true fits e (complete position default)) (if fits then
        some (if e.operands.length == 2 then
            settle l free (assignments (t.child 0, .operand t 0) (t.child 1, .operand t 1)) b
          else settle l free (assignments (t.child position, .constructed code default)
              (t.child (1 - position), .operand t 0)) b)
      else none) := by
  cases fits with
  | false => rfl
  | true =>
    unfold Expr.forms
    rcases hops : e.operands with _ | ⟨x, _ | ⟨y, _ | ⟨z, rest⟩⟩⟩
    · simp [hops] at hcount
    · exact ⟨_, rfl, opened_short hpos code default hb hops⟩
    · exact ⟨_, rfl, opened_full hb hops⟩
    · simp [hops] at hcount

end Optional

theorem opens_optional {o : Options} (ho : o.skipRootGuard = false) {shape : Shape}
    {pending : Option Trail} {position : Nat} {code : String} {default : Expr} {k : Entry}
    (h : IsOptionalEntry o l t position (.constructed code default) pending shape k)
    (hpos : position = 0 ∨ position = 1) (hb : b.get? t = some e) {fits : Bool}
    (ha : Answers l free b t e shape pending patterns fits) :
    Opens b t (Expr.forms t.isEmpty fits e (complete position default)) (k.1.pass l free b) := by
  cases h with
  | implied _ hskip => cases ho.symm.trans hskip
  | @root name hroot _ htakes =>
    obtain ⟨hholds, hcount⟩ := ha.root name rfl htakes
    have hpass : ∀ bs,
        (guarded (.operatorIs t name) (.hole (noop () :: declarations t ++ bs) none [])).pass l free
          b = if fits then some (settle l free bs b) else none := fun bs => by rw [← hholds]; rfl
    rw [hpass, settle_choice _ _ _ (isQuietAll_assignments _ _) (isQuietAll_assignments _ _),
      holds_operandCountIs l free hb, hroot]
    exact opens_forms_root hpos code default hb fits hcount
  | @below _ full short hroot hfull hshort =>
    have hpass : ∀ bs, (Chain.hole (noop () :: declarations t ++ bs) none []).pass l free b =
        some (settle l free bs b) := fun bs => rfl
    rw [hpass, settle_threeWay _ _ _ _ _ (isQuietAll_assignments _ _) (isQuietAll_assignments _ _)
      (isQuietAll_assignments _ _), ha.choice 2 full hfull, ha.choice 1 short hshort, hroot]
    exact opens_forms hpos code default hb fits

theorem opens_plain {o : Options} (ho : o.skipRootGuard = false) {shape : Shape}
    {pending : Option Trail} (hb : b.get? t = some e) {fits : Bool}
    (ha : Answers l free b t e shape pending patterns fits)
    (hnone : optionalOperand? patterns = none) :
    Opens b t (if fits && e.operands.length == patterns.length then some e.operands else none)
      ((plainEntry o t (shape.guard l t patterns.length) pending patterns.length).1.pass l free
        b) := by
  rw [pass_plainEntry ho, ha.plain hnone]
  split_ifs with h
  · have hlen : e.operands.length = patterns.length := by simpa using (Bool.and_eq_true_iff.1 h).2
    rw [← hlen]
    exact ⟨_, rfl, opened_operandLines hb⟩
  · rfl

theorem operandTerms?_of_optional {position : Nat} {pattern default : Expr}
    (h : optionalOperand? patterns = some (position, pattern, default)) (root fits : Bool)
    (e : Expr) :
    Expr.operandTerms? root fits patterns e =
      Expr.forms root fits e (complete position default.unwrap) := by
  obtain ⟨x, y, rfl, ⟨rfl, hx⟩ | ⟨rfl, hy, hx⟩⟩ := cases_of_optionalOperand? h
  · rw [Expr.operandTerms?, Expr.default?, hx]
    rfl
  · simp only [Expr.operandTerms?, Expr.default?_eq_none hx]
    rw [Expr.default?, hy]
    rfl

theorem operandTerms?_of_none (h : optionalOperand? patterns = none) (root fits : Bool) (e : Expr) :
    Expr.operandTerms? root fits patterns e =
      if fits && e.operands.length == patterns.length then some e.operands else none := by
  unfold optionalOperand? at h
  split at h
  · rename_i x y
    split at h
    · cases h
    · cases h
    · rename_i hx hy
      simp only [Expr.operandTerms?, Expr.default?_eq_none hx, Expr.default?_eq_none hy]
  · rename_i hne
    rcases patterns with _ | ⟨x, _ | ⟨y, _ | ⟨z, rest⟩⟩⟩
    · rfl
    · rfl
    · exact absurd rfl (hne x y)
    · rfl

/-- **The entry of a node** goes on with the terms that the operands are compared with. -/
theorem entry_pass {o : Options} (ho : o.skipRootGuard = false) {shape : Shape} {groups : Groups}
    {k : Chain Unit} {d : Nat} {skipped : Option Nat}
    (h : entry o l shape t patterns groups = some ((k, d), skipped)) (hb : b.get? t = some e)
    {fits : Bool} (ha : Answers l free b t e shape (shape.pending? groups) patterns fits) :
    Opens b t (Expr.operandTerms? t.isEmpty fits patterns e) (k.pass l free b) := by
  rcases cases_of_entry h with
    ⟨hop, -, hk⟩ | ⟨position, pattern, default, _, code, hop, -, -, -, hentry⟩
  · rw [operandTerms?_of_none hop, show k = _ from congrArg Prod.fst hk]
    exact opens_plain ho hb ha hop
  · rw [operandTerms?_of_optional hop]
    exact opens_optional ho hentry (position_of_optionalOperand? hop) hb ha

/-! ### Guards give the right answers -/

theorem declarationState_of_arities? {l : Language} {name : String} {counts : List Nat}
    (h : l.arities? name = some counts) :
    l.declarationState name = some (if 1 < counts.length then .overloaded else .unique) := by
  obtain ⟨id, hid, hcounts⟩ := Option.bind_eq_some_iff.1 h
  simp [Language.declarationState, hid, hcounts, Arities.isOverloaded]

/-- An operator that is not overloaded takes one count. -/
theorem eq_singleton_of_mem {l : Language} {name : String}
    (h : l.declarationState name ≠ some .overloaded) {counts : List Nat}
    (hcounts : l.arities? name = some counts) {n : Nat} (hn : n ∈ counts) : counts = [n] := by
  rw [declarationState_of_arities? hcounts] at h
  cases counts with
  | nil => cases hn
  | cons first rest =>
    cases rest with
    | nil => rw [List.mem_singleton.1 hn]
    | cons second rest => simp at h

/-- An operator that is not overloaded determines the number of operands. -/
theorem eq_of_takes {l : Language} {count : String → Nat} {name : String}
    (h : l.declarationState name ≠ some .overloaded) {m n : Nat} (hm : Expr.takes l count name m)
    (hn : Expr.takes l count name n) : m = n := by
  unfold Expr.takes at hm hn
  cases hc : l.arities? name with
  | none => rw [hc] at hm hn; exact hm.trans hn.symm
  | some counts =>
    rw [hc] at hm hn
    rw [eq_singleton_of_mem h hc hm] at hn
    exact (List.mem_singleton.1 hn).symm

theorem holds_guard_symbol (name : String) (n : Nat) (hb : b.get? t = some e) :
    ((Shape.symbol name).guard l t n).holds l free b = (e.operator? l == some name &&
      (e.operands.length == n || decide (l.declarationState name ≠ some .overloaded))) := by
  rw [Shape.guard]
  split
  · rename_i h
    rw [holds_overloaded l free hb]
    simp [h]
  · rename_i h
    have : l.declarationState name ≠ some .overloaded := fun hs => h hs
    rw [holds_operatorIs l free hb]
    simp [this]

theorem answers_symbol {count : String → Nat} {name : String} (hb : b.get? t = some e)
    (he : e.IsTerm l count) (hid : (l.id? name).isSome)
    (hp : optionalOperand? patterns = none → Expr.takes l count name patterns.length) :
    Answers l free b t e (.symbol name) none patterns (e.operator? l == some name) where
  plain := by
    intro hnone
    rw [Option.all_none, Bool.true_and, holds_guard_symbol name _ hb]
    by_cases hop : e.operator? l = some name
    · by_cases hover : l.declarationState name = some .overloaded
      · simp [hover]
      · have := eq_of_takes hover (he.takes hid hop) (hp hnone)
        simp [this]
    · rw [beq_false_of_ne hop]; rfl
  choice := by
    intro n guard h
    cases h
    exact holds_overloaded l free hb name n
  root := by
    intro name' heq htakes
    cases heq
    refine ⟨holds_operatorIs l free hb name, fun hop => ?_⟩
    -- the count is one that the operator takes, and these are one and two
    have hcount := he.takes hid (by simpa using hop)
    unfold takesOneOrTwo at htakes
    unfold Expr.takes at hcount
    cases hc : l.arities? name with
    | none => rw [hc] at htakes; cases htakes
    | some counts =>
      rw [hc] at htakes hcount
      have := List.all_eq_true.1 (Bool.and_eq_true_iff.1 htakes).2 _ hcount
      simpa using this

theorem answers_anyway {group : GroupId} {pending : Option Trail} (hb : b.get? t = some e) :
    Answers l free b t e (.anyway group) pending patterns (pending.all fun first =>
      (b.operatorAt l first).isSome && b.operatorAt l first == e.operator? l) where
  plain := by
    intro _
    rw [Shape.guard, holds_operandCountIs l free hb]
    cases pending with
    | none => rfl
    | some first => rw [Option.all_some, Option.all_some, holds_sameOperator l free hb]
  choice := by
    intro n guard h
    cases pending with
    | none =>
      cases h
      exact holds_operandCountIs l free hb n
    | some first =>
      have hguard : guard = .anyway ⟨t, first, t, n, Or.inr rfl⟩ := by
        simpa [Shape.countGuard, Guard.anyway?] using h.symm
      rw [hguard, Guard.holds, countIs_of_get? hb, Bindings.operatorAt_of_get? hb, Option.all_some]
      rw [Bool.and_assoc, Bool.and_comm]
  root := by
    intro name h
    cases h

end Matcher

end Rulewright
