import Rulewright.Artifact.Bucket
import Rulewright.Proofs.Chain.Frame
import Rulewright.Proofs.Fusion.Structural
import Rulewright.Proofs.Matching.Capture

/-!
# The check of the root

The function of a rule may leave the check of the root to its caller, who asks what the bucket of
the rule asks. The two matchers of a rule then differ inside as well: without a branch at the root
there is no count that the comparison of an open operator could be joined with.

* `Bucket.admits`: what is asked for a bucket.
* `Twins`: two chains, the first one being the second one under the check of the root.
* `rootGuard_holds`: the check of the root is the question for the bucket.
* `unchecked_agrees`: where the question is answered with yes, both matchers do the same, and where
  it is not, the matcher with the check does nothing.
-/

namespace Rulewright

/-- The term passes the check that is made for a bucket. -/
def Bucket.admits (l : Language) (e : Expr) : Bucket → Bool
  | .operator name arity => e.operator? l == some name && arity.all (e.operands.length == ·)
  | .anyway count => e.operands.length == count

open Stmt Bindings

theorem Bindings.nodeAt_child_congr {b b' : Bindings} {t : Trail} {i : Nat}
    (ht : b.nodeAt t = b'.nodeAt t) (hchild : b.get? (t.child i) = b'.get? (t.child i)) :
    b.nodeAt (t.child i) = b'.nodeAt (t.child i) := by
  cases hb : b.get? (t.child i) with
  | some x => rw [nodeAt_of_get? hb, nodeAt_of_get? (hchild ▸ hb)]
  | none => rw [nodeAt_child hb, nodeAt_child (hchild ▸ hb), ht]

namespace Matcher

variable {o : Options} {l : Language} {operands : List Expr}

/-- The options that leave the check of the root to the caller. -/
def Options.unchecked (o : Options) : Options := { o with skipRootGuard := true }

/-! ### Below the root -/

theorem entry_unchecked (o : Options) (l : Language) (shape : Shape) {t : Trail}
    (ht : t.isEmpty = false) (operands : List Expr) (groups : Groups) :
    entry o.unchecked l shape t operands groups = entry o l shape t operands groups := by
  have hplain : ∀ guard pending count,
      plainEntry o.unchecked t guard pending count = plainEntry o t guard pending count := by
    intro guard pending count
    simp only [plainEntry, ht, Bool.and_false, Bool.false_and, Bool.false_eq_true, if_false]
  have hoptional : ∀ position pattern default pending,
      optionalEntry o.unchecked l shape t position pattern default pending =
        optionalEntry o l shape t position pattern default pending := by
    intro position pattern default pending
    simp only [optionalEntry, ht, Bool.false_eq_true, if_false]
  simp only [entry, hplain, hoptional]

/-- Below the root the check of the root does not matter. -/
theorem patternChain_unchecked_all (o : Options) (l : Language) :
    (∀ e : Expr, ∀ t groups, t.isEmpty = false →
      patternChain o.unchecked l e t groups = patternChain o l e t groups) ∧
    ∀ es : List Expr, ∀ skipped t index k wanted groups,
      operandsChain o.unchecked l skipped t index es k wanted groups =
        operandsChain o l skipped t index es k wanted groups := by
  apply pattern_induct l
  case metavar =>
    intro id t groups ht
    simp only [patternChain]
  case compound =>
    intro inner ih t groups ht
    simp only [patternChain, ih t groups ht]
  case optional =>
    intro pattern default _ _ t groups ht
    simp only [patternChain]
  case node =>
    intro e shape operands hnode ih t groups ht
    simp only [hnode.patternChain_eq, entry_unchecked o l _ ht, ih]
  case nil =>
    intro skipped t index k wanted groups
    simp only [operandsChain]
  case cons =>
    intro e rest he hrest skipped t index k wanted groups
    have hchild : (t.child index).isEmpty = false := by simp [Trail.child]
    have hjoin : o.unchecked.joinComparisons = o.joinComparisons := rfl
    simp only [operandsChain, he _ _ hchild, hrest, hjoin]

/-! ### At the root -/

/-- The check of a root. -/
def rootGuard (l : Language) (shape : Shape) (operands : List Expr) : Guard :=
  match optionalOperand? operands, shape with
  | some _, .symbol name => .operatorIs Trail.root name
  | _, _ => shape.guard l Trail.root operands.length

/-- The first chain is the second one under a guard, as far as terms at the root go. The second one
does something before its first branch, so that nothing is joined there. Where the first one starts
with a count, it is a count of the root, and the operands are bound as they are. -/
structure Twins (l : Language) (guard : Guard) (plain : Prop) (k k' : Chain Unit) : Prop where
  tidy : k.Tidy
  tidy' : k'.Tidy
  busy : k.Busy
  busy' : k'.Busy
  silent : k'.frontGuard? = none
  counts : ∀ g countAt n, k.frontGuard? = some g → g.operandCountCheck? = some (countAt, n) →
      countAt = Trail.root ∧ plain
  pass : ∀ free e,
      k.pass l free (ofTerm e) =
        if guard.holds l free (ofTerm e) then k'.pass l free (ofTerm e) else none
  reads : plain →
      ∀ free e b, k'.pass l free (ofTerm e) = some b →
        b.get? Trail.root = some e ∧
          ∀ i, b.nodeAt (Trail.root.child i) = (ofTerm e).nodeAt (Trail.root.child i)

theorem attach_of_silent {k : Chain Unit} (h : k.frontGuard? = none) (joins : Bool)
    (r : Chain Unit) : k.attach joins () r = k.plug r := by
  have hfront : k.front? = none := Option.map_eq_none_iff.1 h
  have hjoin : k.joinGuard? r = none := by rw [Chain.joinGuard?, hfront]; rfl
  rw [Chain.attach, hjoin, ite_self]

/-- The chain of an operand is attached to both. -/
theorem Twins.attach {guard : Guard} {plain : Prop} {k k' r : Chain Unit}
    (h : Twins l guard plain k k') {p : Expr} {index : Nat} {groups groups' : Groups}
    (hr : patternChain o l p (Trail.root.child index) groups = some (some r, groups'))
    (joins : Bool) : Twins l guard plain (k.attach joins () r) (k'.attach joins () r) := by
  have hfit := patternChain_fit hr
  have hframe := patternChain_binds hr
  have hplug : ∀ free e,
      (k'.attach joins () r).pass l free (ofTerm e) =
        (k'.pass l free (ofTerm e)).bind (r.pass l free) := by
    intro free e
    rw [attach_of_silent h.silent, Chain.pass_plug l free h.tidy'.isQuiet]
  refine ⟨h.tidy.attach hfit.1 joins (), h.tidy'.attach hfit.1 joins (), h.busy.attach joins () r,
    h.busy'.attach joins () r, ?_, ?_, ?_, ?_⟩
  · rw [attach_of_silent h.silent, Chain.frontGuard?_plug h.busy', h.silent]
  · intro g countAt n hg hcount
    rcases Chain.frontGuard?_attach h.busy joins () r with hsame | ⟨c, hjoined⟩
    · exact h.counts g countAt n (hsame ▸ hg) hcount
    · rw [hjoined] at hg
      cases hg
      cases hcount
  · intro free e
    have hpass := h.pass free e
    rw [hplug]
    cases hk : k.pass l free (ofTerm e) with
    | none =>
      rw [hk] at hpass
      rw [Chain.pass_attach_none h.tidy.isQuiet hk]
      split_ifs at hpass ⊢
      · rw [← hpass]
        rfl
      · rfl
    | some b =>
      rw [hk] at hpass
      split_ifs at hpass ⊢
      rw [← hpass, Option.bind_some]
      refine Chain.pass_attach_some h.tidy.isQuiet hk joins () ?_
      intro x y countAt count first second hx hy hcount hpair halign
      obtain ⟨rfl, hplain⟩ := h.counts x.guard countAt count (Chain.frontGuard?_of_front? hx) hcount
      obtain ⟨rfl, -⟩ := pairing_patternChain p hr (Chain.frontGuard?_of_front? hy) hpair
      -- the operand is compared with the root, which is counted
      have hfirst : first = Trail.root :=
        (halign.resolve_right (Trail.child_ne Trail.root index).symm).symm
      obtain ⟨hroot, hchild⟩ := h.reads hplain free e b hpass.symm
      have hterm : (ofTerm e).get? Trail.root = some e := (reads_ofTerm e).root
      rw [hfirst, operatorAt_of_get? hterm, operatorAt_of_get? hroot, operatorAt, operatorAt,
        hchild index]
      exact ⟨rfl, rfl⟩
  · intro hplain free e b' hb'
    rw [hplug] at hb'
    obtain ⟨b, hb, hrb⟩ := Option.bind_eq_some_iff.1 hb'
    obtain ⟨hroot, hchild⟩ := h.reads hplain free e b hb
    have hkept : b'.get? Trail.root = b.get? Trail.root :=
      hframe.frame hrb (Trail.not_below_child_self _ _)
    refine ⟨hkept.trans hroot, fun i => ?_⟩
    rw [← hchild i]
    refine nodeAt_child_congr ?_ (hframe.frame hrb (Trail.not_below_child _ _ _))
    rw [nodeAt_of_get? (hkept.trans hroot), nodeAt_of_get? hroot]

theorem settle_implied (free : String → Bool) (guard : Guard) (ts : List (Stmt Unit))
    (b : Bindings) :
    settle l free (noop () :: impliedStmt guard :: ts) b = settle l free (noop () :: ts) b := by
  have hline : ∀ p, exec l free (impliedStmt guard) p = (none, p) := by
    intro p
    simp only [impliedStmt, fresh, exec, Line.exec, isCommentLine_implied, if_true,
      Bool.false_eq_true, if_false]
  simp only [settle, execAll, hline]

theorem reads_operandLines {b : Bindings} {e : Expr} (h : b.Reads e) (free : String → Bool)
    (t : Trail) (index count : Nat) : (settle l free (operandLines t index count) b).Reads e := by
  induction count generalizing b index with
  | zero => exact h
  | succ count ih =>
    rw [operandLines, settle_cons_line l free () _ rfl]
    exact ih (h.assign t index) (index + 1)

theorem reads_top {b : Bindings} {e : Expr} (h : b.Reads e) :
    b.get? Trail.root = some e ∧
    ∀ i, b.nodeAt (Trail.root.child i) = (ofTerm e).nodeAt (Trail.root.child i) :=
  ⟨h.root, fun _ => h.nodeAt_eq _⟩

/-- Both entries of a root. -/
theorem entry_twins (ho : o.skipRootGuard = false) {shape : Shape} {k : Chain Unit} {d : Nat}
    {skipped : Option Nat}
    (h : entry o l shape Trail.root operands Table.empty = some ((k, d), skipped)) :
    ∃ k' d', entry o.unchecked l shape Trail.root operands Table.empty = some ((k', d'), skipped) ∧
      Twins l (rootGuard l shape operands) (optionalOperand? operands = none) k k' := by
  have hpending : shape.pending? Table.empty = none := by cases shape <;> rfl
  have hcounts : ∀ g countAt n, k.frontGuard? = some g → g.operandCountCheck? = some (countAt, n) →
      countAt = Trail.root ∧ optionalOperand? operands = none :=
    fun g countAt n hg => (frontGuard?_entry h hg).2 countAt n
  rcases cases_of_entry h with
    ⟨hop, rfl, hk⟩ | ⟨position, pattern, default, id, code, hop, rfl, hid, hcode, hentry⟩
  · have h' : entry o.unchecked l shape Trail.root operands Table.empty =
        some ((.hole (noop () :: impliedStmt (shape.guard l Trail.root operands.length) ::
          operandLines Trail.root 0 operands.length) none [], 0), none) := by
      simp only [entry, hop, hpending]
      rfl
    have hk : (k, d) = (guarded (shape.guard l Trail.root operands.length)
        (.hole (noop () :: operandLines Trail.root 0 operands.length) none []), 1) := by
      simpa only [hpending, plainEntry, ho, Bool.false_and, Bool.false_eq_true, if_false] using hk
    cases hk
    have hguard : rootGuard l shape operands = shape.guard l Trail.root operands.length := by
      unfold rootGuard
      rw [hop]
    refine ⟨_, _, h', (isEntry_entry h).1, (isEntry_entry h').1, (isEntry_entry h).2.1,
      (isEntry_entry h').2.1, rfl, hcounts, fun free e => ?_, fun _ free e b hb => ?_⟩
    · simp only [hguard, guarded, Chain.pass, settle_implied]
      rfl
    · cases hb
      rw [settle_implied]
      exact reads_top (reads_operandLines (reads_ofTerm e) free Trail.root 0 operands.length)
  · -- a root with an optional operand has a name, and both entries make the same choice
    cases hentry with
    | implied _ hskip => cases ho.symm.trans hskip
    | below hroot => cases hroot
    | @root name hroot _ htakes =>
      have h' : entry o.unchecked l (.symbol name) Trail.root operands Table.empty =
          some ((.hole (noop () :: impliedStmt (.operatorIs Trail.root name) ::
            declarations Trail.root ++
            [.branch () (.operandCountIs Trail.root 2)
              (assignments (Trail.root.child 0, .operand Trail.root 0)
                (Trail.root.child 1, .operand Trail.root 1))
              (assignments (Trail.root.child position, .constructed code default.unwrap)
                (Trail.root.child (1 - position), .operand Trail.root 0))
              []]) none [], 0), some position) := by
        simp only [entry, hop, optionalEntry, hid, hcode, Shape.countGuard, optionalRootEntry,
          htakes, if_true]
        rfl
      have hguard : rootGuard l (.symbol name) operands = .operatorIs Trail.root name := by
        unfold rootGuard
        rw [hop]
      refine ⟨_, _, h', (isEntry_entry h).1, (isEntry_entry h').1, (isEntry_entry h).2.1,
        (isEntry_entry h').2.1, rfl, hcounts, fun free e => ?_, fun hplain => ?_⟩
      · simp only [hguard, guarded, Chain.pass, List.cons_append, settle_implied]
        rfl
      · cases hop.symm.trans hplain

/-- Both chains of the operands. -/
theorem operandsChain_twins {guard : Guard} {plain : Prop} {skipped : Option Nat} {index : Nat}
    {patterns : List Expr} {k k' k1 : Chain Unit} {w w1 : Bool} {groups groups1 : Groups}
    (h : Twins l guard plain k k')
    (hk : operandsChain o l skipped Trail.root index patterns k w groups = some (k1, w1, groups1)) :
    ∃ k1',
      operandsChain o.unchecked l skipped Trail.root index patterns k' w groups =
        some (k1', w1, groups1) ∧
      Twins l guard plain k1 k1' := by
  induction patterns generalizing index k k' w groups with
  | nil =>
    cases hk
    exact ⟨k', rfl, h⟩
  | cons p rest ih =>
    have hchild : (Trail.root.child index).isEmpty = false := by simp [Trail.child]
    rcases cases_of_operandsChain hk with ⟨hs, hk⟩ | ⟨hs, x, groups2, hx, hk⟩
    · rw [operandsChain, if_pos hs]
      exact ih h hk
    · rw [operandsChain_cons hs, (patternChain_unchecked_all o l).1 p _ _ hchild, hx]
      cases x with
      | none => exact ih h hk
      | some r => exact ih (h.attach hx o.joinComparisons) hk

/-- The optional operand of a root is found by its bucket. -/
theorem any_isOptional_iff (operands : List Expr) :
    (operands.any fun e => e.unwrap.isOptional) = false ↔ ∀ p ∈ operands, p.default? = none := by
  rw [List.any_eq_false]
  refine forall₂_congr fun p _ => ?_
  rw [Expr.default?]
  cases p.unwrap <;> simp [Expr.isOptional]

theorem any_isOptional_of_optionalOperand? {x : Nat × Expr × Expr}
    (h : optionalOperand? operands = some x) :
    (operands.any fun e => e.unwrap.isOptional) = true := by
  obtain ⟨a, b, rfl, ⟨-, ha⟩ | ⟨-, hb, -⟩⟩ := cases_of_optionalOperand? h
  · simp [ha, Expr.isOptional]
  · simp [hb, Expr.isOptional]

/-- **The check of the root is the question for the bucket.** -/
theorem rootGuard_holds {shape : Shape} {bucket : Bucket} {p : Expr}
    (hnode : IsNode l p shape operands)
    (hplain : optionalOperand? operands = none → ∀ p ∈ operands, p.default? = none)
    (hanyway : ∀ group, shape = .anyway group → optionalOperand? operands = none)
    (hb : Bucket.of? l p = some bucket) (free : String → Bool) (e : Expr) :
    (rootGuard l shape operands).holds l free (ofTerm e) = bucket.admits l e := by
  have hroot : (ofTerm e).get? Trail.root = some e := (reads_ofTerm e).root
  unfold rootGuard
  cases hnode with
  | var name => cases hb
  | literal value => cases hb
  | app symbol operands =>
    simp only [Bucket.of?, Expr.unwrap] at hb
    cases hop : optionalOperand? operands with
    | none =>
      rw [(any_isOptional_iff operands).2 (hplain hop)] at hb
      simp only [holds_guard_symbol _ _ hroot]
      split at hb
      · rename_i hstate
        cases hb
        simp [Bucket.admits, hstate]
      · rename_i hstate
        cases hb
        have hunique : l.declarationState (l.name symbol) ≠ some .overloaded := fun hs => hstate hs
        simp [Bucket.admits, hunique]
    | some x =>
      rw [any_isOptional_of_optionalOperand? hop] at hb
      have hbucket : bucket = .operator (l.name symbol) none := by
        split at hb <;> exact (Option.some.inj hb).symm
      rw [hbucket]
      simp only [holds_operatorIs l free hroot, Bucket.admits, Option.all_none, Bool.and_true]
  | anyway group operands =>
    cases hb
    rw [hanyway group rfl]
    exact holds_operandCountIs l free hroot operands.length

/-- A node with an open operator and an optional operand has no entry at the root. -/
theorem optionalOperand?_of_anyway {group : GroupId} {groups : Groups} {x : Entry × Option Nat}
    (h : entry o l (.anyway group) Trail.root operands groups = some x) :
    optionalOperand? operands = none := by
  obtain ⟨e, skipped⟩ := x
  rcases cases_of_entry h with ⟨hnone, -⟩ | ⟨_, _, _, _, _, -, -, -, -, hentry⟩
  · exact hnone
  · cases hentry with
    | below hroot => cases hroot

/-- Both chains of a pattern that has a bucket. -/
theorem patternChain_twins (ho : o.skipRootGuard = false) {bucket : Bucket} (p : Expr)
    (hb : Bucket.of? l p = some bucket) {x : Option (Chain Unit)} {groups : Groups}
    (h : patternChain o l p Trail.root Table.empty = some (x, groups)) :
    ∃ k k', x = some k ∧
      patternChain o.unchecked l p Trail.root Table.empty = some (some k', groups) ∧
      ∀ free e,
        k.pass l free (ofTerm e) =
          if bucket.admits l e then k'.pass l free (ofTerm e) else none := by
  refine (pattern_induct l
    (P := fun p => Bucket.of? l p = some bucket →
      ∀ {x groups}, patternChain o l p Trail.root Table.empty = some (x, groups) →
        ∃ k k', x = some k ∧
          patternChain o.unchecked l p Trail.root Table.empty = some (some k', groups) ∧
          ∀ free e, k.pass l free (ofTerm e) =
            if bucket.admits l e then k'.pass l free (ofTerm e) else none)
    (Q := fun _ => True) ?_ ?_ ?_ ?_ trivial fun _ _ _ _ => trivial).1 p hb h
  · intro id hb
    cases hb
  · exact fun inner ih hb x groups => ih hb
  · intro pattern default _ _ hb
    cases hb
  · intro p shape operands hnode _ hb x groups h
    obtain ⟨e, skipped, k1, wanted, he, hk, rfl⟩ := hnode.exists_of_patternChain h
    have hplain : optionalOperand? operands = none → ∀ p ∈ operands, p.default? = none := by
      intro hnone
      obtain rfl := skipped_eq_none he hnone
      exact default?_of_operandsChain hk
    obtain ⟨k', d', he', htwins⟩ := entry_twins ho he
    obtain ⟨k1', hk', htwins'⟩ := operandsChain_twins htwins hk
    refine ⟨_, _, rfl, hnode.patternChain_of_entry he' hk', fun free t => ?_⟩
    have hpass := htwins'.pass free t
    rw [rootGuard_holds hnode hplain (fun group hgroup => optionalOperand?_of_anyway (hgroup ▸ he))
      hb] at hpass
    cases wanted with
    | true => simpa using hpass
    | false => exact hpass

/-- **What compiled code does on a term**: it gets through the chain of the pattern or not. -/
theorem compile_runs {o : CompileOptions} {r : Rule} {c c' : Code} {head : NodeId}
    (hc : r.compile o l c = (.ok head, c')) :
    ∃ k groups texts replacement,
      patternChain (matcherOptions o) l r.pattern Trail.root Table.empty = some (k, groups) ∧
      conditionCodes (ruleScope l false r groups) r = .ok texts ∧
      ((ruleScope l o.foldConstants r groups).code r.replacement []).1 = .ok replacement ∧
      ∀ free e,
        (c'.run l free head e).changed =
          (passed? l free k (ofTerm e)).any (actionHolds l free r texts) ∧
        (c'.run l free head e).fired =
          if (passed? l free k (ofTerm e)).any (actionHolds l free r texts) then
            firing r replacement
          else [] := by
  obtain ⟨ts, hcode, rfl, hne, hsolid, howns⟩ := compile_owns (Code.Owns.zero c) hc
  obtain ⟨k, groups, texts, replacement, hk, htexts, hreplacement, -⟩ :=
    execAll_ruleCode l (fun _ => false) hcode
  refine ⟨k, groups, texts, replacement, hk, htexts, hreplacement, fun free e => ?_⟩
  obtain ⟨k', groups', texts', replacement', hk', htexts', hreplacement', hexec⟩ :=
    execAll_ruleCode l free hcode
  -- the parts of the code do not depend on what the free guards say
  obtain ⟨rfl, rfl⟩ := Prod.mk.inj (Option.some.inj (hk.symm.trans hk'))
  obtain rfl := Except.ok.inj (htexts.symm.trans htexts')
  obtain rfl := Except.ok.inj (hreplacement.symm.trans hreplacement')
  obtain ⟨b, hb⟩ := hexec ⟨[], ofTerm e⟩
  rw [execAll_strip] at hb
  have hrun : c'.run l free (start ts) e = _ := howns.run_eq hsolid hne e
  dsimp only at hrun
  rw [show (Table.empty.insert Trail.root e : Bindings) = ofTerm e from rfl, hb] at hrun
  rw [hrun]
  split_ifs with hpassed
  · exact ⟨hpassed.symm, rfl⟩
  · exact ⟨(Bool.eq_false_iff.2 hpassed).symm, rfl⟩

end Matcher

open Matcher in
/-- **The two matchers of a rule**: on a term that passes the check for the bucket of the rule, both
do the same, and on any other term the matcher with the check of the root returns `false`. -/
theorem unchecked_agrees {o : CompileOptions} (ho : o.skipRootGuard = false) {l : Language}
    {r : Rule} {bucket : Bucket} (hbucket : Bucket.of? l r.pattern = some bucket)
    {c c' checked unchecked : Code} {head head' : NodeId}
    (hc : r.compile o l c = (.ok head, checked))
    (hc' : r.compile { o with skipRootGuard := true } l c' = (.ok head', unchecked))
    (free : String → Bool) (e : Expr) :
    (bucket.admits l e = true →
      (unchecked.run l free head' e).changed = (checked.run l free head e).changed ∧
        (unchecked.run l free head' e).fired = (checked.run l free head e).fired) ∧
    (bucket.admits l e = false → (checked.run l free head e).changed = false) := by
  obtain ⟨x, groups, texts, replacement, hx, htexts, hreplacement, hrun⟩ := compile_runs hc
  obtain ⟨x', groups', texts', replacement', hx', htexts', hreplacement', hrun'⟩ := compile_runs hc'
  obtain ⟨k, k', rfl, hk', hpass⟩ :=
    patternChain_twins (o := matcherOptions o) ho r.pattern hbucket hx
  obtain ⟨rfl, rfl⟩ := Prod.mk.inj (Option.some.inj (hx'.symm.trans hk'))
  obtain rfl := Except.ok.inj (htexts.symm.trans htexts')
  obtain rfl := Except.ok.inj (hreplacement.symm.trans hreplacement')
  refine ⟨fun hadmits => ?_, fun hadmits => ?_⟩
  · have hsame : passed? l free (some k) (ofTerm e) = passed? l free (some k') (ofTerm e) := by
      rw [passed?, passed?, hpass free e, if_pos hadmits]
    rw [(hrun free e).1, (hrun free e).2, (hrun' free e).1, (hrun' free e).2, hsame]
    exact ⟨rfl, rfl⟩
  · have hnone : passed? l free (some k) (ofTerm e) = none := by
      rw [passed?, hpass free e, hadmits]
      rfl
    rw [(hrun free e).1, hnone]
    rfl

end Rulewright
